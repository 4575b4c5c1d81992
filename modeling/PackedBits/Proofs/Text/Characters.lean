import PackedBits.Proofs.Run.Action
import PackedBits.Proofs.Run.Locality
import PackedBits.Proofs.Text.Filling
import PackedBits.Proofs.Walk.Values

/-! Text in two characters of the caller's choice. What is written is read back, and what is read is
written back, character for character; the first character that is neither of the two is reported,
its position counted in characters. Writing walks the bits from the back and reading stores them
from the top down, so both begin with the highest position. -/
namespace PackedBits

namespace Text

/-- `char` is the first of the characters that is not accepted, and `before` are those before it. -/
structure Stray (accepted : Char → Prop) (chars before : List Char) (char : Char) : Prop where
  split : ∃ rest, chars = before ++ char :: rest
  clean : ∀ c ∈ before, accepted c
  strange : ¬ accepted char

theorem accepted_or_stray (accepted : Char → Prop) (chars : List Char) :
    (∀ c ∈ chars, accepted c) ∨ ∃ before char, Stray accepted chars before char := by
  induction chars with
  | nil => exact .inl nofun
  | cons first rest ih =>
      by_cases known : accepted first
      · rcases ih with all | ⟨before, char, ⟨tail, same⟩, clean, strange⟩
        · exact .inl (List.forall_mem_cons.mpr ⟨known, all⟩)
        · refine .inr ⟨first :: before, char, ⟨tail, ?_⟩, List.forall_mem_cons.mpr ⟨known, clean⟩,
            strange⟩
          rw [same, List.cons_append]
      · exact .inr ⟨[], first, ⟨rest, rfl⟩, nofun, known⟩

variable {w : Nat} [HasBits w] {s : Span w}

def shown (on off : Char) (bits : List Bool) : List Char :=
  bits.reverse.map fun bit => if bit then on else off

theorem write_eq (held : s.Held) (on off : Char) :
    write s on off = .ok (String.ofList (shown on off s.toList)) := by
  obtain ⟨walk, ran⟩ := BitWalk.drainBack_eq held
  rw [write, ran]
  rfl

theorem replicate_append_cons (k : Nat) (rest : List Bool) :
    List.replicate (k + 1) false ++ rest = List.replicate k false ++ false :: rest := by
  rw [List.replicate_succ', List.append_assoc]
  rfl

theorem set_top_ends (held : s.Held) {k : Nat} {rest : List Bool}
    (clear : s.toList = List.replicate (k + 1) false ++ rest) :
    (Span.set k true).Ends s
      (fun _ s' => Span.Within s s' ∧ s'.toList = List.replicate k false ++ true :: rest)
      fun _ _ => False := by
  have length : s.len = k + 1 + rest.length := by
    rw [← Span.length_toList, clear, List.length_append, List.length_replicate]
  refine (Span.set_ends held k true).imp ?_ ?_
  · rintro ⟨⟩ s' ⟨within, -, list⟩
    refine ⟨within, ?_⟩
    rw [list, clear, replicate_append_cons, List.set_append_right _ _ (by simp)]
    simp
  · rintro failure s' ⟨-, above, -⟩
    omega

section
variable {on off : Char} {chars : List Char} {length position : Nat} {rest : List Bool}

theorem storeWith_done (held : s.Held) (clean : ∀ c ∈ chars, c = on ∨ c = off)
    (sum : position + chars.length = length)
    (clear : s.toList = List.replicate chars.length false ++ rest) :
    (storeWith on off length position chars).Ends s
      (fun _ s' => Span.Within s s' ∧
        s'.toList = (chars.map fun c => decide (c = on)).reverse ++ rest) fun _ _ => False := by
  induction chars generalizing s position rest with
  | nil => exact ⟨Span.Within.refl s, clear⟩
  | cons char later ih =>
      obtain ⟨known, clean⟩ := List.forall_mem_cons.mp clean
      rw [List.length_cons] at sum clear
      rw [List.map_cons, List.reverse_cons, List.append_assoc]
      unfold storeWith
      by_cases isOn : char = on
      · rw [if_pos isOn, show length - 1 - position = later.length by omega, decide_eq_true isOn]
        refine (set_top_ends held clear).bind ?_
        rintro ⟨⟩ s₁ ⟨within, list⟩
        refine (ih (within.held held) clean (by omega) list).imp ?_ fun _ _ => id
        rintro ⟨⟩ s' ⟨within', list'⟩
        exact ⟨within.trans within', list'⟩
      · rw [if_neg isOn, if_neg fun strange => strange (known.resolve_left isOn), decide_eq_false isOn]
        rw [replicate_append_cons] at clear
        exact ih held clean (by omega) clear

theorem storeWith_stops {before : List Char} {char : Char} (held : s.Held)
    (stray : Stray (fun c => c = on ∨ c = off) chars before char)
    (sum : position + chars.length = length)
    (clear : s.toList = List.replicate chars.length false ++ rest) :
    (storeWith on off length position chars).Ends s (fun _ _ => False)
      fun failure s' => Span.Within s s' ∧
        failure = .error (.invalidChar char (position + before.length)) := by
  obtain ⟨⟨tail, rfl⟩, clean, strange⟩ := stray
  induction before generalizing s position rest with
  | nil =>
      obtain ⟨other, unknown⟩ := not_or.mp strange
      rw [List.nil_append]
      unfold storeWith
      rw [if_neg other, if_pos unknown]
      exact ⟨Span.Within.refl s, rfl⟩
  | cons first later ih =>
      obtain ⟨known, clean⟩ := List.forall_mem_cons.mp clean
      rw [List.cons_append, List.length_cons] at sum clear
      rw [List.cons_append, List.length_cons]
      have position' : position + (later.length + 1) = position + 1 + later.length := by omega
      rw [position']
      unfold storeWith
      by_cases isOn : first = on
      · rw [if_pos isOn, show length - 1 - position = (later ++ char :: tail).length by omega]
        refine Attempt.Ends.bind ((set_top_ends held clear).imp (fun _ _ => id)
          fun _ _ => False.elim) ?_
        rintro ⟨⟩ s₁ ⟨within, list⟩
        refine (ih (within.held held) clean (by omega) list).imp (fun _ _ => id) ?_
        rintro failure s' ⟨within', same⟩
        exact ⟨within.trans within', same⟩
      · rw [if_neg isOn, if_neg fun strange => strange (known.resolve_left isOn)]
        rw [replicate_append_cons] at clear
        exact ih held clean (by omega) clear

end

/-- The bits that characters stand for, the first character being the highest position. -/
def meant (on : Char) (chars : List Char) : List Bool :=
  (chars.map fun c => decide (c = on)).reverse

theorem length_meant (on : Char) (chars : List Char) : (meant on chars).length = chars.length := by
  rw [meant, List.length_reverse, List.length_map]

theorem meant_shown {on off : Char} (differ : on ≠ off) (bits : List Bool) :
    meant on (shown on off bits) = bits := by
  have back : (fun bit : Bool => decide ((if bit then on else off) = on)) = id := by
    funext bit
    cases bit with
    | false => exact decide_eq_false fun same => differ same.symm
    | true => exact decide_eq_true rfl
  rw [meant, shown, List.map_map, List.map_reverse, List.reverse_reverse]
  show bits.map (fun bit : Bool => decide ((if bit then on else off) = on)) = bits
  rw [back, List.map_id]

theorem shown_meant {on off : Char} {chars : List Char} (clean : ∀ c ∈ chars, c = on ∨ c = off) :
    shown on off (meant on chars) = chars := by
  rw [shown, meant, List.reverse_reverse, List.map_map]
  refine (List.map_congr_left fun c member => ?_).trans (List.map_id chars)
  show (if decide (c = on) = true then on else off) = c
  by_cases isOn : c = on
  · rw [if_pos (decide_eq_true isOn), isOn]
  · rw [decide_eq_false isOn, (clean c member).resolve_left isOn]
    rfl

theorem shown_clean (on off : Char) (bits : List Bool) :
    ∀ c ∈ shown on off bits, c = on ∨ c = off := by
  intro c member
  obtain ⟨bit, -, rfl⟩ := List.mem_map.mp member
  cases bit with
  | false => exact .inr rfl
  | true => exact .inl rfl

section
variable {S : Type} [Storage S w] [StorageSpec S w] [LawfulStorage S w] {policy : Policy}
  {refusals : Nat} {blocks : List Grant} {p : Provider} {on off : Char} {text : String}

theorem parseWith_clean (books : Books policy refusals blocks p)
    (clean : ∀ c ∈ text.toList, c = on ∨ c = off) :
    BitVector.MakesBits (parseWith text on off : Attempt Provider S) (meant on text.toList) p := by
  have length : (meant on text.toList).length = text.length :=
    (length_meant on text.toList).trans String.length_toList
  have fills (s : Span w) (held : s.Held)
      (clear : s.toList = List.replicate (meant on text.toList).length false) :
      (storeWith on off text.length 0 text.toList).Ends s
        (fun _ s' => Span.Within s s' ∧ s'.toList = meant on text.toList) fun _ _ => False := by
    rw [length, ← String.length_toList, ← List.append_nil (List.replicate _ false)] at clear
    have stored := storeWith_done held clean (Nat.zero_add _) clear
    rw [List.append_nil, String.length_toList] at stored
    exact stored
  have made := BitVector.makesBits_of_done (S := S) books fills
  rw [length] at made
  exact made

theorem parseWith_stray {s : S} {p' : Provider} {before : List Char} {char : Char}
    (books : Books policy refusals blocks p)
    (ran : (BitVector.tryWithLen text.length false : Attempt Provider S) p = .ok s p')
    (stray : Stray (fun c => c = on ∨ c = off) text.toList before char) :
    ∃ p'', (parseWith text on off : Attempt Provider S) p =
      .error (.error (.invalidChar char before.length)) p'' := by
  refine BitVector.fails_of_stopped books ran fun s held clear => ?_
  rw [← String.length_toList, ← List.append_nil (List.replicate _ false)] at clear
  have stopped := storeWith_stops held stray (Nat.zero_add _) clear
  rw [Nat.zero_add, String.length_toList] at stopped
  exact stopped

theorem parseWith_shown (books : Books policy refusals blocks p) (differ : on ≠ off)
    (bits : List Bool) :
    BitVector.MakesBits
      (parseWith (String.ofList (shown on off bits)) on off : Attempt Provider S) bits p := by
  have clean : ∀ c ∈ (String.ofList (shown on off bits)).toList, c = on ∨ c = off := by
    rw [String.toList_ofList]
    exact shown_clean on off bits
  have made := parseWith_clean (S := S) books clean
  rw [String.toList_ofList, meant_shown differ] at made
  exact made

theorem write_parseWith {s : S} {p' : Provider} (books : Books policy refusals blocks p)
    (ran : (parseWith text on off : Attempt Provider S) p = .ok s p') :
    write (Container.span s) on off = .ok text := by
  obtain ⟨s', p'', room⟩ := BitVector.tryWithLen_of_done ran
  rcases accepted_or_stray (fun c => c = on ∨ c = off) text.toList with
    clean | ⟨before, char, stray⟩
  · have made := (BitVector.parseWith_makes text on off).made books ran
    have list := (parseWith_clean books clean).list_eq ran
    rw [write_eq (Storage.held made.sound), list, shown_meant clean, String.ofList_toList]
  · obtain ⟨p₁, stopped⟩ := parseWith_stray books room stray
    cases ran.symm.trans stopped

theorem parseWith_complains {s : S} {p' : Provider} (books : Books policy refusals blocks p)
    (room : (BitVector.tryWithLen text.length false : Attempt Provider S) p = .ok s p')
    (char : Char) (position : Nat) :
    (∃ p'', (parseWith text on off : Attempt Provider S) p =
      .error (.error (.invalidChar char position)) p'') ↔
    ∃ before, Stray (fun c => c = on ∨ c = off) text.toList before char ∧
      before.length = position := by
  constructor
  · rintro ⟨p'', stopped⟩
    rcases accepted_or_stray (fun c => c = on ∨ c = off) text.toList with
      clean | ⟨before, char', stray⟩
    · rw [← String.length_toList, ← length_meant on text.toList] at room
      obtain ⟨s', done, -⟩ := (parseWith_clean books clean).done room
      cases done.symm.trans stopped
    · obtain ⟨p₁, stopped'⟩ := parseWith_stray books room stray
      cases stopped.symm.trans stopped'
      exact ⟨before, stray, rfl⟩
  · rintro ⟨before, stray, rfl⟩
    exact parseWith_stray books room stray

end

/-- Writing and reading in two characters undo each other on storages of one kind, from some
provider. -/
structure Inverse (S : Type) {w : Nat} [HasBits w] [Storage S w] (p : Provider) (on off : Char) :
    Prop where
  /-- What is written of any container is read as its bits, in the room that they need. -/
  written {w' : Nat} [HasBits w'] (host : Host w') : ∃ text, write host.span on off = .ok text ∧
    BitVector.MakesBits (parseWith text on off : Attempt Provider S) host.bits p
  /-- What is read is written back. -/
  read (text : String) (s : S) (p' : Provider) :
    (parseWith text on off : Attempt Provider S) p = .ok s p' →
    write (Container.span s) on off = .ok text
  /-- Where there is room, the complaint is of the first character that is neither, and there is
  none if all are one or the other. -/
  complains (text : String) (s : S) (p' : Provider) :
    (BitVector.tryWithLen text.length false : Attempt Provider S) p = .ok s p' →
    ∀ char position,
      (∃ p'', (parseWith text on off : Attempt Provider S) p =
        .error (.error (.invalidChar char position)) p'') ↔
      ∃ before, Stray (fun c => c = on ∨ c = off) text.toList before char ∧
        before.length = position

end Text

/-- On every storage, whatever has been done before, two different characters give a format in which
writing and reading undo each other. -/
theorem characters_are_inverse (b : Backend) {policy : Policy} (lawful : policy.Lawful)
    (actions : List (Action b.width)) {on off : Char} (differ : on ≠ off) :
    let pool : Pool b.Carrier := (Action.run actions (Action.start policy)).2
    Text.Inverse b.Carrier pool.provider on off := by
  intro pool
  have sound : pool.Sound policy 0 [] := Action.reached_sound (S := b.Carrier) lawful actions
  have books := sound.books
  constructor
  · exact fun host => ⟨_, Text.write_eq host.held on off, Text.parseWith_shown books differ _⟩
  · exact fun text s p' ran => Text.write_parseWith books ran
  · exact fun text s p' room => Text.parseWith_complains books room

/-- Two symbols of several bytes each: a stray letter behind two of them stands at position two. -/
theorem characters_are_inverse_for_wide_symbols :
    let pool : Pool Backend.smallBuffer.Carrier :=
      (Action.run [] (Action.start (Policy.pages 1))).2
    (Policy.pages 1).Lawful ∧ '█' ≠ '░' ∧
      Text.Inverse Backend.smallBuffer.Carrier pool.provider '█' '░' ∧
      ∃ p, (Text.parseWith "█░x" '█' '░' : Attempt Provider Backend.smallBuffer.Carrier)
        pool.provider = .error (.error (.invalidChar 'x' 2)) p := by
  intro pool
  have lawful : (Policy.pages 1).Lawful := Policy.pages_lawful (by decide)
  have differ : '█' ≠ '░' := by decide
  have inverse := characters_are_inverse .smallBuffer lawful [] differ
  let clear : Attempt Provider Backend.smallBuffer.Carrier :=
    BitVector.tryWithLen "█░x".length false
  have room : (clear pool.provider matches .ok ..) = true := by decide +kernel
  cases ran : clear pool.provider with
  | ok s p' =>
      refine ⟨lawful, differ, inverse, (inverse.complains "█░x" s p' ran 'x' 2).mpr ?_⟩
      exact ⟨['█', '░'], ⟨⟨[], by decide⟩, by simp, by decide⟩, rfl⟩
  | error failure p' =>
      rw [ran] at room
      cases room

end PackedBits
