import PackedBits.Proofs.Text.Characters

/-! Text in digits. A text is read if nothing but digits and separators is left of it without its
lead, and then each digit is one bit, the first digit being the highest position; otherwise the
first character that is neither is reported where it stands in the whole text. The two passes over
a text agree since a checked text has characters of one byte only. -/
namespace PackedBits

namespace Text

def lead (text : String) : List Char :=
  if ['0', 'b'] <+: text.toList then ['0', 'b'] else []

def body (text : String) : List Char := text.toList.drop (lead text).length

def Allowed (char : Char) : Prop := char = '0' ∨ char = '1' ∨ char = '_'

def digitsOf (chars : List Char) : List Char := chars.filter fun char => char == '0' || char == '1'

def digits (text : String) : List Char := digitsOf (body text)

theorem unled_eq (text : String) : unled text = (String.ofList (body text), (lead text).length) := by
  unfold unled body lead
  split
  · rename_i rest same
    rw [same, if_pos ⟨rest, rfl⟩]
    rfl
  · rename_i other
    have unled : ¬ ['0', 'b'] <+: text.toList := by
      rintro ⟨rest, same⟩
      exact other rest same.symm
    rw [if_neg unled]
    exact congrArg (·, 0) String.ofList_toList.symm

theorem countFrom_allowed {chars : List Char} (allowed : ∀ c ∈ chars, Allowed c)
    (position : Nat) : countFrom position chars = .ok (digitsOf chars).length := by
  induction chars generalizing position with
  | nil => rfl
  | cons char rest ih =>
      obtain ⟨known, allowed⟩ := List.forall_mem_cons.mp allowed
      rw [countFrom, ih allowed]
      rcases known with rfl | rfl | rfl
      · rfl
      · rfl
      · rfl

theorem countFrom_stray {chars before : List Char} {char : Char}
    (stray : Stray Allowed chars before char) (position : Nat) :
    countFrom position chars = .error (.invalidChar char (position + before.length)) := by
  obtain ⟨⟨tail, rfl⟩, clean, strange⟩ := stray
  induction before generalizing position with
  | nil =>
      rw [List.nil_append, countFrom, if_neg fun digit => strange (digit.imp id .inl),
        if_neg fun separator => strange (.inr (.inr separator))]
      rfl
  | cons first later ih =>
      obtain ⟨known, clean⟩ := List.forall_mem_cons.mp clean
      have shifted : position + (later.length + 1) = position + 1 + later.length := by omega
      rw [List.cons_append, countFrom, ih (position + 1) clean, List.length_cons, shifted]
      rcases known with rfl | rfl | rfl
      · rfl
      · rfl
      · rfl

theorem scan_allowed {text : String} (allowed : ∀ c ∈ body text, Allowed c) :
    scan text = .ok (String.ofList (body text), (digits text).length) := by
  have checked := countFrom_allowed allowed (lead text).length
  simp only [scan, unled_eq, String.toList_ofList, checked]
  rfl

theorem scan_stray {text : String} {before : List Char} {char : Char}
    (stray : Stray Allowed (body text) before char) :
    scan text = .error (.invalidChar char ((lead text).length + before.length)) := by
  have stopped := countFrom_stray stray (lead text).length
  simp only [scan, unled_eq, String.toList_ofList, stopped]
  rfl

/-- The bits that digits stand for, the first digit being the highest position. -/
def bitsOf (digits : List Char) : List Bool := meant '1' digits

theorem bitsOf_cons (digit : Char) (digits : List Char) (rest : List Bool) :
    bitsOf (digit :: digits) ++ rest = bitsOf digits ++ decide (digit = '1') :: rest := by
  rw [bitsOf, meant, List.map_cons, List.reverse_cons, List.append_assoc]
  rfl

theorem utf8_allowed {char : Char} (allowed : Allowed char) :
    String.utf8EncodeChar char = [char.toUInt8] := by
  rcases allowed with rfl | rfl | rfl
  · decide
  · decide
  · decide

variable {w : Nat} [HasBits w] {s : Span w}

theorem storeFrom_done {chars : List Char} {rest : List Bool} (held : s.Held)
    (allowed : ∀ c ∈ chars, Allowed c)
    (clear : s.toList = List.replicate (digitsOf chars).length false ++ rest) :
    (storeFrom (digitsOf chars).length (chars.flatMap String.utf8EncodeChar)).Ends s
      (fun _ s' => Span.Within s s' ∧ s'.toList = bitsOf (digitsOf chars) ++ rest)
      fun _ _ => False := by
  induction chars generalizing s rest with
  | nil => exact ⟨Span.Within.refl s, clear⟩
  | cons char later ih =>
      obtain ⟨known, others⟩ := List.forall_mem_cons.mp allowed
      rw [List.flatMap_cons, utf8_allowed known, List.singleton_append]
      rcases known with rfl | rfl | rfl
      · have zero : digitsOf ('0' :: later) = '0' :: digitsOf later := rfl
        rw [zero, List.length_cons, replicate_append_cons] at clear
        rw [zero, bitsOf_cons, storeFrom, if_neg (by decide), if_pos rfl]
        exact ih held others clear
      · have one : digitsOf ('1' :: later) = '1' :: digitsOf later := rfl
        rw [one, List.length_cons] at clear
        rw [one, bitsOf_cons, storeFrom, if_pos rfl]
        refine (set_top_ends held clear).bind ?_
        rintro ⟨⟩ s₁ ⟨within, list⟩
        refine (ih (within.held held) others list).imp ?_ fun _ _ => id
        rintro ⟨⟩ s' ⟨within', list'⟩
        exact ⟨within.trans within', list'⟩
      · rw [storeFrom, if_neg (by decide), if_neg (by decide)]
        exact ih held others clear

theorem store_done (text : String) (held : s.Held) (allowed : ∀ c ∈ body text, Allowed c)
    (clear : s.toList = List.replicate (bitsOf (digits text)).length false) :
    (store (String.ofList (body text))).Ends s
      (fun _ s' => Span.Within s s' ∧ s'.toList = bitsOf (digits text)) fun _ _ => False := by
  have bytes : (String.ofList (body text)).toByteArray.data.toList =
      (body text).flatMap String.utf8EncodeChar := by
    rw [String.toByteArray_ofList]
    exact List.toList_data_toByteArray
  have length : s.len = (digitsOf (body text)).length := by
    rw [← Span.length_toList, clear, List.length_replicate]
    exact length_meant '1' (digits text)
  rw [bitsOf, length_meant, ← List.append_nil (List.replicate _ false)] at clear
  refine .get_bind ?_
  rw [length, bytes]
  have stored := storeFrom_done held allowed clear
  rw [List.append_nil] at stored
  exact stored

section
variable {S : Type} [Storage S w] [StorageSpec S w] [LawfulStorage S w] {policy : Policy}
  {refusals : Nat} {blocks : List Grant} {p : Provider} {text : String}

end

section
variable {n : Nat} {text : String}

theorem parseSet_allowed (text : String) (allowed : ∀ c ∈ body text, Allowed c)
    (count : (digits text).length = n) :
    ∃ set : FixedSet w n, parseSet text = .ok set ∧
      Span.Within (Container.span (FixedSet.empty : FixedSet w n)) (Container.span set) ∧
      (Container.span set).toList = bitsOf (digits text) := by
  have clear : (Container.span (FixedSet.empty : FixedSet w n)).toList =
      List.replicate (bitsOf (digits text)).length false := by
    rw [FixedSet.empty_list, bitsOf, length_meant, count]
  obtain ⟨set, filled, within, list⟩ :=
    FixedSet.after_done (store_done text FixedSet.empty_held allowed clear)
  refine ⟨set, ?_, within, list⟩
  unfold parseSet
  rw [scan_allowed allowed]
  exact (if_pos count).trans filled

theorem parseSet_mismatch (allowed : ∀ c ∈ body text, Allowed c)
    (count : (digits text).length ≠ n) :
    (parseSet text : Query (FixedSet w n)) =
      .error (.error (.lengthMismatch n (digits text).length)) := by
  unfold parseSet
  rw [scan_allowed allowed]
  exact if_neg count

theorem parseSet_stray {before : List Char} {char : Char}
    (stray : Stray Allowed (body text) before char) :
    (parseSet text : Query (FixedSet w n)) =
      .error (.error (.invalidChar char ((lead text).length + before.length))) := by
  unfold parseSet
  rw [scan_stray stray]

theorem parseSet_within {set : FixedSet w n} (ran : parseSet text = .ok set) :
    Span.Within (Container.span (FixedSet.empty : FixedSet w n)) (Container.span set) ∧
      (Container.span set).toList = bitsOf (digits text) := by
  rcases accepted_or_stray Allowed (body text) with allowed | ⟨before, char, stray⟩
  · by_cases count : (digits text).length = n
    · obtain ⟨set', made, within, list⟩ := parseSet_allowed (w := w) text allowed count
      cases ran.symm.trans made
      exact ⟨within, list⟩
    · cases ran.symm.trans (parseSet_mismatch allowed count)
  · cases ran.symm.trans (parseSet_stray stray)

end

end Text

end PackedBits
