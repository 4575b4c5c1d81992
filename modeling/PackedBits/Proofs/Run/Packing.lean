import PackedBits.Proofs.BitVector.Order
import PackedBits.Proofs.FixedSet
import PackedBits.Proofs.Run.Action
import PackedBits.Proofs.Run.Locality
import PackedBits.Proofs.Run.SpareBits

/-! Bits given out as words and taken in again. The words given out are in a canonical form, in
which a list of bits has exactly one place for each bit and every other is clear; taking bits in
brings words that end anywhere into this form. So the words of a container and its length tell its
bits, and taking in what was given out makes the same bits again. -/
namespace PackedBits

section
variable {w : Nat}

/-- Words in canonical form: as many as the bits take, holding them in order and no other one. -/
structure Packs (words : Array (BitVec w)) (bits : List Bool) : Prop where
  size : words.size = wordsFor w bits.length
  entry : ∀ k < bits.length, bits[k]? = some (bitIn words k)
  spare : ∀ k, bits.length ≤ k → bitIn words k = false

def clipped (words : Array (BitVec w)) (bits : Nat) : Array (BitVec w) :=
  (FixedSet.ofWords (words.extract 0 (wordsFor w bits)) : FixedSet w bits).words

def leading (words : Array (BitVec w)) (bits : Nat) : List Bool :=
  (⟨words, 0, bits⟩ : Span w).toList

variable {words words' : Array (BitVec w)} {bits bits' : List Bool} {n : Nat}

theorem Packs.words_eq (packs : Packs words bits) (packs' : Packs words' bits) : words = words' := by
  refine ext_bitIn (packs.size.trans packs'.size.symm) fun k _ => ?_
  by_cases below : k < bits.length
  · exact Option.some.inj ((packs.entry k below).symm.trans (packs'.entry k below))
  · rw [packs.spare k (Nat.le_of_not_lt below), packs'.spare k (Nat.le_of_not_lt below)]

theorem Packs.bits_eq (packs : Packs words bits) (packs' : Packs words bits')
    (length : bits.length = bits'.length) : bits = bits' := by
  refine List.ext_getElem? fun k => ?_
  by_cases below : k < bits.length
  · rw [packs.entry k below, packs'.entry k (length ▸ below)]
  · rw [List.getElem?_eq_none (Nat.le_of_not_lt below),
      List.getElem?_eq_none (length ▸ Nat.le_of_not_lt below)]

theorem length_leading (words : Array (BitVec w)) (n : Nat) : (leading words n).length = n :=
  Span.length_toList _

theorem getElem?_leading (words : Array (BitVec w)) (n k : Nat) :
    (leading words n)[k]? = if k < n then some (bitIn words k) else none := by
  rw [leading, Span.getElem?_toList, Span.bit, Nat.zero_add]

theorem Packs.leading_eq (packs : Packs words bits) : leading words bits.length = bits := by
  refine List.ext_getElem? fun k => ?_
  rw [getElem?_leading]
  split
  case isTrue below => exact (packs.entry k below).symm
  case isFalse past => exact (List.getElem?_eq_none (Nat.le_of_not_lt past)).symm

variable [HasBits w]

theorem Packs.room (packs : Packs words bits) : bits.length ≤ words.size * w := by
  rw [packs.size]
  exact le_wordsFor bits.length

theorem clipped_packs (fits : n ≤ words.size * w) : Packs (clipped words n) (leading words n) := by
  have enough : wordsFor w n ≤ words.size := wordsFor_le_iff.mpr fits
  have size : (words.extract 0 (wordsFor w n)).size = wordsFor w n := by
    rw [Array.size_extract, Nat.min_eq_left enough, Nat.sub_zero]
  have bit (k : Nat) : bitIn (clipped words n) k = (decide (k < n) && bitIn words k) := by
    have trimmed : bitIn (clipped words n) k =
        (decide (k < n) && bitIn (words.extract 0 (wordsFor w n)) k) := FixedSet.bitIn_trim size k
    rw [trimmed, bitIn_extract words 0 _ k enough]
    by_cases below : k < n
    · have inside : k < (wordsFor w n - 0) * w := Nat.lt_of_lt_of_le below (le_wordsFor n)
      rw [decide_eq_true below, decide_eq_true inside, Nat.zero_mul, Nat.zero_add]
      rfl
    · rw [decide_eq_false below, Bool.false_and, Bool.false_and]
  refine ⟨?_, fun k below => ?_, fun k past => ?_⟩
  · rw [length_leading]
    exact (FixedSet.size_trim _).trans size
  · rw [length_leading] at below
    rw [getElem?_leading, if_pos below, bit, decide_eq_true below, Bool.true_and]
  · rw [length_leading] at past
    rw [bit, decide_eq_false (Nat.not_lt.mpr past), Bool.false_and]

theorem Span.toWords_packs {s : Span w} (held : s.Held) :
    ∃ words, s.toWords = .ok words ∧ Packs words s.toList := by
  obtain ⟨words, gathered, size, bits⟩ := Span.toWords_eq held
  refine ⟨words, gathered, by rw [size, length_toList], fun k below => ?_, fun k past => ?_⟩
  · rw [length_toList] at below
    rw [getElem?_toList, if_pos below, bits, decide_eq_true below, Bool.true_and]
  · rw [length_toList] at past
    rw [bits, decide_eq_false (Nat.not_lt.mpr past), Bool.false_and]

theorem Span.toWords_eq_iff {s other : Span w} (held : s.Held) (heldOther : other.Held) :
    s.len = other.len ∧ s.toWords = other.toWords ↔ s.toList = other.toList := by
  obtain ⟨words, gathered, packs⟩ := toWords_packs held
  obtain ⟨words', gathered', packs'⟩ := toWords_packs heldOther
  rw [gathered, gathered']
  constructor
  · rintro ⟨len, same⟩
    cases same
    exact packs.bits_eq packs' (by rw [length_toList, length_toList, len])
  · intro same
    rw [← same] at packs'
    exact ⟨Span.len_congr same, congrArg Except.ok (packs.words_eq packs')⟩

end

namespace BitVector
variable {S : Type} {w : Nat} [HasBits w] [Storage S w] [StorageSpec S w]

/-- What taking in the first `bits` bits of words comes to. -/
structure TakesIn (S : Type) {w : Nat} [HasBits w] [Storage S w] [StorageSpec S w]
    (words : Array (BitVec w)) (bits : Nat) (p : Provider) : Prop where
  /-- Words that are too few are reported, and nothing is asked of the provider. -/
  short : words.size * w < bits → (ofWords words bits : Attempt Provider S) p =
    .error (.error (.lengthMismatch bits (min (words.size * w) maxSize))) p
  /-- Otherwise the bits need room, and what prevents it is the failure. -/
  refused {error : Error} : bits ≤ words.size * w →
    Storage.shortage (⟨Storage.empty, p⟩ : Holding S) bits = some error →
    ∃ p', (ofWords words bits : Attempt Provider S) p = .error (.error error) p'
  made : bits ≤ words.size * w → Storage.shortage (⟨Storage.empty, p⟩ : Holding S) bits = none →
    ∃ s p', (ofWords words bits : Attempt Provider S) p = .ok s p' ∧ Storage.len s = bits ∧
      (Container.span s).toList = leading words bits ∧ Storage.words s = clipped words bits ∧
      (Container.span s).toWords = .ok (clipped words bits)
  /-- Unless the provider itself answers so, a length that does not match tells of too few words. -/
  mismatch_iff : (∀ expected actual, Storage.shortage (⟨Storage.empty, p⟩ : Holding S) bits ≠
      some (.lengthMismatch expected actual)) →
    ((∃ expected actual p', (ofWords words bits : Attempt Provider S) p =
      .error (.error (.lengthMismatch expected actual)) p') ↔ words.size * w < bits)

variable [LawfulStorage S w] {policy : Policy} {refusals : Nat} {blocks : List Grant}
  {p : Provider}

theorem tryWithLen_ends (books : Books policy refusals blocks p) (n : Nat) :
    (tryWithLen n false : Attempt Provider S).Ends p
      (fun _ _ => Storage.shortage (⟨Storage.empty, p⟩ : Holding S) n = none)
      fun failure _ => ∃ error, failure = .error error ∧
        Storage.shortage (⟨Storage.empty, p⟩ : Holding S) n = some error := by
  unfold Attempt.Ends tryWithLen build onOwned
  obtain ⟨_, h', ran, -, -, free, -⟩ | ⟨failure, h', ran, stopped⟩ :=
    ((empty_sound (S := S) books).resize_ends n false).ran
  · have resized : (tryResize n false : Attempt (Holding S) Unit) ⟨Storage.empty, p⟩ = _ := ran
    rw [resized]
    exact free
  · have resized : (tryResize n false : Attempt (Holding S) Unit) ⟨Storage.empty, p⟩ = _ := ran
    obtain ⟨_, p', released, -⟩ :=
      (LawfulStorage.release_ends stopped.sound.storage stopped.sound.books).succeeds
    simp only [resized, released]
    exact stopped.cause

omit [Storage S w] [StorageSpec S w] [LawfulStorage S w] in
theorem write_leading_ends {words : Array (BitVec w)} {bits : Nat} {s : Span w}
    (fits : bits ≤ words.size * w) (filled : s.Held)
    (clear : s.toList = List.replicate (leading words bits).length false) :
    (Span.writeBeside ⟨words, 0, bits⟩ fun m p q =>
      (copy m q bits p).map fun (m, _) => (m, ())).Ends s
      (fun _ s' => Span.Within s s' ∧ s'.toList = leading words bits) fun _ _ => False := by
  have held : (⟨words, 0, bits⟩ : Span w).Held := by
    rw [Span.Held, Nat.zero_add]
    exact fits
  have length : s.len = bits := by
    rw [← Span.length_toList, clear, List.length_replicate, length_leading]
  have copied := Span.copy_over_ends filled held (show 0 + bits ≤ bits by omega) length
  simp only [Cursor.forward_zero] at copied
  refine copied.imp ?_ fun _ _ => id
  rintro - s' ⟨within, list⟩
  have whole := List.take_of_length_le (Nat.le_of_eq (length_leading words bits))
  exact ⟨within, list.trans whole⟩

theorem ofWords_makesBits {words : Array (BitVec w)} {bits : Nat}
    (books : Books policy refusals blocks p) (fits : bits ≤ words.size * w)
    (small : bits ≤ maxSize) :
    MakesBits (ofWords words bits : Attempt Provider S) (leading words bits) p := by
  have enough : ¬ min (words.size * w) maxSize < bits :=
    Nat.not_lt.mpr (Nat.le_min.mpr ⟨fits, small⟩)
  have made := makesBits_of_done (S := S) books fun _ => write_leading_ends fits
  rw [length_leading] at made
  rw [ofWords, if_neg enough]
  exact made

theorem words_packs {s : S} (sound : StorageSpec.Sound s) :
    Packs (Storage.words s) (Container.span s).toList := by
  refine ⟨?_, fun k below => ?_, fun k past => ?_⟩
  · rw [Span.length_toList, LawfulStorage.len_span, LawfulStorage.words_size sound]
  · rw [Span.length_toList, LawfulStorage.len_span] at below
    rw [Storage.getElem?_list, if_pos below, LawfulStorage.words_bit sound, decide_eq_true below,
      Bool.true_and]
  · rw [Span.length_toList, LawfulStorage.len_span] at past
    rw [LawfulStorage.words_bit sound, decide_eq_false (Nat.not_lt.mpr past), Bool.false_and]

theorem takesIn (books : Books policy refusals blocks p) (words : Array (BitVec w)) {bits : Nat}
    (small : bits ≤ maxSize) : TakesIn S words bits p := by
  have short (few : words.size * w < bits) : (ofWords words bits : Attempt Provider S) p =
      .error (.error (.lengthMismatch bits (min (words.size * w) maxSize))) p := by
    have less : min (words.size * w) maxSize < bits := Nat.lt_of_le_of_lt (Nat.min_le_left ..) few
    rw [ofWords, if_pos less]
    rfl
  have refused {error : Error} (fits : bits ≤ words.size * w)
      (cause : Storage.shortage (⟨Storage.empty, p⟩ : Holding S) bits = some error) :
      ∃ p', (ofWords words bits : Attempt Provider S) p = .error (.error error) p' := by
    have makes := ofWords_makesBits (S := S) books fits small
    obtain ⟨_, _, -, free⟩ | ⟨failure, p', ran, error', rfl, same⟩ :=
      (tryWithLen_ends (S := S) books bits).ran
    · rw [cause] at free
      cases free
    · cases cause.symm.trans same
      exact ⟨p', makes.refused (by rw [length_leading]; exact ran)⟩
  have made (fits : bits ≤ words.size * w)
      (free : Storage.shortage (⟨Storage.empty, p⟩ : Holding S) bits = none) :
      ∃ s p', (ofWords words bits : Attempt Provider S) p = .ok s p' ∧ Storage.len s = bits ∧
        (Container.span s).toList = leading words bits ∧ Storage.words s = clipped words bits ∧
        (Container.span s).toWords = .ok (clipped words bits) := by
    have makes := ofWords_makesBits (S := S) books fits small
    obtain ⟨_, p', ran, -⟩ | ⟨_, _, -, _, -, cause⟩ := (tryWithLen_ends (S := S) books bits).ran
    · obtain ⟨s, taken, list⟩ := makes.done (by rw [length_leading]; exact ran)
      have holding := ((ofWords_makes words bits).made books taken).holding
      have packs := words_packs holding.storage
      rw [list] at packs
      have used : Storage.words s = clipped words bits := packs.words_eq (clipped_packs fits)
      refine ⟨s, p', taken, ?_, list, used, used ▸ holding.toWords_eq⟩
      rw [← LawfulStorage.len_span, ← Span.length_toList, list, length_leading]
    · rw [free] at cause
      cases cause
  refine ⟨short, refused, made, fun otherwise => ⟨?_, fun few => ⟨_, _, p, short few⟩⟩⟩
  rintro ⟨expected, actual, p', ran⟩
  refine Nat.lt_of_not_le fun fits => ?_
  -- Enough words lead to a vector or to a reason that is another one.
  cases cause : Storage.shortage (⟨Storage.empty, p⟩ : Holding S) bits with
  | none =>
      obtain ⟨_, _, taken, -⟩ := made fits cause
      cases ran.symm.trans taken
  | some error =>
      obtain ⟨_, failed⟩ := refused fits cause
      cases ran.symm.trans failed
      exact otherwise expected actual cause

end BitVector

/-- What a container gives out, what becomes of it when it is taken in again, and how it compares to
what another container gives out. -/
structure Host.GivesOut (S : Type) {w : Nat} [HasBits w] [Storage S w] [StorageSpec S w]
    (host other : Host w) (p : Provider) : Prop where
  words : ∃ words, host.span.toWords = .ok words ∧ Packs words host.bits ∧
    (Storage.shortage (⟨Storage.empty, p⟩ : Holding S) host.span.len = none →
      ∃ s p', (BitVector.ofWords words host.span.len : Attempt Provider S) p = .ok s p' ∧
        (Container.span s).toList = host.bits ∧ Storage.words s = words)
  equal : ∃ answer, host.span.bitsEq other.span = .ok answer ∧
    (answer = true ↔
      host.span.len = other.span.len ∧ host.span.toWords = other.span.toWords)

namespace Host
variable {S : Type} {w : Nat} [HasBits w] [Storage S w] [StorageSpec S w] [LawfulStorage S w]
  {policy : Policy} {refusals : Nat} {blocks : List Grant} {p : Provider}

theorem givesOut (books : Books policy refusals blocks p) (host other : Host w) :
    GivesOut S host other p := by
  constructor
  · obtain ⟨words, gathered, packs⟩ := Span.toWords_packs host.held
    refine ⟨words, gathered, packs, fun free => ?_⟩
    have length : host.bits.length = host.span.len := Span.length_toList _
    have small : host.span.len ≤ maxSize := by
      have limit : Storage.maxBits S < maxSize := LawfulStorage.maxBits_lt
      refine Nat.le_of_not_lt fun above => ?_
      rw [Storage.shortage, if_pos (Nat.lt_trans limit above)] at free
      cases free
    obtain ⟨s, p', taken, -, list, used, -⟩ :=
      (BitVector.takesIn books words small).made (length ▸ packs.room) free
    have whole : leading words host.span.len = host.bits := by
      rw [← length]
      exact packs.leading_eq
    have canonical : Packs (clipped words host.span.len) host.bits :=
      whole ▸ clipped_packs (length ▸ packs.room)
    exact ⟨s, p', taken, list.trans whole, used.trans (canonical.words_eq packs)⟩
  · refine ⟨_, Span.bitsEq_eq host.held other.held, ?_⟩
    rw [decide_eq_true_iff]
    exact (Span.toWords_eq_iff host.held other.held).symm

end Host

/-- Between any containers and on every storage, whatever has been done before. -/
theorem words_carry_bits (b : Backend) {policy : Policy} (lawful : policy.Lawful)
    (actions : List (Action b.width)) (host other : Host b.width)
    (words : Array (BitVec b.width)) {bits : Nat} (small : bits ≤ maxSize) :
    let pool : Pool b.Carrier := (Action.run actions (Action.start policy)).2
    Host.GivesOut b.Carrier host other pool.provider ∧
      BitVector.TakesIn b.Carrier words bits pool.provider := by
  intro pool
  have sound : pool.Sound policy 0 [] := Action.reached_sound (S := b.Carrier) lawful actions
  exact ⟨host.givesOut sound.books other, BitVector.takesIn sound.books words small⟩

/-- Ten bits of two bytes, and seven bits across the end of a byte. -/
theorem words_carry_bits_across_bytes :
    let pool : Pool (Backend.plain 8 (by decide)).Carrier :=
      (Action.run [] (Action.start (Policy.pages 1))).2
    let across : Host 8 := .slice ⟨#[0xA5#8, 0x5A#8], 5, 7⟩ (show 5 + 7 ≤ 2 * 8 by decide)
    let viewed : Host 8 := .view ⟨#[0xD5#8], 7⟩ (by decide)
    (Policy.pages 1).Lawful ∧ 10 ≤ maxSize ∧
      (∃ s p', (BitVector.ofWords #[0xAF#8, 0xFF#8] 10 : Attempt Provider (Plain 8)) pool.provider =
        .ok s p' ∧ Storage.words s = #[0xAF#8, 0x03#8]) ∧
      ∃ answer, across.span.bitsEq viewed.span = .ok answer ∧
        (answer = true ↔ 7 = 7 ∧ across.span.toWords = viewed.span.toWords) := by
  intro pool across viewed
  have lawful : (Policy.pages 1).Lawful := Policy.pages_lawful (by decide)
  have small : 10 ≤ maxSize := by decide
  obtain ⟨givesOut, takesIn⟩ := words_carry_bits (.plain 8 (by decide)) lawful [] across viewed
    #[0xAF#8, 0xFF#8] small
  obtain ⟨s, p', taken, -, -, used, -⟩ := takesIn.made (by decide) rfl
  exact ⟨lawful, small, ⟨s, p', taken, used⟩, givesOut.equal⟩

end PackedBits
