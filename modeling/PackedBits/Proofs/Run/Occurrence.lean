import PackedBits.Proofs.Range.Search
import PackedBits.Proofs.Run.Locality

/-! The first occurrence of a pattern. What a search finds is told on lists: the least place at
which the whole pattern is a beginning of what is left of the bits, an empty pattern occurring
nowhere. By what way it was looked for, where the bits begin in their words and which container
holds them make no difference. -/
namespace PackedBits

def Occurs (pattern bits : List Bool) (place : Nat) : Prop :=
  pattern ≠ [] ∧ pattern <+: bits.drop place

instance (pattern bits : List Bool) (place : Nat) : Decidable (Occurs pattern bits place) :=
  inferInstanceAs (Decidable (_ ∧ _))

/-- The least place from `start` on at which a pattern occurs, or none when it occurs at no place
from there on. -/
def FirstOccurrence (pattern bits : List Bool) (start : Nat) : Option Nat → Prop
  | some place => start ≤ place ∧ Occurs pattern bits place ∧
      ∀ other < place, start ≤ other → ¬ Occurs pattern bits other
  | none => ∀ place, start ≤ place → ¬ Occurs pattern bits place

section
variable {pattern bits : List Bool} {start place : Nat}

theorem Occurs.fits (occurs : Occurs pattern bits place) :
    0 < pattern.length ∧ place + pattern.length ≤ bits.length := by
  obtain ⟨nonempty, stands⟩ := occurs
  have positive := List.length_pos_iff.mpr nonempty
  have fits := stands.length_le
  rw [List.length_drop] at fits
  omega

theorem occurs_drop : Occurs pattern (bits.drop start) place ↔ Occurs pattern bits (start + place) := by
  rw [Occurs, Occurs, List.drop_drop]

namespace FirstOccurrence

theorem of_drop {answer : Option Nat} (first : FirstOccurrence pattern (bits.drop start) 0 answer) :
    FirstOccurrence pattern bits start (answer.map (start + ·)) := by
  have moved (other : Nat) (above : start ≤ other) :
      Occurs pattern (bits.drop start) (other - start) ↔ Occurs pattern bits other := by
    rw [occurs_drop, Nat.add_sub_cancel' above]
  cases answer with
  | none =>
      intro other above occurs
      exact first (other - start) (Nat.zero_le _) ((moved other above).mpr occurs)
  | some place =>
      obtain ⟨-, occurs, before⟩ := first
      refine ⟨Nat.le_add_right .., occurs_drop.mp occurs, fun other below above occurs' => ?_⟩
      have within : other < start + place := below
      exact before (other - start) (by omega) (Nat.zero_le _) ((moved other above).mpr occurs')

theorem unique {answer answer' : Option Nat} (first : FirstOccurrence pattern bits start answer)
    (first' : FirstOccurrence pattern bits start answer') : answer = answer' := by
  cases answer with
  | none =>
      cases answer' with
      | none => rfl
      | some place => exact absurd first'.2.1 (first place first'.1)
  | some place =>
      obtain ⟨above, occurs, before⟩ := first
      cases answer' with
      | none => exact absurd occurs (first' place above)
      | some place' =>
          obtain ⟨above', occurs', before'⟩ := first'
          rcases Nat.lt_trichotomy place place' with lower | rfl | upper
          · exact absurd occurs (before' place lower above)
          · rfl
          · exact absurd occurs' (before place' upper above')

theorem none_of_short (short : pattern = [] ∨ bits.length < start + pattern.length) :
    FirstOccurrence pattern bits start none := by
  intro place above occurs
  obtain ⟨positive, fits⟩ := occurs.fits
  rcases short with rfl | short
  · exact absurd positive (Nat.lt_irrefl 0)
  · omega

end FirstOccurrence

end

section
variable {μ : Type} {w : Nat} [Memory μ w] {m : μ} {p q : Cursor w} {n k : Nat}

theorem occurs_runBits {place : Nat} :
    Occurs (runBits m q k) (runBits m p n) place ↔ place + k ≤ n ∧ Stands m p q k place := by
  constructor
  · intro occurs
    obtain ⟨nonempty, fits⟩ := occurs.fits
    rw [length_runBits, length_runBits] at *
    refine ⟨fits, nonempty, fun j below => ?_⟩
    have each := List.prefix_iff_getElem?.mp occurs.2 j (by rwa [length_runBits])
    rw [List.getElem?_drop, getElem?_runBits, if_pos (by omega), ← List.getElem?_eq_getElem,
      getElem?_runBits, if_pos below] at each
    exact Option.some.inj each
  · rintro ⟨fits, nonempty, stands⟩
    refine ⟨fun empty => ?_, List.prefix_iff_getElem?.mpr fun j below => ?_⟩
    · have length := length_runBits m q k
      rw [empty] at length
      exact absurd length (Nat.ne_of_lt nonempty)
    · rw [length_runBits] at below
      rw [List.getElem?_drop, getElem?_runBits, if_pos (by omega), stands j below,
        ← List.getElem?_eq_getElem, getElem?_runBits, if_pos below]

theorem Located.firstOccurrence {found : Nat} (located : Located m p n q k found) :
    FirstOccurrence (runBits m q k) (runBits m p n) 0 (if found = n then none else some found) := by
  have before (place : Nat) (below : place < found) :
      ¬ Occurs (runBits m q k) (runBits m p n) place := by
    rw [occurs_runBits]
    rintro ⟨fits, stands⟩
    exact located.before place below fits stands
  by_cases last : found = n
  · rw [if_pos last]
    intro place _ occurs
    obtain ⟨fits, nonempty, -⟩ := occurs_runBits.mp occurs
    exact before place (by omega) occurs
  · rw [if_neg last]
    exact ⟨Nat.zero_le _, occurs_runBits.mpr (located.here.resolve_left last),
      fun place below _ => before place below⟩

end

namespace Span
variable {w : Nat} [HasBits w] {s : Span w}

theorem runBits_words {m : Buffers w} {buffer : Nat} (words : m.words buffer = s.words)
    (held : s.Held) (start : Nat) :
    runBits m (s.firstIn buffer + start) (s.len - start) = s.toList.drop start := by
  refine List.ext_getElem? fun i => ?_
  rw [getElem?_runBits, List.getElem?_drop, getElem?_toList]
  by_cases below : i < s.len - start
  · rw [if_pos below, if_pos (by omega), bitsAt_forward, bitsAt_words words held (by omega)]
  · rw [if_neg below, if_neg (by omega)]

theorem searchFrom_first {pattern : Span w} (held : s.Held) (heldPattern : pattern.Held)
    (start : Nat) :
    ∃ answer, s.searchFrom pattern start = .ok answer ∧
      FirstOccurrence pattern.toList s.toList start answer := by
  by_cases outside : s.len < start
  · refine ⟨.none, by rw [searchFrom, if_pos outside]; rfl, FirstOccurrence.none_of_short (.inr ?_)⟩
    rw [length_toList]
    omega
  · have words : (s.beside pattern).words 0 = s.words := rfl
    have wordsPattern : (s.beside pattern).words 1 = pattern.words := rfl
    obtain ⟨found, ran, located⟩ := search_located
      ((holds_words words held).part (show start + (s.len - start) ≤ s.len by omega))
      (holds_words wordsPattern heldPattern)
    have first := located.firstOccurrence
    have pattern_bits := runBits_words wordsPattern heldPattern 0
    rw [Cursor.forward_zero, Nat.sub_zero, List.drop_zero] at pattern_bits
    rw [runBits_words words held, pattern_bits] at first
    have answer : s.readBoth pattern (fun m p q =>
        PackedBits.search m (p + start) (s.len - start) q pattern.len) = .ok found := by
      rw [readBoth]
      exact congrArg Query.access ran
    refine ⟨_, ?_, first.of_drop⟩
    rw [searchFrom, if_neg outside, answer]
    by_cases last : found = s.len - start
    · simp only [bind, Except.bind, if_pos last]
      rfl
    · simp only [bind, Except.bind, if_neg last]
      rfl

end Span

/-- A search answers with the least place at which the needle occurs, and with the length of the
run where there is none; so does a search in any container for the bits of another one, from any
place on. -/
theorem searches_find_the_first_occurrence {w : Nat} :
    (∀ {μ : Type} [Memory μ w] (m : μ) (p q : Cursor w) (n k : Nat), Holds m p n → Holds m q k →
      ∃ answer, search m p n q k = some (answer.getD n) ∧
        FirstOccurrence (runBits m q k) (runBits m p n) 0 answer ∧
        (k = 0 ∨ n < k → answer = none)) ∧
    ∀ [HasBits w] (host pattern : Host w) (start : Nat),
      ∃ answer, host.span.searchFrom pattern.span start = .ok answer ∧
        FirstOccurrence pattern.bits host.bits start answer ∧
        (pattern.bits = [] ∨ host.bits.length < start → answer = none) := by
  refine ⟨fun m p q n k hay needle => ?_, fun host pattern start => ?_⟩
  · obtain ⟨found, ran, located⟩ := search_located hay needle
    have first := located.firstOccurrence
    refine ⟨_, ?_, first, fun never => first.unique (.none_of_short ?_)⟩
    · rw [ran]
      by_cases last : found = n
      · rw [if_pos last, last, Option.getD_none]
      · rw [if_neg last, Option.getD_some]
    · rw [length_runBits, length_runBits, Nat.zero_add]
      rcases never with rfl | short
      · exact .inl rfl
      · exact .inr short
  · obtain ⟨answer, ran, first⟩ := Span.searchFrom_first host.held pattern.held start
    refine ⟨answer, ran, first, fun never => first.unique (.none_of_short ?_)⟩
    exact never.imp id fun outside => Nat.lt_of_lt_of_le outside (Nat.le_add_right ..)

/-- At the first candidate the leading word stands and the rest does not; three places on, which is
the period of that word, the needle stands. -/
theorem searches_find_the_first_occurrence_past_a_period :
    let m : Buffers 8 := ⟨#[#[0x20#8, 0x49#8, 0x06#8], #[0x48#8, 0x32#8]]⟩
    let p : Cursor 8 := ⟨0, 0, 5, by decide⟩
    let q : Cursor 8 := ⟨1, 0, 3, by decide⟩
    Holds m p 16 ∧ Holds m q 11 ∧ search m p 16 q 11 = some 3 := by
  intro m p q
  have hay : Holds m p 16 := by decide
  have needle : Holds m q 11 := by decide
  have here : FirstOccurrence (runBits m q 11) (runBits m p 16) 0 (some 3) := by
    show 0 ≤ 3 ∧ Occurs _ _ 3 ∧ ∀ other < 3, 0 ≤ other → ¬ Occurs _ _ other
    decide
  obtain ⟨answer, ran, first, -⟩ := searches_find_the_first_occurrence.1 m p q 16 11 hay needle
  obtain rfl := first.unique here
  exact ⟨hay, needle, ran⟩

end PackedBits
