import Mathlib.Algebra.Group.Nat.Defs
import PackedBits.Storage.Basic

/-! Arrays of words as runs of bits. Bit `k` of an array is bit `k % w` of word `k / w`, and clear
past the end; an array is its size and its bits. What the word counts, extracts and overwritten
blocks of a storage hold is said here once, in those terms. -/
namespace PackedBits
variable {w : Nat}

/-- Bit `k` of an array of words, counted from the lowest bit of the first. -/
def bitIn (words : Array (BitVec w)) (k : Nat) : Bool := (words.getD (k / w) 0#w).getLsbD (k % w)

theorem bitIn_of_le (words : Array (BitVec w)) {k : Nat} (past : words.size * w ≤ k) :
    bitIn words k = false := by
  by_cases positive : 0 < w
  · have outside : ¬ k / w < words.size := by
      rw [Nat.div_lt_iff_lt_mul positive]
      omega
    simp [bitIn, Array.getD_eq_getD_getElem?, outside]
  · exact BitVec.getLsbD_of_ge _ _ (by omega)

theorem bitIn_word (words : Array (BitVec w)) {word bit : Nat} (below : bit < w) :
    bitIn words (word * w + bit) = (words.getD word 0#w).getLsbD bit := by
  have positive : 0 < w := by omega
  rw [bitIn, Nat.add_comm, Nat.add_mul_div_right _ _ positive, Nat.add_mul_mod_self_right,
    Nat.div_eq_of_lt below, Nat.mod_eq_of_lt below, Nat.zero_add]

theorem bitIn_first (words : Array (BitVec w)) {bit : Nat} (below : bit < w) :
    bitIn words bit = (words.getD 0 0#w).getLsbD bit := by
  have split : bitIn words (0 * w + bit) = _ := bitIn_word words below
  rwa [Nat.zero_mul, Nat.zero_add] at split

theorem ext_bitIn {a b : Array (BitVec w)} (size : a.size = b.size)
    (bits : ∀ k < a.size * w, bitIn a k = bitIn b k) : a = b := by
  refine Array.ext size fun i left right => BitVec.eq_of_getLsbD_eq fun j below => ?_
  have inside : i * w + j < a.size * w := by
    have := Nat.mul_le_mul_right w (Nat.succ_le_of_lt left)
    rw [Nat.succ_mul] at this
    omega
  have same := bits (i * w + j) inside
  rw [bitIn_word a below, bitIn_word b below] at same
  simpa [Array.getD_eq_getD_getElem?, left, right] using same

theorem bitIn_replicate (n k : Nat) : bitIn (Array.replicate n 0#w) k = false := by
  rw [bitIn, Array.getD_eq_getD_getElem?, Array.getElem?_replicate]
  split <;> simp

theorem bitIn_extract (words : Array (BitVec w)) (start stop k : Nat) (room : stop ≤ words.size) :
    bitIn (words.extract start stop) k =
      (decide (k < (stop - start) * w) && bitIn words (start * w + k)) := by
  by_cases positive : 0 < w
  · by_cases inside : k < (stop - start) * w
    · have word := (Nat.div_lt_iff_lt_mul positive).mpr inside
      rw [bitIn, bitIn, Nat.add_comm (start * w), Nat.add_mul_div_right _ _ positive,
        Nat.add_mul_mod_self_right, Array.getD_eq_getD_getElem?, Array.getD_eq_getD_getElem?,
        Array.getElem?_extract]
      simp [inside, Nat.min_eq_left room, show k / w < stop - start from word, Nat.add_comm]
    · rw [bitIn_of_le]
      · simp [inside]
      · rw [Array.size_extract, Nat.min_eq_left room]
        omega
  · have none : w = 0 := by omega
    subst none
    rw [bitIn, BitVec.getLsbD_of_ge _ _ (Nat.zero_le _)]
    simp

section Counts
variable [HasBits w]

theorem width_pos : 0 < w := Nat.pos_of_neZero w

theorem wordsFor_le_iff {bits count : Nat} : wordsFor w bits ≤ count ↔ bits ≤ count * w := by
  have positive : 0 < w := width_pos
  rw [wordsFor, Nat.le_iff_lt_add_one, Nat.div_lt_iff_lt_mul positive, Nat.add_mul]
  omega

theorem le_wordsFor (bits : Nat) : bits ≤ wordsFor w bits * w :=
  wordsFor_le_iff.mp (Nat.le_refl _)

theorem wordsFor_le (bits : Nat) : wordsFor w bits ≤ bits :=
  wordsFor_le_iff.mpr (Nat.le_mul_of_pos_right bits width_pos)

omit [HasBits w] in
theorem wordsFor_mul_le (bits : Nat) : wordsFor w bits * w ≤ bits + (w - 1) :=
  Nat.div_mul_le_self ..

theorem wordsFor_eq_zero {bits : Nat} : wordsFor w bits = 0 ↔ bits = 0 := by
  rw [← Nat.le_zero, wordsFor_le_iff, Nat.zero_mul, Nat.le_zero]

theorem wordsFor_pos {bits : Nat} (some : 0 < bits) : 0 < wordsFor w bits :=
  Nat.pos_of_ne_zero fun none => Nat.ne_of_gt some (wordsFor_eq_zero.mp none)

theorem wordsFor_mono {a b : Nat} (le : a ≤ b) : wordsFor w a ≤ wordsFor w b :=
  wordsFor_le_iff.mpr (Nat.le_trans le (le_wordsFor b))

theorem wordsFor_mul (count : Nat) : wordsFor w (count * w) = count := by
  refine Nat.le_antisymm (wordsFor_le_iff.mpr (Nat.le_refl _)) ?_
  exact Nat.le_of_mul_le_mul_right (le_wordsFor (count * w)) width_pos

theorem wordsFor_of_mod_eq_zero {bits : Nat} (whole : bits % w = 0) : wordsFor w bits = bits / w := by
  conv => lhs; rw [← Nat.div_mul_cancel (Nat.dvd_of_mod_eq_zero whole)]
  exact wordsFor_mul (bits / w)

theorem wordsFor_add {bits more : Nat} (whole : bits % w = 0) (some : 0 < more) (small : more ≤ w) :
    wordsFor w (bits + more) = wordsFor w bits + 1 := by
  have filled : wordsFor w bits * w = bits := by
    rw [wordsFor_of_mod_eq_zero whole, Nat.div_mul_cancel (Nat.dvd_of_mod_eq_zero whole)]
  have enough : wordsFor w (bits + more) ≤ wordsFor w bits + 1 :=
    wordsFor_le_iff.mpr (by rw [Nat.add_mul]; omega)
  refine Nat.le_antisymm enough (Nat.lt_of_not_le fun fewer => ?_)
  have covered := wordsFor_le_iff.mp fewer
  omega

end Counts

@[simp] theorem size_overwrite (block : Array (BitVec w)) (index : Nat)
    (words : Array (BitVec w)) : (overwrite block index words).size = block.size := by
  rw [overwrite]
  generalize List.range words.size = places
  induction places generalizing block with
  | nil => rfl
  | cons i rest ih =>
      rw [List.foldl_cons, ih]
      exact Array.size_setIfInBounds

theorem getElem?_overwrite_places (words : Array (BitVec w)) (index j : Nat) (places : List Nat)
    (block : Array (BitVec w)) :
    (places.foldl (fun block i => block.setIfInBounds (index + i) (words.getD i 0#w)) block)[j]? =
      if index ≤ j ∧ j - index ∈ places ∧ j < block.size then some (words.getD (j - index) 0#w)
      else block[j]? := by
  induction places generalizing block with
  | nil => simp
  | cons i rest ih =>
      rw [List.foldl_cons, ih, Array.size_setIfInBounds]
      by_cases later : index ≤ j ∧ j - index ∈ rest ∧ j < block.size
      · rw [if_pos later, if_pos ⟨later.1, List.mem_cons_of_mem _ later.2.1, later.2.2⟩]
      · rw [if_neg later, Array.getElem?_setIfInBounds]
        by_cases here : index + i = j
        · subst here
          by_cases inside : index + i < block.size
          · rw [if_pos rfl, if_pos inside, if_pos ⟨by omega, by simp, inside⟩,
              Nat.add_sub_cancel_left]
          · rw [if_pos rfl, if_neg inside, if_neg (fun both => inside both.2.2),
              Array.getElem?_eq_none (by omega)]
        · rw [if_neg here, if_neg]
          rintro ⟨reached, member, inside⟩
          rcases List.mem_cons.mp member with first | other
          · omega
          · exact later ⟨reached, other, inside⟩

theorem getD_overwrite (block : Array (BitVec w)) (index : Nat) (words : Array (BitVec w))
    (room : index + words.size ≤ block.size) (j : Nat) :
    (overwrite block index words).getD j 0#w =
      if index ≤ j ∧ j < index + words.size then words.getD (j - index) 0#w
      else block.getD j 0#w := by
  rw [Array.getD_eq_getD_getElem?, overwrite, getElem?_overwrite_places]
  simp only [List.mem_range]
  by_cases inside : index ≤ j ∧ j < index + words.size
  · rw [if_pos ⟨inside.1, by omega, by omega⟩, if_pos inside]
    rfl
  · rw [if_neg (fun all => inside ⟨all.1, by omega⟩), if_neg inside, Array.getD_eq_getD_getElem?]

theorem getD_overwrite_before (block : Array (BitVec w)) (words : Array (BitVec w)) {index j : Nat}
    (before : j < index) : (overwrite block index words).getD j 0#w = block.getD j 0#w := by
  rw [Array.getD_eq_getD_getElem?, overwrite, getElem?_overwrite_places, if_neg (by omega),
    Array.getD_eq_getD_getElem?]

theorem bitIn_overwrite (block : Array (BitVec w)) (index : Nat) (words : Array (BitVec w))
    (room : index + words.size ≤ block.size) (k : Nat) :
    bitIn (overwrite block index words) k =
      if index * w ≤ k ∧ k < (index + words.size) * w then bitIn words (k - index * w)
      else bitIn block k := by
  by_cases positive : 0 < w
  · rw [bitIn, getD_overwrite block index words room]
    simp only [Nat.le_div_iff_mul_le positive, Nat.div_lt_iff_lt_mul positive]
    split
    case isTrue inside =>
      obtain ⟨rest, rfl⟩ := Nat.exists_eq_add_of_le inside.1
      rw [Nat.add_sub_cancel_left, bitIn, Nat.add_comm (index * w),
        Nat.add_mul_div_right _ _ positive, Nat.add_mul_mod_self_right, Nat.add_sub_cancel]
    case isFalse => rfl
  · have none : w = 0 := by omega
    subst none
    rw [bitIn, BitVec.getLsbD_of_ge _ _ (Nat.zero_le _)]
    simp only [bitIn, BitVec.getLsbD_of_ge _ _ (Nat.zero_le _), ite_self]

@[simp] theorem size_freshBlock (capacity : Nat) (words : Array (BitVec w)) :
    (freshBlock capacity words).size = capacity := by
  rw [freshBlock, size_overwrite, Array.size_replicate]

theorem bitIn_freshBlock (capacity : Nat) (words : Array (BitVec w)) (room : words.size ≤ capacity)
    (k : Nat) : bitIn (freshBlock capacity words) k = bitIn words k := by
  rw [freshBlock, bitIn_overwrite _ _ _ (by simpa using room), Nat.zero_mul, Nat.zero_add]
  split
  case isTrue => rw [Nat.sub_zero]
  case isFalse outside => rw [bitIn_replicate, bitIn_of_le words (by omega)]

end PackedBits
