import Mathlib.Data.Nat.BitIndices
import Mathlib.Order.Bounds.Basic
import PackedBits.Proofs.Range.Enumeration

/-! Numbers of equal weight. A number below a power of two is the list of its bits with the first one
on top: numbers are ordered as these lists are and have equal weight when the lists are
rearrangements of each other. So the arithmetic step on a word, which takes the step of the list,
leads to the least number of the weight above. On its way nothing wraps around. -/
namespace PackedBits

def weight (number : Nat) : Nat := number.bitIndices.length

/-- The low `n` bits of a number, the most significant one first. -/
def topBits (n number : Nat) : List Bool := (List.range n).map fun i => number.testBit (n - 1 - i)

section
variable {n a b : Nat}

theorem topBits_succ (n number : Nat) :
    topBits (n + 1) number = number.testBit n :: topBits n number := by
  rw [topBits, List.range_succ_eq_map, List.map_cons, List.map_map, topBits]
  refine congrArg _ (List.map_congr_left fun i _ => ?_)
  rw [Function.comp_apply, show n + 1 - 1 - (i + 1) = n - 1 - i by omega]

theorem length_topBits (n number : Nat) : (topBits n number).length = n := by
  rw [topBits, List.length_map, List.length_range]

theorem topBits_lt_iff_mod (n a b : Nat) :
    topBits n a < topBits n b ↔ a % 2 ^ n < b % 2 ^ n := by
  induction n with
  | zero => simp [topBits, Nat.mod_one]
  | succ n ih =>
      have split (number : Nat) : number % 2 ^ (n + 1) =
          number % 2 ^ n + 2 ^ n * (number.testBit n).toNat := by
        rw [Nat.mod_pow_succ, Nat.toNat_testBit]
      have lowA := Nat.mod_lt a (Nat.two_pow_pos n)
      have lowB := Nat.mod_lt b (Nat.two_pow_pos n)
      rw [topBits_succ, topBits_succ, List.cons_lt_cons_iff, ih, split, split]
      cases a.testBit n <;> cases b.testBit n <;> simp [Bool.lt_iff] <;> omega

theorem topBits_lt_iff (smallA : a < 2 ^ n) (smallB : b < 2 ^ n) :
    topBits n a < topBits n b ↔ a < b := by
  rw [topBits_lt_iff_mod, Nat.mod_eq_of_lt smallA, Nat.mod_eq_of_lt smallB]

theorem count_topBits (n number : Nat) :
    (topBits n number).count true = (List.range n).countP number.testBit := by
  induction n with
  | zero => rfl
  | succ n ih =>
      rw [topBits_succ, List.count_cons, ih, List.range_succ, List.countP_append,
        List.countP_singleton]
      cases number.testBit n <;> rfl

theorem count_topBits_of_lt (small : a < 2 ^ n) : (topBits n a).count true = weight a := by
  rw [count_topBits, List.countP_eq_length_filter, weight]
  refine List.Perm.length_eq ((List.perm_ext_iff_of_nodup ?_ Nat.bitIndices_nodup).mpr fun i => ?_)
  · exact List.nodup_range.filter _
  · rw [List.mem_filter, List.mem_range, Nat.mem_bitIndices]
    refine and_iff_right_of_imp fun set => Nat.lt_of_not_le fun past => ?_
    rw [Nat.testBit_lt_two_pow (Nat.lt_of_lt_of_le small (Nat.pow_le_pow_right Nat.two_pos past))]
      at set
    cases set

theorem topBits_perm_iff (smallA : a < 2 ^ n) (smallB : b < 2 ^ n) :
    (topBits n a).Perm (topBits n b) ↔ weight a = weight b := by
  rw [perm_iff_length_count, length_topBits, length_topBits, count_topBits_of_lt smallA,
    count_topBits_of_lt smallB, and_iff_right rfl]

end

variable {w n : Nat} {v next : BitVec w}

def sameWeightAbove (number : Nat) : Set Nat := {m | number < m ∧ weight m = weight number}

/-- Neither the subtractions of the step from a word go below zero nor its addition and its shift past
the width. -/
structure StaysInWord (v : BitVec w) : Prop where
  lowest : 1 ≤ v.toNat
  carry : (v ||| (v - 1#w)).toNat + 1 < 2 ^ w
  released : 1 ≤ (~~~(v ||| (v - 1#w)) &&& ((v ||| (v - 1#w)) + 1#w)).toNat
  shift : trailingZeros v + 1 < w

/-- The step on numbers of any size, with a shift of any length. -/
def sameWeightNumber (w v zeros : Nat) : Nat :=
  let filled := v ||| (v - 1)
  let carried := filled + 1
  carried ||| (((2 ^ w - 1 - filled) &&& carried) - 1) >>> (zeros + 1)

theorem one_le_of_set {word : BitVec w} {i : Nat} (set : word.getLsbD i = true) :
    1 ≤ word.toNat := by
  rw [Nat.one_le_iff_ne_zero]
  intro zero
  rw [← BitVec.testBit_toNat, zero, Nat.zero_testBit] at set
  cases set

theorem succ_lt_of_clear {word : BitVec w} {i : Nat} (inside : i < w)
    (clear : word.getLsbD i = false) : word.toNat + 1 < 2 ^ w := by
  refine Nat.lt_of_le_of_ne word.isLt fun full => ?_
  have all : word = BitVec.allOnes w := BitVec.eq_of_toNat_eq (by
    rw [BitVec.toNat_allOnes]
    omega)
  rw [all, BitVec.getLsbD_allOnes, decide_eq_true inside] at clear
  cases clear

theorem LowestRun.staysInWord {low high : Nat} (shape : LowestRun v low high) : StaysInWord v where
  lowest := one_le_of_set shape.set
  carry := by
    refine succ_lt_of_clear shape.inside ?_
    rw [shape.filled shape.inside, shape.clear, decide_eq_false (Nat.lt_irrefl high), Bool.or_false]
  released := by
    refine one_le_of_set (i := high) ?_
    rw [shape.single shape.inside, decide_eq_true rfl]
  shift := by
    rw [trailingZeros_eq shape.below shape.set]
    exact Nat.lt_of_le_of_lt shape.order shape.inside

theorem StaysInWord.toNat_next (stays : StaysInWord v) (found : nextSameWeight v n = some next) :
    next.toNat = sameWeightNumber w v.toNat (trailingZeros v) := by
  rw [nextSameWeight] at found
  split at found
  case isTrue => cases found
  case isFalse =>
    obtain rfl := Option.some.inj found
    have one : (1#w).toNat = 1 := by simp [Nat.lt_of_le_of_lt (Nat.zero_le _) stays.shift]
    have below : (v - 1#w).toNat = v.toNat - 1 := by
      rw [BitVec.toNat_sub_of_le (by rw [BitVec.le_def, one]; exact stays.lowest), one]
    have carried : ((v ||| (v - 1#w)) + 1#w).toNat = (v.toNat ||| (v.toNat - 1)) + 1 := by
      rw [BitVec.toNat_add_of_lt (by rw [one]; exact stays.carry), one, BitVec.toNat_or, below]
    have released : ((~~~(v ||| (v - 1#w)) &&& ((v ||| (v - 1#w)) + 1#w)) - 1#w).toNat =
        ((2 ^ w - 1 - (v.toNat ||| (v.toNat - 1))) &&& ((v.toNat ||| (v.toNat - 1)) + 1)) - 1 := by
      rw [BitVec.toNat_sub_of_le (by rw [BitVec.le_def, one]; exact stays.released), one,
        BitVec.toNat_and, BitVec.toNat_not, carried, BitVec.toNat_or, below]
    rw [shiftRight?, if_pos stays.shift, Option.getD_some, BitVec.toNat_or, BitVec.toNat_ushiftRight,
      carried, released]
    rfl

theorem getLsbD_topBits (small : v.toNat < 2 ^ n) (i : Nat) : v.getLsbD i =
    (decide (i < n) && (v.toNat.testBit (n - 1 - (n - 1 - i)) ^^ false)) := by
  rw [← BitVec.testBit_toNat, Bool.xor_false]
  by_cases below : i < n
  · rw [decide_eq_true below, Bool.true_and, show n - 1 - (n - 1 - i) = i by omega]
  · rw [decide_eq_false below, Bool.false_and]
    refine Nat.testBit_lt_two_pow (Nat.lt_of_lt_of_le small ?_)
    exact Nat.pow_le_pow_right Nat.two_pos (Nat.le_of_not_lt below)

theorem exists_lowestRun (small : n ≤ w) (fits : v.toNat < 2 ^ n)
    (found : nextSameWeight v n = some next) :
    ∃ low high, high < n ∧ LowestRun v low high := by
  have number := getLsbD_topBits fits
  rcases turning_cases (fun i => v.toNat.testBit (n - 1 - i)) false n with
    ⟨bigs, within, front, back⟩ | ⟨pivot, last, order, inside, here, between, after⟩
  · obtain ⟨none, -⟩ :=
      nextSameWeight_of_top (Nat.sub_le n bigs) small (top_of_last number front back)
    rw [none] at found
    cases found
  · exact ⟨_, _, by omega, lowestRun_of_pivot number small order inside here between after⟩

theorem nextSameWeight_lt (small : n ≤ w) (fits : v.toNat < 2 ^ n)
    (found : nextSameWeight v n = some next) : next.toNat < 2 ^ n := by
  obtain ⟨low, high, inside, shape⟩ := exists_lowestRun small fits found
  obtain ⟨stepped, same, bits⟩ := shape.nextSameWeight inside
  obtain rfl : stepped = next := Option.some.inj (same.symm.trans found)
  refine Nat.lt_pow_two_of_testBit _ fun i past => ?_
  rw [BitVec.testBit_toNat]
  by_cases inWord : i < w
  · rw [bits i inWord, if_neg (by omega), if_neg (by omega), getLsbD_topBits fits,
      decide_eq_false (by omega), Bool.false_and]
  · exact BitVec.getLsbD_of_ge _ _ (by omega)

theorem topBits_leadsTo (small : n ≤ w) (fits : v.toNat < 2 ^ n) :
    LeadsTo (Precedes false) (topBits n v.toNat)
      (topBits n ((nextSameWeight v n).getD (lowestWithWeight w (countOnes v))).toNat)
      (nextSameWeight v n).isSome := by
  have leads := neighbour_leadsTo false (topBits n v.toNat)
  rw [topBits, neighbour_of_number (getLsbD_topBits fits) small] at leads
  simpa only [topBits, BitVec.testBit_toNat, Bool.xor_false] using leads

theorem isLeast_of_next (small : n ≤ w) (fits : v.toNat < 2 ^ n)
    (found : nextSameWeight v n = some next) : IsLeast (sameWeightAbove v.toNat) next.toNat := by
  have leads := topBits_leadsTo small fits
  have below := nextSameWeight_lt small fits found
  rw [found, Option.getD_some, Option.isSome_some] at leads
  obtain ⟨after, nearest⟩ := leads.next rfl
  refine ⟨⟨(topBits_lt_iff fits below).mp after,
    (topBits_perm_iff below fits).mp leads.arrangement⟩, fun m member => ?_⟩
  obtain ⟨above, same⟩ := member
  refine Nat.le_of_not_lt fun between => ?_
  have fitsM := Nat.lt_trans between below
  have perm := (topBits_perm_iff fitsM fits).mpr same
  have before : Precedes false (topBits n v.toNat) (topBits n m) :=
    (topBits_lt_iff fits fitsM).mpr above
  exact nearest _ perm before ((topBits_lt_iff fitsM below).mpr between)

theorem none_above_of_last (small : n ≤ w) (fits : v.toNat < 2 ^ n)
    (last : nextSameWeight v n = none) : ∀ m ∈ sameWeightAbove v.toNat, 2 ^ n ≤ m := by
  have leads := topBits_leadsTo small fits
  rw [last, Option.isSome_none] at leads
  rintro m ⟨above, same⟩
  refine Nat.le_of_not_lt fun fitsM => ?_
  have further := leads.answer.mpr
    ⟨topBits n m, (topBits_perm_iff fitsM fits).mpr same, (topBits_lt_iff fits fitsM).mpr above⟩
  cases further

/-- The step of a word of `n` bits has a result exactly when a number of these bits above it has as
many set bits, and the result is then the least of all such numbers. In that case none of its
operations wraps around and its shift is one that a word can make, so it is the step on numbers. -/
theorem same_weight_step_is_the_least_above (v : BitVec w) (small : n ≤ w)
    (fits : v.toNat < 2 ^ n) :
    (∀ next, nextSameWeight v n = some next ↔
      next.toNat < 2 ^ n ∧ IsLeast (sameWeightAbove v.toNat) next.toNat) ∧
    (nextSameWeight v n = none ↔ ∀ m ∈ sameWeightAbove v.toNat, 2 ^ n ≤ m) ∧
    ∀ next, nextSameWeight v n = some next →
      StaysInWord v ∧ next.toNat = sameWeightNumber w v.toNat (trailingZeros v) := by
  refine ⟨fun next => ⟨fun found => ?_, ?_⟩, ⟨none_above_of_last small fits, fun past => ?_⟩,
    fun next found => ?_⟩
  · exact ⟨nextSameWeight_lt small fits found, isLeast_of_next small fits found⟩
  · rintro ⟨below, least⟩
    cases found : nextSameWeight v n with
    | none =>
        have past := none_above_of_last small fits found _ least.1
        omega
    | some other =>
        have same := (isLeast_of_next small fits found).unique least
        rw [BitVec.eq_of_toNat_eq same]
  · cases found : nextSameWeight v n with
    | none => rfl
    | some next =>
        have below := nextSameWeight_lt small fits found
        have above := past _ (isLeast_of_next small fits found).1
        omega
  · obtain ⟨low, high, -, shape⟩ := exists_lowestRun small fits found
    exact ⟨shape.staysInWord, shape.staysInWord.toNat_next found⟩

/-- The whole of a byte: a run inside is stepped, a run at the top has nowhere to go. -/
theorem same_weight_step_is_the_least_above_in_a_byte :
    8 ≤ 8 ∧ (0x6C#8).toNat < 2 ^ 8 ∧ (0xF0#8).toNat < 2 ^ 8 ∧
      IsLeast (sameWeightAbove 0x6C) 0x71 ∧ (0x6C ||| 0x6B) + 1 < 2 ^ 8 ∧
      ∀ m ∈ sameWeightAbove 0xF0, 2 ^ 8 ≤ m := by
  have fits : (0x6C#8).toNat < 2 ^ 8 := by decide
  have fitsTop : (0xF0#8).toNat < 2 ^ 8 := by decide
  obtain ⟨steps, -, stays⟩ := same_weight_step_is_the_least_above 0x6C#8 (Nat.le_refl 8) fits
  obtain ⟨-, ends, -⟩ := same_weight_step_is_the_least_above 0xF0#8 (Nat.le_refl 8) fitsTop
  have zeros : trailingZeros 0x6C#8 = 2 := trailingZeros_eq (by decide) (by decide)
  have found : nextSameWeight 0x6C#8 8 = some 0x71#8 := by
    rw [nextSameWeight, zeros]
    decide
  exact ⟨Nat.le_refl 8, fits, fitsTop, ((steps _).mp found).2, (stays _ found).1.carry,
    ends.mp (by decide)⟩

end PackedBits
