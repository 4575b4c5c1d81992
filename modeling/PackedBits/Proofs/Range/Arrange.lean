import PackedBits.Range.Arrange
import PackedBits.Proofs.Range.Exchange

/-! What stepping to a neighbouring arrangement does. The step is told once, on lists: the last run
of big bits gives its first bit to the place before it, and what follows turns around. A run inside
one word takes the step by arithmetic, where a carry moves the bit, and a longer one by exchanging
two bits and reversing; both come to the same. -/
namespace PackedBits

/-- The neighbouring arrangement of a list of bits in the order in which `small` comes first, and
whether there is one. Past the last arrangement comes the first. -/
def neighbour (small : Bool) (bits : List Bool) : List Bool × Bool :=
  let turned := bits.reverse
  let smalls := turned.takeWhile (· == small)
  let rest := turned.dropWhile (· == small)
  let bigs := rest.takeWhile (· != small)
  match rest.dropWhile (· != small) with
  | [] => (turned, false)
  | _ :: above => ((bigs.tail ++ small :: smalls ++ (!small) :: above).reverse, true)

section
variable (small : Bool)

theorem takeWhile_run (test : Bool → Bool) (value other : Bool) (passes : test value = true)
    (fails : test other = false) (count : Nat) (rest : List Bool) :
    (List.replicate count value ++ other :: rest).takeWhile test = List.replicate count value ∧
      (List.replicate count value ++ other :: rest).dropWhile test = other :: rest := by
  have all : ∀ bit ∈ List.replicate count value, test bit = true := by
    intro bit member
    rw [List.eq_of_mem_replicate member, passes]
  constructor
  · rw [List.takeWhile_append_of_pos all, List.takeWhile_cons_of_neg (by simp [fails]),
      List.append_nil]
  · rw [List.dropWhile_append_of_pos all, List.dropWhile_cons_of_neg (by simp [fails])]

theorem neighbour_wraps (bigs smalls : Nat) :
    neighbour small (List.replicate bigs (!small) ++ List.replicate smalls small) =
      (List.replicate smalls small ++ List.replicate bigs (!small), false) := by
  have turned : (List.replicate bigs (!small) ++ List.replicate smalls small).reverse =
      List.replicate smalls small ++ List.replicate bigs (!small) := by
    rw [List.reverse_append, List.reverse_replicate, List.reverse_replicate]
  have none : ((List.replicate smalls small ++ List.replicate bigs (!small)).dropWhile
      (· == small)).dropWhile (· != small) = [] := by
    rw [List.dropWhile_append_of_pos (by simp)]
    cases small <;> simp
  simp only [neighbour, turned, none]

theorem neighbour_steps (front : List Bool) (bigs smalls : Nat) :
    neighbour small
        (front ++ small :: (List.replicate (bigs + 1) (!small) ++ List.replicate smalls small)) =
      (front ++ (!small) :: (List.replicate (smalls + 1) small ++ List.replicate bigs (!small)),
        true) := by
  have turned : (front ++ small :: (List.replicate (bigs + 1) (!small) ++
      List.replicate smalls small)).reverse = List.replicate smalls small ++
        (!small) :: (List.replicate bigs (!small) ++ small :: front.reverse) := by
    rw [List.reverse_append, List.reverse_cons, List.reverse_append, List.reverse_replicate,
      List.reverse_replicate, List.replicate_succ]
    simp
  obtain ⟨smallsTaken, smallsDropped⟩ := takeWhile_run (· == small) small (!small) (by simp)
    (by simp) smalls (List.replicate bigs (!small) ++ small :: front.reverse)
  obtain ⟨bigsTaken, bigsDropped⟩ := takeWhile_run (· != small) (!small) small (by simp) (by simp)
    (bigs + 1) front.reverse
  rw [List.replicate_succ, List.cons_append] at bigsTaken bigsDropped
  simp only [neighbour, turned, smallsTaken, smallsDropped, bigsTaken, bigsDropped]
  simp [List.reverse_append, List.replicate_succ']

end

theorem map_range_add (f : Nat → Bool) (a b : Nat) : (List.range (a + b)).map f =
    (List.range a).map f ++ (List.range b).map fun i => f (a + i) := by
  rw [List.range_add, List.map_append, List.map_map]
  rfl

theorem map_range_const {f : Nat → Bool} {n : Nat} {value : Bool} (all : ∀ i < n, f i = value) :
    (List.range n).map f = List.replicate n value := by
  rw [List.map_congr_left fun i member => all i (List.mem_range.mp member), List.map_const',
    List.length_range]

/-- A function of the place in a run as the arrangement of two values: all big bits are in front,
or there is a last small one that a big one follows. -/
inductive Turning (f : Nat → Bool) (small : Bool) (n : Nat) : Prop where
  | last (bigs : Nat) (within : bigs ≤ n) (front : ∀ i < bigs, f i = !small)
      (back : ∀ i, bigs ≤ i → i < n → f i = small)
  | pivot (pivot last : Nat) (order : pivot < last) (inside : last < n) (here : f pivot = small)
      (between : ∀ i, pivot < i → i ≤ last → f i = !small)
      (after : ∀ i, last < i → i < n → f i = small)

theorem exists_last (f : Nat → Bool) (value : Bool) (n : Nat) :
    (∀ i < n, f i = !value) ∨
      ∃ last < n, f last = value ∧ ∀ i, last < i → i < n → f i = !value := by
  induction n with
  | zero => exact .inl fun i below => absurd below (Nat.not_lt_zero i)
  | succ n ih =>
      by_cases here : f n = value
      · exact .inr ⟨n, Nat.lt_succ_self n, here, fun i above below => by omega⟩
      · have other : f n = !value := by
          revert here
          cases f n <;> cases value <;> decide
        rcases ih with none | ⟨last, below, hit, passed⟩
        · refine .inl fun i inside => ?_
          rcases Nat.lt_succ_iff_lt_or_eq.mp inside with lower | rfl
          · exact none i lower
          · exact other
        · refine .inr ⟨last, Nat.lt_succ_of_lt below, hit, fun i above inside => ?_⟩
          rcases Nat.lt_succ_iff_lt_or_eq.mp inside with lower | rfl
          · exact passed i above lower
          · exact other

theorem turning_cases (f : Nat → Bool) (small : Bool) (n : Nat) : Turning f small n := by
  rcases exists_last f (!small) n with none | ⟨last, inside, hit, after⟩
  · refine .last 0 (Nat.zero_le n) (fun i below => absurd below (Nat.not_lt_zero i)) ?_
    intro i _ below
    rw [none i below, Bool.not_not]
  · simp only [Bool.not_not] at after
    have upto (front : Nat) (all : ∀ i, front ≤ i → i < last → f i = !small) (i : Nat)
        (above : front ≤ i) (below : i ≤ last) : f i = !small := by
      rcases Nat.lt_or_eq_of_le below with lower | rfl
      · exact all i above lower
      · exact hit
    rcases exists_last f small last with all | ⟨pivot, order, here, between⟩
    · exact .last (last + 1) inside
        (fun i below => upto 0 (fun i _ => all i) i (Nat.zero_le i) (Nat.le_of_lt_succ below))
        fun i above => after i above
    · exact .pivot pivot last order inside here
        (fun i above => upto (pivot + 1) (fun i reached => between i reached) i above) after

def stepped (f : Nat → Bool) (small : Bool) (n pivot last i : Nat) : Bool :=
  if i < pivot then f i
  else if i = pivot then !small
  else if i ≤ pivot + (n - last) then small
  else !small

section
variable {f : Nat → Bool} {small : Bool} {n : Nat}

theorem neighbour_of_last {bigs : Nat} (within : bigs ≤ n) (front : ∀ i < bigs, f i = !small)
    (back : ∀ i, bigs ≤ i → i < n → f i = small) :
    neighbour small ((List.range n).map f) =
      ((List.range n).map fun i => f (n - 1 - i), false) := by
  obtain ⟨smalls, rfl⟩ := Nat.exists_eq_add_of_le within
  have before : (List.range (bigs + smalls)).map f =
      List.replicate bigs (!small) ++ List.replicate smalls small := by
    rw [map_range_add, map_range_const front,
      map_range_const fun i below => back (bigs + i) (by omega) (by omega)]
  have turned : (List.range (bigs + smalls)).map (fun i => f (bigs + smalls - 1 - i)) =
      List.replicate smalls small ++ List.replicate bigs (!small) := by
    rw [Nat.add_comm bigs smalls, map_range_add,
      map_range_const fun i below => back _ (by omega) (by omega),
      map_range_const fun i below => front _ (by omega)]
  rw [before, neighbour_wraps, turned]

theorem neighbour_of_pivot {pivot last : Nat} (order : pivot < last) (inside : last < n)
    (here : f pivot = small) (between : ∀ i, pivot < i → i ≤ last → f i = !small)
    (after : ∀ i, last < i → i < n → f i = small) :
    neighbour small ((List.range n).map f) =
      ((List.range n).map (stepped f small n pivot last), true) := by
  obtain ⟨bigs, rfl⟩ := Nat.exists_eq_add_of_lt order
  obtain ⟨smalls, rfl⟩ := Nat.exists_eq_add_of_lt inside
  have before : (List.range (pivot + bigs + 1 + smalls + 1)).map f = (List.range pivot).map f ++
      small :: (List.replicate (bigs + 1) (!small) ++ List.replicate smalls small) := by
    rw [show pivot + bigs + 1 + smalls + 1 = pivot + (1 + (bigs + 1 + smalls)) by omega,
      map_range_add, map_range_add, map_range_add,
      map_range_const fun i below => between (pivot + (1 + i)) (by omega) (by omega),
      map_range_const fun i below => after (pivot + (1 + (bigs + 1 + i))) (by omega) (by omega)]
    simp [here]
  let new := stepped f small (pivot + bigs + 1 + smalls + 1) pivot (pivot + bigs + 1)
  have front : (List.range pivot).map new = (List.range pivot).map f :=
    List.map_congr_left fun i member => if_pos (List.mem_range.mp member)
  have behind : (List.range (pivot + bigs + 1 + smalls + 1)).map new = (List.range pivot).map f ++
      (!small) :: (List.replicate (smalls + 1) small ++ List.replicate bigs (!small)) := by
    rw [show pivot + bigs + 1 + smalls + 1 = pivot + (1 + (smalls + 1 + bigs)) by omega,
      map_range_add, map_range_add, map_range_add, front,
      map_range_const fun i (below : i < 1) => show new (pivot + i) = !small by
        simp only [new, stepped]
        rw [if_neg (by omega), if_pos (by omega)],
      map_range_const fun i (below : i < smalls + 1) => show new (pivot + (1 + i)) = small by
        simp only [new, stepped]
        rw [if_neg (by omega), if_neg (by omega), if_pos (by omega)],
      map_range_const fun i (below : i < bigs) =>
        show new (pivot + (1 + (smalls + 1 + i))) = !small by
        simp only [new, stepped]
        rw [if_neg (by omega), if_neg (by omega), if_neg (by omega)]]
    rfl
  rw [before, neighbour_steps, behind]

end

section
variable {w : Nat}

theorem getLsbD_add_one (word : BitVec w) {i : Nat} (inside : i < w) :
    (word + 1#w).getLsbD i = (word.getLsbD i ^^ decide (∀ j < i, word.getLsbD j = true)) := by
  have sum : word + 1#w = -(~~~word) := by rw [BitVec.neg_eq_not_add, BitVec.not_not]
  have carry : decide (∃ j < i, (~~~word).getLsbD j = true) =
      !decide (∀ j < i, word.getLsbD j = true) := by
    rw [← decide_not, decide_eq_decide]
    constructor
    · rintro ⟨j, below, clear⟩ all
      simp [all j below] at clear
    · intro some
      refine Decidable.by_contra fun none => some fun j below => ?_
      refine Decidable.by_contra fun clear => none ⟨j, below, ?_⟩
      simpa [show j < w by omega] using clear
  rw [sum, BitVec.getLsbD_neg, carry, BitVec.getLsbD_not]
  simp [inside]

theorem getLsbD_sub_one (word : BitVec w) {i : Nat} (inside : i < w) :
    (word - 1#w).getLsbD i = (word.getLsbD i ^^ decide (∀ j < i, word.getLsbD j = false)) := by
  have borrow : decide (∃ j < i, word.getLsbD j = true) =
      !decide (∀ j < i, word.getLsbD j = false) := by
    rw [← decide_not, decide_eq_decide]
    constructor
    · rintro ⟨j, below, set⟩ all
      simp [all j below] at set
    · intro some
      refine Decidable.by_contra fun none => some fun j below => ?_
      rw [← Bool.not_eq_true]
      exact fun set => none ⟨j, below, set⟩
  rw [← BitVec.not_neg, BitVec.getLsbD_not, BitVec.getLsbD_neg, borrow]
  simp [inside]

theorem add_one_of_run {word : BitVec w} {high i : Nat} (run : ∀ j < high, word.getLsbD j = true)
    (clear : word.getLsbD high = false) (inside : i < w) : (word + 1#w).getLsbD i =
      if i < high then false else if i = high then true else word.getLsbD i := by
  rw [getLsbD_add_one word inside]
  by_cases early : i < high
  · rw [if_pos early, run i early,
      decide_eq_true fun j earlier => run j (Nat.lt_trans earlier early)]
    rfl
  · rw [if_neg early]
    by_cases here : i = high
    · subst here
      rw [if_pos rfl, clear, decide_eq_true run]
      rfl
    · have stops : ¬ ∀ j < i, word.getLsbD j = true := by
        intro all
        rw [all high (by omega)] at clear
        cases clear
      rw [if_neg here, decide_eq_false stops, Bool.xor_false]

theorem sub_one_of_lowest {word : BitVec w} {low i : Nat}
    (below : ∀ j < low, word.getLsbD j = false) (set : word.getLsbD low = true) (inside : i < w) :
    (word - 1#w).getLsbD i =
      if i < low then true else if i = low then false else word.getLsbD i := by
  rw [getLsbD_sub_one word inside]
  by_cases early : i < low
  · rw [if_pos early, below i early,
      decide_eq_true fun j earlier => below j (Nat.lt_trans earlier early)]
    rfl
  · rw [if_neg early]
    by_cases here : i = low
    · subst here
      rw [if_pos rfl, set, decide_eq_true below]
      rfl
    · have stops : ¬ ∀ j < i, word.getLsbD j = false := by
        intro all
        rw [all low (by omega)] at set
        cases set
      rw [if_neg here, decide_eq_false stops, Bool.xor_false]

theorem countOnes_run {word : BitVec w} {low high : Nat} (order : low ≤ high) (within : high ≤ w)
    (bits : ∀ i, word.getLsbD i = (decide (low ≤ i) && decide (i < high))) :
    countOnes word = high - low := by
  obtain ⟨count, rfl⟩ := Nat.exists_eq_add_of_le order
  obtain ⟨rest, rfl⟩ := Nat.exists_eq_add_of_le within
  rw [countOnes_eq, List.range_add, List.range_add, List.countP_append, List.countP_append,
    List.countP_map, List.countP_map]
  have below : (List.range low).countP (fun i => word.getLsbD i) = 0 := by
    rw [List.countP_eq_zero]
    intro i member
    have := List.mem_range.mp member
    simp [bits, show ¬ low ≤ i by omega]
  have inside : (List.range count).countP ((fun i => word.getLsbD i) ∘ fun i => low + i) =
      count := by
    conv => rhs; rw [← List.length_range (n := count)]
    rw [List.countP_eq_length]
    intro i member
    have := List.mem_range.mp member
    simp [bits, this]
  have above : (List.range rest).countP ((fun i => word.getLsbD i) ∘ fun i => low + count + i) =
      0 := by
    rw [List.countP_eq_zero]
    intro i _
    simp [bits]
  rw [below, inside, above]
  omega

theorem countOnes_ne_zero {word : BitVec w} {i : Nat} (set : word.getLsbD i = true) :
    countOnes word ≠ 0 := by
  have inside : i < w := BitVec.lt_of_getLsbD set
  rw [countOnes_eq]
  exact Nat.ne_of_gt (List.countP_pos_iff.mpr ⟨i, List.mem_range.mpr inside, set⟩)

theorem trailingZeros_eq {word : BitVec w} {low : Nat} (below : ∀ i < low, word.getLsbD i = false)
    (set : word.getLsbD low = true) : trailingZeros word = low := by
  obtain ⟨-, -, passed, stop⟩ := firstSetFrom_spec word (Nat.zero_le w)
  have inside : low < w := BitVec.lt_of_getLsbD set
  rcases Nat.lt_trichotomy (trailingZeros word) low with less | same | more
  · have here := stop (Nat.lt_trans less inside)
    rw [show firstSetFrom word 0 = trailingZeros word from rfl, below _ less] at here
    cases here
  · exact same
  · rw [passed low (Nat.zero_le low) more] at set
    cases set

/-- A word whose lowest run of set bits ends below bit `high` and goes no further. -/
structure LowestRun (word : BitVec w) (low high : Nat) : Prop where
  order : low < high
  inside : high < w
  below : ∀ i < low, word.getLsbD i = false
  run : ∀ i, low ≤ i → i < high → word.getLsbD i = true
  clear : word.getLsbD high = false

namespace LowestRun
variable {word : BitVec w} {low high : Nat}

theorem set (shape : LowestRun word low high) : word.getLsbD low = true :=
  shape.run low (Nat.le_refl low) shape.order

theorem not_top (shape : LowestRun word low high) {n : Nat} (inside : high < n) :
    ¬ (countOnes word = 0 ∨
      word = lowestWithWeight w (countOnes word) <<< (n - countOnes word)) := by
  rintro (none | top)
  · exact countOnes_ne_zero shape.set none
  · have bit (i : Nat) : word.getLsbD i = (decide (i < w) && !decide (i < n - countOnes word) &&
        (lowestWithWeight w (countOnes word)).getLsbD (i - (n - countOnes word))) := by
      conv => lhs; rw [top]
      exact BitVec.getLsbD_shiftLeft ..
    have order := shape.order
    have atLow := bit low
    have atHigh := bit high
    rw [shape.set] at atLow
    rw [shape.clear] at atHigh
    simp only [lowestWithWeight, getLsbD_maskTo] at atLow atHigh
    simp at atLow atHigh
    have inWord := shape.inside
    omega

theorem filled (shape : LowestRun word low high) {i : Nat} (small : i < w) :
    (word ||| (word - 1#w)).getLsbD i = (decide (i < high) || word.getLsbD i) := by
  have order := shape.order
  rw [BitVec.getLsbD_or, sub_one_of_lowest shape.below shape.set small]
  by_cases early : i < low
  · rw [if_pos early, decide_eq_true (by omega), Bool.or_true, Bool.true_or]
  · rw [if_neg early]
    by_cases inRun : i < high
    · rw [shape.run i (by omega) inRun, Bool.true_or, Bool.or_true]
    · rw [if_neg (by omega), Bool.or_self, decide_eq_false inRun, Bool.false_or]

theorem carried (shape : LowestRun word low high) {i : Nat} (small : i < w) :
    ((word ||| (word - 1#w)) + 1#w).getLsbD i =
      if i < high then false else if i = high then true else word.getLsbD i := by
  have inside := shape.inside
  have run (j : Nat) (below : j < high) : (word ||| (word - 1#w)).getLsbD j = true := by
    rw [shape.filled (by omega), decide_eq_true below, Bool.true_or]
  have clear : (word ||| (word - 1#w)).getLsbD high = false := by
    rw [shape.filled inside, shape.clear, decide_eq_false (Nat.lt_irrefl high), Bool.false_or]
  rw [add_one_of_run run clear small]
  by_cases early : i < high
  · rw [if_pos early, if_pos early]
  · rw [if_neg early, if_neg early, shape.filled small, decide_eq_false early, Bool.false_or]

theorem single (shape : LowestRun word low high) {i : Nat} (small : i < w) :
    (~~~(word ||| (word - 1#w)) &&& ((word ||| (word - 1#w)) + 1#w)).getLsbD i =
      decide (i = high) := by
  rw [BitVec.getLsbD_and, BitVec.getLsbD_not, shape.carried small, shape.filled small,
    decide_eq_true small, Bool.true_and]
  by_cases early : i < high
  · simp [early, show i ≠ high by omega]
  · by_cases here : i = high
    · subst here
      simp [shape.clear]
    · simp [early, here]

theorem released (shape : LowestRun word low high) {i : Nat} (small : i < w) :
    ((~~~(word ||| (word - 1#w)) &&& ((word ||| (word - 1#w)) + 1#w)) - 1#w).getLsbD i =
      decide (i < high) := by
  have inside := shape.inside
  have below (j : Nat) (earlier : j < high) :
      (~~~(word ||| (word - 1#w)) &&& ((word ||| (word - 1#w)) + 1#w)).getLsbD j = false := by
    rw [shape.single (by omega), decide_eq_false (by omega)]
  rw [sub_one_of_lowest below (by rw [shape.single inside, decide_eq_true rfl]) small]
  by_cases early : i < high
  · rw [if_pos early, decide_eq_true early]
  · rw [if_neg early, decide_eq_false early]
    by_cases here : i = high
    · rw [if_pos here]
    · rw [if_neg here, shape.single small, decide_eq_false here]

theorem nextSameWeight (shape : LowestRun word low high) {n : Nat} (inside : high < n) :
    ∃ next, PackedBits.nextSameWeight word n = some next ∧ ∀ i < w, next.getLsbD i =
      if i < high then decide (i < high - (low + 1))
      else if i = high then true
      else word.getLsbD i := by
  have order := shape.order
  have small : low + 1 < w := Nat.lt_of_le_of_lt order shape.inside
  refine ⟨((word ||| (word - 1#w)) + 1#w) ||| ((~~~(word ||| (word - 1#w)) &&&
    ((word ||| (word - 1#w)) + 1#w)) - 1#w) >>> (low + 1), ?_, fun i below => ?_⟩
  · simp only [PackedBits.nextSameWeight, if_neg (shape.not_top inside),
      trailingZeros_eq shape.below shape.set, shiftRight?, if_pos small, Option.getD_some]
  · rw [BitVec.getLsbD_or, BitVec.getLsbD_ushiftRight, shape.carried below]
    -- The released bits have come down to below the set one.
    have low_bits : ((~~~(word ||| (word - 1#w)) &&& ((word ||| (word - 1#w)) + 1#w)) -
        1#w).getLsbD (low + 1 + i) = decide (i < high - (low + 1)) := by
      by_cases moved : low + 1 + i < w
      · rw [shape.released moved, decide_eq_decide]
        omega
      · have inWord := shape.inside
        rw [BitVec.getLsbD_of_ge _ _ (by omega), decide_eq_false (by omega)]
    rw [low_bits]
    by_cases early : i < high
    · rw [if_pos early, if_pos early, Bool.false_or]
    · rw [if_neg early, if_neg early, decide_eq_false (by omega), Bool.or_false]

end LowestRun

theorem nextSameWeight_of_top {word : BitVec w} {n low : Nat} (order : low ≤ n) (within : n ≤ w)
    (bits : ∀ i, word.getLsbD i = (decide (low ≤ i) && decide (i < n))) :
    nextSameWeight word n = none ∧ countOnes word = n - low := by
  have count := countOnes_run order within bits
  refine ⟨?_, count⟩
  rw [nextSameWeight, if_pos]
  right
  rw [count, show n - (n - low) = low by omega]
  refine BitVec.eq_of_getLsbD_eq fun i inside => ?_
  rw [bits, BitVec.getLsbD_shiftLeft, lowestWithWeight, getLsbD_maskTo]
  by_cases reached : low ≤ i
  · simp [inside, reached, show ¬ i < low by omega, show i - low < w by omega]
    omega
  · simp [reached, show i < low by omega]

/-! An arrangement as a word: its first bit on top, big bits set. -/

section
variable {value : BitVec w} {f : Nat → Bool} {n : Nat} {backward : Bool}

theorem top_of_last (number : ∀ i, value.getLsbD i = (decide (i < n) && (f (n - 1 - i) ^^ backward)))
    {bigs : Nat} (front : ∀ i < bigs, f i = !backward)
    (back : ∀ i, bigs ≤ i → i < n → f i = backward) (i : Nat) :
    value.getLsbD i = (decide (n - bigs ≤ i) && decide (i < n)) := by
  rw [number]
  by_cases below : i < n
  · by_cases big : n - bigs ≤ i
    · rw [front _ (by omega)]
      cases backward <;> simp [below, big]
    · rw [back _ (by omega) (by omega)]
      simp [big]
  · simp [below]

theorem lowestRun_of_pivot
    (number : ∀ i, value.getLsbD i = (decide (i < n) && (f (n - 1 - i) ^^ backward)))
    (small : n ≤ w) {pivot last : Nat} (order : pivot < last) (inside : last < n)
    (here : f pivot = backward) (between : ∀ i, pivot < i → i ≤ last → f i = !backward)
    (after : ∀ i, last < i → i < n → f i = backward) :
    LowestRun value (n - 1 - last) (n - 1 - pivot) := by
  refine ⟨by omega, by omega, fun i below => ?_, fun i above below => ?_, ?_⟩
  · rw [number, after _ (by omega) (by omega)]
    simp
  · rw [number, between _ (by omega) (by omega)]
    cases backward <;> simp [show i < n by omega]
  · rw [number, show n - 1 - (n - 1 - pivot) = pivot by omega, here]
    simp

theorem neighbour_of_number
    (number : ∀ i, value.getLsbD i = (decide (i < n) && (f (n - 1 - i) ^^ backward)))
    (small : n ≤ w) : neighbour backward ((List.range n).map f) =
      ((List.range n).map fun i => ((nextSameWeight value n).getD
        (lowestWithWeight w (countOnes value))).getLsbD (n - 1 - i) ^^ backward,
        (nextSameWeight value n).isSome) := by
  rcases turning_cases f backward n with ⟨bigs, within, front, back⟩ |
    ⟨pivot, last, order, inside, here, between, after⟩
  · obtain ⟨none, count⟩ :=
      nextSameWeight_of_top (Nat.sub_le n bigs) small (top_of_last number front back)
    rw [neighbour_of_last within front back, none, Option.getD_none, count]
    refine Prod.ext (List.map_congr_left fun i member => ?_) rfl
    have below := List.mem_range.mp member
    rw [lowestWithWeight, getLsbD_maskTo]
    by_cases big : n - 1 - i < bigs
    · rw [front _ big]
      simp [show n - 1 - i < n - (n - bigs) by omega, show n - 1 - i < w by omega]
    · rw [back _ (by omega) (by omega)]
      simp [show ¬ n - 1 - i < n - (n - bigs) by omega]
  · have shape := lowestRun_of_pivot number small order inside here between after
    obtain ⟨next, found, bits⟩ := shape.nextSameWeight (show n - 1 - pivot < n by omega)
    rw [neighbour_of_pivot order inside here between after, found, Option.getD_some]
    refine Prod.ext (List.map_congr_left fun i member => ?_) rfl
    have below := List.mem_range.mp member
    symm
    rw [bits _ (by omega), stepped]
    by_cases ahead : i < pivot
    · rw [if_pos ahead, if_neg (by omega), if_neg (by omega), number,
        show n - 1 - (n - 1 - i) = i by omega]
      simp [show n - 1 - i < n by omega]
    · rw [if_neg ahead]
      by_cases at_pivot : i = pivot
      · rw [if_pos at_pivot, if_neg (by omega), if_pos (by omega), Bool.true_xor]
      · rw [if_neg at_pivot, if_pos (by omega)]
        by_cases moved : i ≤ pivot + (n - last)
        · rw [if_pos moved, decide_eq_false (by omega), Bool.false_xor]
        · rw [if_neg moved, decide_eq_true (by omega), Bool.true_xor]

end

end

section
variable {μ : Type} {w : Nat} [Memory μ w] [LawfulMemory μ w]

def runBits (m : μ) (p : Cursor w) (n : Nat) : List Bool := (List.range n).map (bitsAt m p)

omit [LawfulMemory μ w] in
@[simp] theorem length_runBits (m : μ) (p : Cursor w) (n : Nat) : (runBits m p n).length = n := by
  rw [runBits, List.length_map, List.length_range]

omit [LawfulMemory μ w] in
theorem getElem?_runBits (m : μ) (p : Cursor w) (n i : Nat) :
    (runBits m p n)[i]? = if i < n then some (bitsAt m p i) else none := by
  by_cases below : i < n <;> simp [runBits, below]

omit [LawfulMemory μ w] in
theorem Overwritten.runBits {m m' : μ} {p : Cursor w} {n : Nat} {new : Nat → Bool}
    (written : Overwritten m m' p n new) : PackedBits.runBits m' p n = (List.range n).map new :=
  List.map_congr_left fun _ member => written.bitsAt (List.mem_range.mp member)

omit [LawfulMemory μ w] in
theorem Altered.restored {m m' : μ} {p : Cursor w} {n : Nat} (altered : Altered m m' (p.Covers n))
    (held : Holds m p n) (same : PackedBits.runBits m' p n = PackedBits.runBits m p n) :
    Restored m m' := by
  intro buffer position
  by_cases covered : p.Covers n buffer position
  · have inside : (position - p.position).toNat < n := by
      obtain ⟨-, low, high⟩ := covered
      omega
    rw [held.bit_covered covered, (altered.holds held).bit_covered covered,
      List.map_inj_left.mp same _ (List.mem_range.mpr inside)]
  · exact altered.kept buffer position covered

/-- What stepping the run at a cursor has to do. -/
def Arranges (m : μ) (p : Cursor w) (n : Nat) (backward : Bool) (ran : Option (μ × Bool)) : Prop :=
  ∃ m' new stepped, ran = some (m', stepped) ∧ Overwritten m m' p n new ∧
    neighbour backward (runBits m p n) = ((List.range n).map new, stepped)

omit [LawfulMemory μ w] in
theorem getLsbD_number {m : μ} {p : Cursor w} {n : Nat} {word : BitVec w} (small : n ≤ w)
    (bits : ∀ i, word.getLsbD i = (decide (i < n) && bitsAt m p i)) (backward : Bool) (i : Nat) :
    (reverseLow word n ^^^ (splat w backward &&& maskTo w n)).getLsbD i =
      (decide (i < n) && (bitsAt m p (n - 1 - i) ^^ backward)) := by
  rw [BitVec.getLsbD_xor, getLsbD_reverseLow word small, bits, BitVec.getLsbD_and, getLsbD_splat,
    getLsbD_maskTo]
  by_cases below : i < n
  · simp [below, show i < w by omega, show n - 1 - i < n by omega]
  · simp [below]

theorem arrange_word_ran (m : μ) (p : Cursor w) (n : Nat) (backward : Bool)
    (nonempty : 0 < n) (small : n ≤ w) (held : Holds m p n) :
    ∃ (value : BitVec w) (m' : μ),
      (∀ i, value.getLsbD i = (decide (i < n) && (bitsAt m p (n - 1 - i) ^^ backward))) ∧
      arrangeWord m p n backward = some (m', (PackedBits.nextSameWeight value n).isSome) ∧
      Overwritten m m' p n fun i => ((PackedBits.nextSameWeight value n).getD
        (lowestWithWeight w (countOnes value))).getLsbD (n - 1 - i) ^^ backward := by
  obtain ⟨word, read, places⟩ := readBits_eq m p n nonempty small held
  have number := getLsbD_number small places backward
  have ran (arranged : BitVec w) : ∃ m', writeBits m p n
      (reverseLow (arranged ^^^ (splat w backward &&& maskTo w n)) n) = some m' ∧
      Overwritten m m' p n fun i => arranged.getLsbD (n - 1 - i) ^^ backward := by
    obtain ⟨m', written, became⟩ := writeBits_overwritten m p n
      (reverseLow (arranged ^^^ (splat w backward &&& maskTo w n)) n) nonempty small held
    refine ⟨m', written, became.congr fun i below => ?_⟩
    rw [getLsbD_reverseLow _ small, BitVec.getLsbD_xor, BitVec.getLsbD_and, getLsbD_splat,
      getLsbD_maskTo]
    simp [below, show n - 1 - i < n by omega, show n - 1 - i < w by omega]
  obtain ⟨m', written, became⟩ := ran _
  refine ⟨_, m', number, ?_, became⟩
  simp only [arrangeWord, read, Option.bind_eq_bind, Option.bind_some, written, Option.pure_def]

theorem arrange_word_overwritten (m : μ) (p : Cursor w) (n : Nat) (backward : Bool)
    (nonempty : 0 < n) (small : n ≤ w) (held : Holds m p n) :
    Arranges m p n backward (arrangeWord m p n backward) := by
  obtain ⟨value, m', number, ran, became⟩ :=
    arrange_word_ran m p n backward nonempty small held
  exact ⟨m', _, _, ran, became, neighbour_of_number number small⟩

section Walks
omit [LawfulMemory μ w]
variable {m : μ} {p : Cursor w} {n : Nat} {small : Bool}

theorem find_pivot_eq {pivot i : Nat} (held : Holds m p n) (below : i < n) (started : pivot < i)
    (here : bitsAt m p pivot = small) (turn : bitsAt m p (pivot + 1) = !small)
    (passed : ∀ j, pivot < j → j < i → bitsAt m p j = !small ∨ bitsAt m p (j + 1) = small) :
    findPivot m p small i = some (some pivot) := by
  induction i with
  | zero => exact absurd started (Nat.not_lt_zero pivot)
  | succ i ih =>
      rw [findPivot, readBit_part held (Nat.lt_of_succ_lt below), readBit_part held below]
      by_cases last : i = pivot
      · subst last
        cases small <;> simp [here, turn]
      · have earlier := ih (Nat.lt_of_succ_lt below) (by omega)
          fun j above inside => passed j above (by omega)
        rcases passed i (by omega) (Nat.lt_succ_self i) with large | level
        · cases small <;> simp [large, earlier]
        · simp [level, earlier]

theorem find_pivot_none {i : Nat} (held : Holds m p n) (below : i < n)
    (passed : ∀ j < i, bitsAt m p j = !small ∨ bitsAt m p (j + 1) = small) :
    findPivot m p small i = some none := by
  induction i with
  | zero => rfl
  | succ i ih =>
      rw [findPivot, readBit_part held (Nat.lt_of_succ_lt below), readBit_part held below]
      have earlier := ih (Nat.lt_of_succ_lt below) fun j inside => passed j (Nat.lt_succ_of_lt inside)
      rcases passed i (Nat.lt_succ_self i) with large | level
      · cases small <;> simp [large, earlier]
      · simp [level, earlier]

theorem skip_small_eq {last j : Nat} (held : Holds m p n) (below : j < n) (started : last ≤ j)
    (here : bitsAt m p last = !small) (after : ∀ i, last < i → i ≤ j → bitsAt m p i = small) :
    skipSmall m p small j = some last := by
  induction j with
  | zero =>
      obtain rfl : last = 0 := Nat.le_zero.mp started
      have read := readBit_part held below
      rw [Cursor.forward_zero] at read
      simp [skipSmall, read, here]
  | succ j ih =>
      rw [skipSmall, readBit_part held below]
      by_cases found : last = j + 1
      · subst found
        simp [here]
      · have level := after (j + 1) (by omega) (Nat.le_refl _)
        have rest := ih (Nat.lt_of_succ_lt below) (by omega)
          fun i above inside => after i above (Nat.le_succ_of_le inside)
        simp [level, rest]

end Walks

theorem step_overwritten {m : μ} {p : Cursor w} {n pivot last : Nat} {small : Bool}
    (held : Holds m p n) (order : pivot < last) (inside : last < n)
    (between : ∀ i, pivot < i → i ≤ last → bitsAt m p i = !small)
    (after : ∀ i, last < i → i < n → bitsAt m p i = small) :
    ∃ m', (do
        let m ← writeBit m (p + pivot) (!small)
        let m ← writeBit m (p + last) small
        return (← reverse m (p + (pivot + 1)) (n - (pivot + 1)), true)) = some (m', true) ∧
      Overwritten m m' p n (stepped (bitsAt m p) small n pivot last) := by
  obtain ⟨m₁, setPivot, became₁⟩ := writeBit_overwritten m (p + pivot) (!small)
    (held.part (by omega))
  have part₁ := (Overwritten.self held).part became₁ (by omega)
  have held₁ := (part₁.altered held).holds held
  obtain ⟨m₂, setLast, became₂⟩ := writeBit_overwritten m₁ (p + last) small (held₁.part (by omega))
  have part₂ := part₁.part became₂ (by omega)
  have held₂ := (part₂.altered held).holds held
  obtain ⟨m₃, reversed, became₃⟩ := reverse_overwritten m₂ (p + (pivot + 1)) (n - (pivot + 1))
    (held₂.part (by omega))
  refine ⟨m₃, by simp [setPivot, setLast, reversed], ?_⟩
  refine (part₂.part became₃ (by omega)).congr fun i below => ?_
  rw [stepped]
  by_cases ahead : i < pivot
  · rw [if_neg (by omega), if_neg (by omega), if_neg (by omega), if_pos ahead]
  · rw [if_neg ahead]
    by_cases here : i = pivot
    · rw [if_neg (by omega), if_neg (by omega), if_pos (by omega), if_pos here]
    · rw [if_neg here, if_pos (by omega), bitsAt_forward, part₂.bitsAt (by omega)]
      -- The place that the bit comes from is past the pivot, as far from the end.
      by_cases moved : i ≤ pivot + (n - last)
      · rw [if_pos moved]
        by_cases fromLast : i = pivot + (n - last)
        · rw [if_pos (by omega)]
        · rw [if_neg (by omega), if_neg (by omega), after _ (by omega) (by omega)]
      · rw [if_neg moved, if_neg (by omega), if_neg (by omega), between _ (by omega) (by omega)]

theorem arrange_run_overwritten (m : μ) (p : Cursor w) (n : Nat) (backward : Bool)
    (nonempty : 0 < n) (held : Holds m p n) :
    Arranges m p n backward (arrangeRun m p n backward) := by
  rcases turning_cases (bitsAt m p) backward n with ⟨bigs, within, front, back⟩ |
    ⟨pivot, last, order, inside, here, between, after⟩
  · obtain ⟨m', reversed, became⟩ := reverse_overwritten m p n held
    have walked : findPivot m p backward (n - 1) = some none :=
      find_pivot_none held (by omega) fun j below => by
        by_cases big : j < bigs
        · exact .inl (front j big)
        · exact .inr (back (j + 1) (by omega) (by omega))
    exact ⟨m', _, false, by simp [arrangeRun, walked, reversed], became,
      neighbour_of_last within front back⟩
  · have walked : findPivot m p backward (n - 1) = some (some pivot) :=
      find_pivot_eq held (by omega) (by omega) here (between _ (Nat.lt_succ_self pivot) order)
        fun j above below => by
          by_cases big : j ≤ last
          · exact .inl (between j above big)
          · exact .inr (after (j + 1) (by omega) (by omega))
    have skipped : skipSmall m p backward (n - 1) = some last :=
      skip_small_eq held (by omega) (by omega) (between last order (Nat.le_refl last))
        fun i above below => after i above (by omega)
    obtain ⟨m', ran, became⟩ := step_overwritten held order inside between after
    refine ⟨m', _, true, ?_, became, neighbour_of_pivot order inside here between after⟩
    simpa [arrangeRun, walked, skipped] using ran

/-- However long a run is and wherever it begins, it is stepped as its list is. -/
theorem arrange_overwritten (m : μ) (p : Cursor w) (n : Nat) (backward : Bool)
    (held : Holds m p n) : Arranges m p n backward (arrange m p n backward) := by
  rw [arrange]
  split
  case isTrue short =>
    refine ⟨m, _, false, rfl, .self held, ?_⟩
    match n, short with
    | 0, _ => rfl
    | 1, _ =>
        show neighbour backward [bitsAt m p 0] = ([bitsAt m p 0], false)
        cases bitsAt m p 0 <;> cases backward <;> decide
  case isFalse long =>
    split
    case isTrue oneWord => exact arrange_word_overwritten m p n backward (by omega) (by omega) held
    case isFalse => exact arrange_run_overwritten m p n backward (by omega) held

omit [LawfulMemory μ w] in
theorem Arranges.takes {m : μ} {p : Cursor w} {n : Nat} {backward : Bool} {ran : Option (μ × Bool)}
    (arranges : Arranges m p n backward ran) (held : Holds m p n) :
    ∃ m', ran = some (m', (neighbour backward (runBits m p n)).2) ∧
      runBits m' p n = (neighbour backward (runBits m p n)).1 ∧ Altered m m' (p.Covers n) := by
  obtain ⟨m', new, stepped, done, became, next⟩ := arranges
  rw [next]
  exact ⟨m', done, became.runBits, became.altered held⟩

end

end PackedBits
