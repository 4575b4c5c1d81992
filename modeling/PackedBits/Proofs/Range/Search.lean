import PackedBits.Range.Search
import PackedBits.Proofs.Range.Compare
import PackedBits.Proofs.Range.Count

/-! Searching finds the first place. Each way of searching goes on from a place below which the
needle stands nowhere: a bit unlike the needle's first one is passed, a bit that breaks a run is
passed with all places whose run it breaks, and from a place where the needle's leading word stands
no place is closer than the smallest period of that word, because there it would stand over itself.
Nothing is written, and a needle is looked for no further than it would have to reach. -/
namespace PackedBits

section
variable {w : Nat}

theorem shiftRight_eq_iff {head : BitVec w} {n : Nat} (step : Nat)
    (clear : ∀ i, n ≤ i → head.getLsbD i = false) :
    head >>> step = head &&& maskTo w (n - step) ↔
      ∀ i, i + step < n → head.getLsbD (i + step) = head.getLsbD i := by
  constructor
  · intro same i below
    have bit := congrArg (·.getLsbD i) same
    simp only [BitVec.getLsbD_ushiftRight, BitVec.getLsbD_and, getLsbD_maskTo] at bit
    rw [Nat.add_comm, bit]
    by_cases inside : i < w
    · simp [inside, show i < n - step by omega]
    · simp [BitVec.getLsbD_of_ge head i (by omega)]
  · intro same
    refine BitVec.eq_of_getLsbD_eq fun i inside => ?_
    rw [BitVec.getLsbD_ushiftRight, BitVec.getLsbD_and, getLsbD_maskTo, Nat.add_comm]
    by_cases below : i + step < n
    · simp [same i below, inside, show i < n - step by omega]
    · simp [clear (i + step) (by omega), show ¬ i < n - step by omega]

/-- The smallest period is a step, and no smaller one brings the word over itself. -/
theorem smallestPeriod_spec (head : BitVec w) {n : Nat} (nonempty : 0 < n) :
    0 < smallestPeriod head n ∧ ∀ step, 0 < step → step < smallestPeriod head n →
      head >>> step ≠ head &&& maskTo w (n - step) := by
  rw [smallestPeriod]
  cases sought : (List.range' 1 (n - 1)).find? fun step =>
      head >>> step == head &&& maskTo w (n - step) with
  | none =>
      rw [Option.getD_none]
      refine ⟨nonempty, fun step positive below => ?_⟩
      simpa using List.find?_eq_none.mp sought step (List.mem_range'_1.mpr ⟨positive, by omega⟩)
  | some period =>
      obtain ⟨-, member, earlier⟩ := List.find?_range'_eq_some.mp sought
      refine ⟨(List.mem_range'_1.mp member).1, fun step positive below => ?_⟩
      simpa using earlier step positive below

end

variable {μ : Type} {w : Nat} [Memory μ w]

/-- A needle of `k` bits stands at a place of a run; one without bits stands nowhere. -/
def Stands (m : μ) (p q : Cursor w) (k i : Nat) : Prop :=
  0 < k ∧ ∀ j < k, bitsAt m p (i + j) = bitsAt m q j

def Missed (m : μ) (p : Cursor w) (n : Nat) (q : Cursor w) (k stop : Nat) : Prop :=
  ∀ i < stop, i + k ≤ n → ¬ Stands m p q k i

/-- The first place at which the needle stands among `n` bits, or `n` and there is none. -/
structure Located (m : μ) (p : Cursor w) (n : Nat) (q : Cursor w) (k found : Nat) : Prop where
  here : found = n ∨ found + k ≤ n ∧ Stands m p q k found
  before : Missed m p n q k found

section
variable {m : μ} {p q : Cursor w} {n k : Nat}

theorem Missed.zero (m : μ) (p : Cursor w) (n : Nat) (q : Cursor w) (k : Nat) :
    Missed m p n q k 0 := fun i below => absurd below (Nat.not_lt_zero i)

theorem Missed.located {i : Nat} (missed : Missed m p n q k i) (last : n < i + k) :
    Located m p n q k n where
  here := .inl rfl
  before j _ fits := missed j (by omega) fits

theorem Missed.pass {i start length : Nat} (missed : Missed m p n q k i)
    (first : First (bitsAt m (p + i)) (bitsAt m q 0) length start) :
    Missed m p n q k (i + start) := by
  intro j below fits ⟨nonempty, stands⟩
  by_cases early : j < i
  · exact missed j early fits ⟨nonempty, stands⟩
  · have unlike := first.before (j - i) (by omega)
    rw [bitsAt_forward, Nat.add_sub_cancel' (Nat.le_of_not_lt early)] at unlike
    have like := stands 0 nonempty
    rw [Nat.add_zero, unlike] at like
    exact (Bool.not_eq_self _).mp like

theorem Missed.next {i : Nat} (missed : Missed m p n q k i) (unlike : ¬ Stands m p q k i) :
    Missed m p n q k (i + 1) := by
  intro j below fits
  rcases Nat.lt_succ_iff_lt_or_eq.mp below with lower | rfl
  · exact missed j lower fits
  · exact unlike

theorem stands_iff {width i : Nat} (nonempty : 0 < width) (part : width ≤ k) :
    Stands m p q k i ↔ (∀ j < width, bitsAt m p (i + j) = bitsAt m q j) ∧
      ∀ j < k - width, bitsAt m (q + width) j = bitsAt m (p + (i + width)) j := by
  have behind (j : Nat) : bitsAt m (q + width) j = bitsAt m (p + (i + width)) j ↔
      bitsAt m p (i + (width + j)) = bitsAt m q (width + j) := by
    rw [bitsAt_forward, bitsAt_forward, Nat.add_assoc]
    exact eq_comm
  constructor
  · rintro ⟨-, stands⟩
    exact ⟨fun j below => stands j (by omega), fun j below =>
      (behind j).mpr (stands (width + j) (by omega))⟩
  · rintro ⟨leads, rest⟩
    refine ⟨by omega, fun j below => ?_⟩
    by_cases early : j < width
    · exact leads j early
    · have bit := (behind (j - width)).mp (rest (j - width) (by omega))
      rwa [Nat.add_sub_cancel' (by omega)] at bit

theorem leading_eq_iff {word head : BitVec w} {width i : Nat}
    (places : ∀ j, word.getLsbD j = (decide (j < width) && bitsAt m (p + i) j))
    (bits : ∀ j, head.getLsbD j = (decide (j < width) && bitsAt m q j)) :
    word = head ↔ ∀ j < width, bitsAt m p (i + j) = bitsAt m q j := by
  constructor
  · rintro rfl j below
    have bit := (places j).symm.trans (bits j)
    rwa [decide_eq_true below, Bool.true_and, Bool.true_and, bitsAt_forward] at bit
  · intro leads
    refine BitVec.eq_of_getLsbD_eq fun j _ => ?_
    rw [places, bits]
    by_cases below : j < width
    · rw [bitsAt_forward, leads j below]
    · rw [decide_eq_false below, Bool.false_and, Bool.false_and]

/-- From where the needle's leading word stands, the needle stands at no place closer than the
smallest period of that word. -/
theorem not_stands_in_period {head : BitVec w} {width i step : Nat} (part : width ≤ k)
    (bits : ∀ j, head.getLsbD j = (decide (j < width) && bitsAt m q j))
    (leads : ∀ j < width, bitsAt m p (i + j) = bitsAt m q j) (positive : 0 < step)
    (closer : step < smallestPeriod head width) (nonempty : 0 < width) :
    ¬ Stands m p q k (i + step) := by
  rintro ⟨-, stands⟩
  refine (smallestPeriod_spec head nonempty).2 step positive closer ?_
  refine (shiftRight_eq_iff step fun j above => by simp [bits, Nat.not_lt.mpr above]).mpr ?_
  intro j below
  rw [bits, bits, decide_eq_true below, decide_eq_true (by omega), Bool.true_and, Bool.true_and,
    ← leads _ below, ← stands j (by omega)]
  congr 1
  omega

theorem Missed.broken {i length : Nat} {value : Bool} (missed : Missed m p n q k i)
    (level : ∀ j < k, bitsAt m q j = value) (short : length < k)
    (breaks : bitsAt m p (i + length) = !value) : Missed m p n q k (i + length + 1) := by
  intro j below fits ⟨nonempty, stands⟩
  by_cases early : j < i
  · exact missed j early fits ⟨nonempty, stands⟩
  · have like := stands (i + length - j) (by omega)
    rw [Nat.add_sub_cancel' (by omega), breaks, level _ (by omega)] at like
    exact (Bool.not_eq_self _).mp like

theorem find_run_located {value : Bool} {i : Nat} (held : Holds m p n) (nonempty : 0 < k)
    (level : ∀ j < k, bitsAt m q j = value) (missed : Missed m p n q k i) :
    ∃ found, findRun m p n value k i = some found ∧ Located m p n q k found := by
  fun_induction findRun m p n value k i with
  | case1 i more ih =>
      obtain ⟨start, found, first⟩ := find_spec m (p + i) (n - i) value (held.part (by omega))
      have within := first.within
      have passed : Missed m p n q k (i + start) := missed.pass (by rwa [level 0 nonempty])
      by_cases short : n - (i + start) < k
      · exact ⟨n, by simp [found, short], passed.located (by omega)⟩
      · obtain ⟨length, broken, stop⟩ :=
          find_spec m (p + (i + start)) k (!value) (held.part (by omega))
        by_cases whole : length = k
        · refine ⟨i + start, by simp [found, short, broken, whole], .inr ⟨by omega, nonempty, ?_⟩,
            passed⟩
          intro j below
          have like := stop.before j (by omega)
          rwa [bitsAt_forward, Bool.not_not, ← level j below] at like
        · have inside := stop.within
          have breaks := stop.hit (by omega)
          rw [bitsAt_forward] at breaks
          obtain ⟨answer, rest, located⟩ :=
            ih start length (passed.broken level (by omega) breaks)
          exact ⟨answer, by simp [found, short, broken, whole, rest], located⟩
  | case2 i last => exact ⟨n, rfl, missed.located (by omega)⟩

theorem find_needle_located {stop width i : Nat} {head : BitVec w}
    (nonempty : 0 < width) (oneWord : width ≤ w) (part : width ≤ k) (fits : stop + k = n + 1)
    (bits : ∀ j, head.getLsbD j = (decide (j < width) && bitsAt m q j))
    (heldHay : Holds m p n) (heldNeedle : Holds m q k) (missed : Missed m p n q k i) :
    ∃ found, findNeedle m p n q k stop (bitsAt m q 0) head width (smallestPeriod head width) i =
        some found ∧ Located m p n q k found := by
  fun_induction findNeedle m p n q k stop (bitsAt m q 0) head width (smallestPeriod head width) i with
  | case1 i more ihSkip ihNext =>
      obtain ⟨start, found, first⟩ :=
        find_spec m (p + i) (stop - i) (bitsAt m q 0) (heldHay.part (by omega))
      have within := first.within
      have passed := missed.pass first
      by_cases none : i + start = stop
      · exact ⟨n, by simp [found, none], passed.located (by omega)⟩
      · obtain ⟨word, read, places⟩ := readBits_eq m (p + (i + start)) width nonempty oneWord
          (heldHay.part (by omega))
        have leading := leading_eq_iff places bits
        have split : Stands m p q k (i + start) ↔ _ := stands_iff nonempty part
        by_cases same : word = head
        · have rest := equal_eq (heldNeedle.part (show width + (k - width) ≤ k by omega))
            (heldHay.part (show i + start + width + (k - width) ≤ n by omega))
          by_cases all : ∀ j < k - width,
              bitsAt m (q + width) j = bitsAt m (p + (i + start + width)) j
          · rw [decide_eq_true all] at rest
            exact ⟨i + start, by simp [found, none, read, same, rest],
              .inr ⟨by omega, split.mpr ⟨leading.mp same, all⟩⟩, passed⟩
          · rw [decide_eq_false all] at rest
            have unlike : ¬ Stands m p q k (i + start) := fun stands => all (split.mp stands).2
            have positive := (smallestPeriod_spec head nonempty).1
            -- The places that the skip passes over are closer than the period.
            have skipped : Missed m p n q k (i + start + 1 + (smallestPeriod head width - 1)) := by
              intro j below inside
              by_cases early : j < i + start + 1
              · exact passed.next unlike j early inside
              · have closer := not_stands_in_period part bits (leading.mp same)
                  (show 0 < j - (i + start) by omega) (by omega) nonempty
                rwa [Nat.add_sub_cancel' (by omega)] at closer
            obtain ⟨answer, later, located⟩ := ihSkip start skipped
            exact ⟨answer, by simp [found, none, read, same, rest, later], located⟩
        · have unlike : ¬ Stands m p q k (i + start) := fun stands =>
            same (leading.mpr (split.mp stands).1)
          obtain ⟨answer, later, located⟩ := ihNext start (passed.next unlike)
          exact ⟨answer, by simp [found, none, read, same, later], located⟩
  | case2 i last => exact ⟨n, rfl, missed.located (by omega)⟩

theorem level_of_count {value : Bool}
    (none : (List.range k).countP (fun j => bitsAt m q j == !value) = 0) :
    ∀ j < k, bitsAt m q j = value := by
  intro j below
  have unlike := List.countP_eq_zero.mp none j (List.mem_range.mpr below)
  revert unlike
  cases bitsAt m q j <;> cases value <;> decide

theorem search_located (heldHay : Holds m p n) (heldNeedle : Holds m q k) :
    ∃ found, search m p n q k = some found ∧ Located m p n q k found := by
  have start := Missed.zero m p n q k
  rw [search]
  split
  case isTrue never =>
    refine ⟨n, rfl, .inl rfl, fun i _ fits => ?_⟩
    rintro ⟨nonempty, -⟩
    omega
  case isFalse possible =>
    have lead := readBit_held m q (heldNeedle.lower (by omega))
    rw [lead, Option.bind_eq_bind, Option.bind_some]
    split
    case isTrue single =>
      subst single
      obtain ⟨found, ran, first⟩ := find_spec m p n (bitsAt m q 0) heldHay
      have within := first.within
      have ahead : First (bitsAt m (p + 0)) (bitsAt m q 0) n found := by
        rwa [Cursor.forward_zero]
      have passed := start.pass ahead
      rw [Nat.zero_add] at passed
      refine ⟨found, ran, ?_, passed⟩
      rcases Nat.lt_or_eq_of_le within with below | none
      · refine .inr ⟨below, Nat.one_pos, fun j only => ?_⟩
        rw [Nat.lt_one_iff.mp only]
        exact first.hit below
      · exact .inl none
    case isFalse long =>
      have counted := count_eq (!bitsAt m q 0) heldNeedle
      by_cases level : (List.range k).countP (fun j => bitsAt m q j == !bitsAt m q 0) = 0
      · obtain ⟨found, ran, located⟩ :=
          find_run_located heldHay (by omega) (level_of_count level) start
        exact ⟨found, by simp [counted, level, ran], located⟩
      · have positive := q.width_pos
        obtain ⟨head, read, bits⟩ := readBits_eq m q (min k w) (by omega) (Nat.min_le_right ..)
          (heldNeedle.lower (Nat.min_le_left ..))
        obtain ⟨found, ran, located⟩ := find_needle_located (show 0 < min k w by omega)
          (Nat.min_le_right ..) (Nat.min_le_left ..) (show n - (k - 1) + k = n + 1 by omega) bits
          heldHay heldNeedle start
        exact ⟨found, by simp [counted, level, read, ran], located⟩

end

end PackedBits
