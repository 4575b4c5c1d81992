import PackedBits.Proofs.Range.Scan

/-! Counting is exact. Word by word and lane by lane the total is the number of places passed so far
that hold a set bit, and the places that do not hold the value are all the others. -/
namespace PackedBits
variable {μ : Type} {w : Nat} [Memory μ w]

theorem countP_range_add (test : Nat → Bool) (a b : Nat) :
    (List.range (a + b)).countP test =
      (List.range a).countP test + (List.range b).countP fun i => test (a + i) := by
  rw [List.range_add, List.countP_append, List.countP_map]
  rfl

theorem countP_range_congr {test test' : Nat → Bool} {n : Nat}
    (same : ∀ i < n, test i = test' i) :
    (List.range n).countP test = (List.range n).countP test' :=
  List.countP_congr fun i member => by rw [same i (List.mem_range.mp member)]

section
variable {m : μ} {p : Cursor w} {n : Nat}

theorem count_chunk_eq {chunk : Chunk} (total : Nat) (fits : Fits p n chunk) (held : Holds m p n) :
    (do return total + countOnes (← readBits m (p + chunk.offset) chunk.width)) =
      some (total + (List.range chunk.width).countP fun i => bitsAt m p (chunk.offset + i)) := by
  obtain ⟨word, read, bits⟩ := readBits_chunk fits held
  have ones : countOnes word =
      (List.range chunk.width).countP fun i => bitsAt m p (chunk.offset + i) := by
    have here : (List.range chunk.width).countP word.getLsbD =
        (List.range chunk.width).countP fun i => bitsAt m p (chunk.offset + i) :=
      countP_range_congr fun i below => by rw [bits, decide_eq_true below, Bool.true_and]
    have past : (List.range (w - chunk.width)).countP
        (fun i => word.getLsbD (chunk.width + i)) = 0 := by
      refine List.countP_eq_zero.mpr fun i _ => ?_
      rw [bits, decide_eq_false (by omega), Bool.false_and]
      exact Bool.false_ne_true
    have split := countP_range_add word.getLsbD chunk.width (w - chunk.width)
    rw [Nat.add_sub_cancel' fits.small, here, past, Nat.add_zero] at split
    rw [countOnes_eq, split]
  rw [← ones, read]
  rfl

def onesBelow (m : μ) (p : Cursor w) (place : Nat) : Nat := (List.range place).countP (bitsAt m p)

theorem add_ones_spec (held : Holds m p n) {offset stop : Nat} (total : Nat)
    (started : offset ≤ stop) (within : stop ≤ n) :
    ∃ sum, addOnes m p stop offset total = some sum ∧
      sum + onesBelow m p offset = total + onesBelow m p stop := by
  refine p.sweepFrom_spec
    (fun k sum => sum + onesBelow m p offset = total + onesBelow m p k) ?_ started rfl
  intro chunk sum fits reached
  refine ⟨_, count_chunk_eq sum (fits.mono within) held, ?_⟩
  have further := countP_range_add (bitsAt m p) chunk.offset chunk.width
  rw [← onesBelow, ← onesBelow] at further
  omega

theorem add_lanes_spec (held : Holds m p n) {offset : Nat} (total : Nat) (within : offset ≤ n) :
    ∃ reached sum, addLanes m p n offset total = some (reached, sum) ∧ reached ≤ n ∧
      sum + onesBelow m p offset = total + onesBelow m p reached := by
  fun_induction addLanes m p n offset total with
  | case1 offset total positive room ih =>
      obtain ⟨ones, added, here⟩ :=
        add_ones_spec held 0 (Nat.le_add_right offset (lane * w)) room
      obtain ⟨reached, sum, passed, inside, further⟩ := ih ones room
      exact ⟨reached, sum, by simp [added, passed], inside, by omega⟩
  | case2 offset total positive short => exact ⟨offset, total, rfl, within, rfl⟩

theorem count_onesBelow (value : Bool) (held : Holds m p n) :
    count m p n value = some (if value then onesBelow m p n else n - onesBelow m p n) := by
  have within := p.head_le n
  obtain ⟨first, before, headed⟩ := add_ones_spec held 0 (Nat.zero_le (p.head n)) within
  obtain ⟨reached, sum, passed, inside, laned⟩ := add_lanes_spec held first within
  obtain ⟨ones, after, whole⟩ := add_ones_spec held sum inside (Nat.le_refl n)
  have none : onesBelow m p 0 = 0 := rfl
  have all : ones = onesBelow m p n := by omega
  rw [← all]
  simp [count, before, passed, after]

theorem count_eq (value : Bool) (held : Holds m p n) :
    count m p n value = some ((List.range n).countP fun i => bitsAt m p i == value) := by
  rw [count_onesBelow value held]
  cases value with
  | true =>
      have same : onesBelow m p n = (List.range n).countP fun i => bitsAt m p i == true :=
        countP_range_congr fun i _ => (beq_true _).symm
      exact congrArg some same
  | false =>
      have all := List.length_eq_countP_add_countP (bitsAt m p) (l := List.range n)
      have others : (List.range n).countP (fun i => decide ¬ bitsAt m p i = true) =
          (List.range n).countP fun i => bitsAt m p i == false :=
        countP_range_congr fun i _ => by cases bitsAt m p i <;> rfl
      rw [List.length_range, others, ← onesBelow] at all
      exact congrArg some (Nat.sub_eq_of_eq_add (by omega))

end

end PackedBits
