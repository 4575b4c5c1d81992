import PackedBits.Word

/-! The bits of masks and patterns, one fact for each, what the search for a set bit finds, and the
number of set bits. -/
namespace PackedBits
variable {w : Nat}

@[simp] theorem getLsbD_maskFrom (low i : Nat) :
    (maskFrom w low).getLsbD i = (decide (low ≤ i) && decide (i < w)) := by
  rw [maskFrom, BitVec.getLsbD_shiftLeft, BitVec.getLsbD_allOnes]
  by_cases below : i < w <;> by_cases reached : low ≤ i <;> simp [below, reached]
  omega

@[simp] theorem getLsbD_maskTo (high i : Nat) :
    (maskTo w high).getLsbD i = (decide (i < high) && decide (i < w)) := by
  rw [maskTo, BitVec.getLsbD_ushiftRight, BitVec.getLsbD_allOnes, ← Bool.decide_and,
    decide_eq_decide]
  omega

@[simp] theorem getLsbD_maskRange (low high i : Nat) :
    (maskRange w low high).getLsbD i = (decide (low ≤ i) && decide (i < high) && decide (i < w)) := by
  rw [maskRange, BitVec.getLsbD_and, getLsbD_maskFrom, getLsbD_maskTo]
  by_cases below : i < w <;> simp [below]

@[simp] theorem getLsbD_splat (value : Bool) (i : Nat) :
    (splat w value).getLsbD i = (value && decide (i < w)) := by
  cases value <;> simp [splat]

/-- The search for a set bit from `i` on passes clear bits only and stops at a set one, or at the
width. -/
theorem firstSetFrom_spec (word : BitVec w) {i : Nat} (within : i ≤ w) :
    i ≤ firstSetFrom word i ∧ firstSetFrom word i ≤ w ∧
      (∀ j, i ≤ j → j < firstSetFrom word i → word.getLsbD j = false) ∧
      (firstSetFrom word i < w → word.getLsbD (firstSetFrom word i) = true) := by
  fun_induction firstSetFrom word i with
  | case1 i below here => exact ⟨Nat.le_refl i, within, fun j low high => by omega, fun _ => here⟩
  | case2 i below clear ih =>
      obtain ⟨low, high, passed, stop⟩ := ih below
      refine ⟨by omega, high, fun j above under => ?_, stop⟩
      by_cases first : j = i
      · subst first
        simpa using clear
      · exact passed j (by omega) under
  | case3 i last => exact ⟨within, Nat.le_refl w, fun j low high => by
      simp [BitVec.getLsbD_of_ge word j (by omega)], fun small => by omega⟩

theorem cpopNatRec_eq_countP (word : BitVec w) (n : Nat) :
    word.cpopNatRec n 0 = (List.range n).countP word.getLsbD := by
  induction n with
  | zero => rfl
  | succ n ih =>
      rw [BitVec.cpopNatRec_succ, BitVec.cpopNatRec_eq, ih, List.range_succ, List.countP_append,
        List.countP_singleton, Nat.zero_add]
      cases word.getLsbD n <;> rfl

theorem countOnes_eq (word : BitVec w) : countOnes word = (List.range w).countP word.getLsbD := by
  rw [countOnes, BitVec.toNat_cpop, cpopNatRec_eq_countP]

end PackedBits
