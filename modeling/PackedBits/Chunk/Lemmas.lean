import PackedBits.Chunk

/-! Sweeps and seeks by what holds at the boundaries of chunks. Every chunk is nonempty, stays
inside one word of the cursor it was cut for and inside its run; the chunks follow one another
without gap or overlap. So what each chunk carries on from one of its ends to the other is carried
on over the whole run. -/
namespace PackedBits

/-- A chunk of `n` bits at a cursor: nonempty, inside the run and inside one word. -/
structure Fits {w : Nat} (p : Cursor w) (n : Nat) (chunk : Chunk) : Prop where
  nonempty : 0 < chunk.width
  inside : chunk.offset + chunk.width ≤ n
  oneWord : (p.bit + chunk.offset) % w + chunk.width ≤ w

theorem Fits.mono {w : Nat} {p : Cursor w} {stop n : Nat} {chunk : Chunk}
    (fits : Fits p stop chunk) (within : stop ≤ n) : Fits p n chunk :=
  ⟨fits.nonempty, Nat.le_trans fits.inside within, fits.oneWord⟩

namespace Cursor
variable {w : Nat} {σ α : Type} (p : Cursor w)

@[simp] theorem sweep_zero (step : σ → Chunk → Option σ) (state : σ) :
    p.sweep 0 step state = some state := by
  rw [sweep, sweepFrom, if_neg (Nat.lt_irrefl 0)]

@[simp] theorem seekFrom_zero (visit : Chunk → Option (Option α)) (offset : Nat) :
    p.seekFrom 0 visit offset = some none := by
  rw [seekFrom, if_neg (Nat.not_lt_zero offset)]

@[simp] theorem seek_zero (visit : Chunk → Option (Option α)) : p.seek 0 visit = some none :=
  p.seekFrom_zero visit 0

@[simp] theorem seekBack_zero (visit : Chunk → Option (Option α)) :
    p.seekBack 0 visit = some none := by
  rw [seekBack, if_neg (Nat.lt_irrefl 0)]

theorem chunkFrom_fits {n offset : Nat} (more : offset < n) : Fits p n (p.chunkFrom n offset) where
  nonempty := p.chunkFrom_width_pos more
  inside := by
    simp only [chunkFrom]
    omega
  oneWord := by
    have := Nat.mod_lt (p.bit + offset) p.width_pos
    simp only [chunkFrom]
    omega

theorem chunkBefore_end {stop : Nat} :
    (p.chunkBefore stop).offset + (p.chunkBefore stop).width = stop := by
  simp only [chunkBefore]
  omega

include p in
theorem mod_sub (position back : Nat) (within : back ≤ position % w) :
    (position - back) % w = position % w - back := by
  have split := Nat.div_add_mod position w
  have below := Nat.mod_lt position p.width_pos
  have place : position - back = w * (position / w) + (position % w - back) := by omega
  rw [place, Nat.mul_add_mod, Nat.mod_eq_of_lt (by omega)]

theorem chunkBefore_fits {stop n : Nat} (more : 0 < stop) (within : stop ≤ n) :
    Fits p n (p.chunkBefore stop) where
  nonempty := by
    simp only [chunkBefore]
    omega
  inside := by rw [chunkBefore_end]; exact within
  oneWord := by
    have below := Nat.mod_lt (p.bit + (stop - 1)) p.width_pos
    simp only [chunkBefore]
    by_cases last : stop ≤ (p.bit + (stop - 1)) % w + 1
    · rw [Nat.min_eq_left last, Nat.sub_self, Nat.add_zero, Nat.mod_eq_of_lt p.bit_lt]
      have := p.mod_sub (p.bit + (stop - 1)) (stop - 1) (by omega)
      rw [Nat.add_sub_cancel, Nat.mod_eq_of_lt p.bit_lt] at this
      omega
    · have := p.mod_sub (p.bit + (stop - 1)) ((p.bit + (stop - 1)) % w)
        (Nat.le_refl _)
      rw [Nat.min_eq_right (by omega), show p.bit + (stop - ((p.bit + (stop - 1)) % w + 1)) =
        p.bit + (stop - 1) - (p.bit + (stop - 1)) % w by omega, this]
      omega

variable {n : Nat} {step : σ → Chunk → Option σ} {visit : Chunk → Option (Option α)}

theorem sweepFrom_spec (holds : Nat → σ → Prop)
    (advance : ∀ chunk state, Fits p n chunk → holds chunk.offset state →
      ∃ next, step state chunk = some next ∧ holds (chunk.offset + chunk.width) next)
    {offset : Nat} {state : σ} (within : offset ≤ n) (before : holds offset state) :
    ∃ final, p.sweepFrom n step offset state = some final ∧ holds n final := by
  fun_induction sweepFrom p n step offset state with
  | case1 offset state more chunk ih =>
      have fits := p.chunkFrom_fits more
      obtain ⟨next, taken, after⟩ := advance _ state fits before
      obtain ⟨final, finished, reached⟩ := ih next fits.inside after
      exact ⟨final, by simp [chunk, taken, finished], reached⟩
  | case2 offset state last =>
      have arrived : offset = n := by omega
      exact ⟨state, rfl, arrived ▸ before⟩

theorem sweep_spec (holds : Nat → σ → Prop)
    (advance : ∀ chunk state, Fits p n chunk → holds chunk.offset state →
      ∃ next, step state chunk = some next ∧ holds (chunk.offset + chunk.width) next)
    {state : σ} (before : holds 0 state) :
    ∃ final, p.sweep n step state = some final ∧ holds n final :=
  p.sweepFrom_spec holds advance (Nat.zero_le n) before

theorem seekFrom_spec (passed : Nat → Prop) (found : α → Prop)
    (advance : ∀ chunk, Fits p n chunk → passed chunk.offset →
      (∃ answer, visit chunk = some (some answer) ∧ found answer) ∨
        (visit chunk = some none ∧ passed (chunk.offset + chunk.width)))
    {offset : Nat} (within : offset ≤ n) (before : passed offset) :
    (∃ answer, p.seekFrom n visit offset = some (some answer) ∧ found answer) ∨
      (p.seekFrom n visit offset = some none ∧ passed n) := by
  fun_induction seekFrom p n visit offset with
  | case1 offset more chunk ih =>
      have fits := p.chunkFrom_fits more
      rcases advance _ fits before with ⟨answer, hit, here⟩ | ⟨miss, after⟩
      · exact .inl ⟨answer, by simp [chunk, hit], here⟩
      · simpa [chunk, miss] using ih fits.inside after
  | case2 offset last =>
      have arrived : offset = n := by omega
      exact .inr ⟨rfl, arrived ▸ before⟩

theorem seek_spec (passed : Nat → Prop) (found : α → Prop)
    (advance : ∀ chunk, Fits p n chunk → passed chunk.offset →
      (∃ answer, visit chunk = some (some answer) ∧ found answer) ∨
        (visit chunk = some none ∧ passed (chunk.offset + chunk.width)))
    (before : passed 0) :
    (∃ answer, p.seek n visit = some (some answer) ∧ found answer) ∨
      (p.seek n visit = some none ∧ passed n) :=
  p.seekFrom_spec passed found advance (Nat.zero_le n) before

theorem seekBack_spec (passed : Nat → Prop) (found : α → Prop)
    (advance : ∀ chunk, Fits p n chunk → passed (chunk.offset + chunk.width) →
      (∃ answer, visit chunk = some (some answer) ∧ found answer) ∨
        (visit chunk = some none ∧ passed chunk.offset))
    {stop : Nat} (within : stop ≤ n) (before : passed stop) :
    (∃ answer, p.seekBack stop visit = some (some answer) ∧ found answer) ∨
      (p.seekBack stop visit = some none ∧ passed 0) := by
  fun_induction seekBack p stop visit with
  | case1 stop more chunk ih =>
      have fits := p.chunkBefore_fits more within
      rcases advance _ fits (p.chunkBefore_end ▸ before) with ⟨answer, hit, here⟩ | ⟨miss, after⟩
      · exact .inl ⟨answer, by simp [chunk, hit], here⟩
      · simpa [chunk, miss] using ih (Nat.le_trans (Nat.le_add_right ..) fits.inside) after
  | case2 stop last =>
      have arrived : stop = 0 := by omega
      exact .inr ⟨rfl, arrived ▸ before⟩

end Cursor

end PackedBits
