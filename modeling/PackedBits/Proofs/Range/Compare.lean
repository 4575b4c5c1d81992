import PackedBits.Proofs.Range.Frame

/-! What taking two runs together tells. Going through the chunks of both, each chunk of the one
beside the chunk of the other, is going through their pairs of bits: two runs are equal when all
pairs are, and an operation yields a set bit when it does on some pair. Runs that lie alike in their
words are compared where they lie, all others after shifting; both tell the same. -/namespace PackedBits
variable {μ : Type} {w : Nat} [Memory μ w]

section
variable {m : μ} {first second : Cursor w} {n : Nat}

theorem words_eq_iff {chunk : Chunk} {a b : BitVec w}
    (bitsA : ∀ i, a.getLsbD i = (decide (i < chunk.width) && bitsAt m first (chunk.offset + i)))
    (bitsB : ∀ i, b.getLsbD i = (decide (i < chunk.width) && bitsAt m second (chunk.offset + i))) :
    a = b ↔ ∀ i < chunk.width,
      bitsAt m first (chunk.offset + i) = bitsAt m second (chunk.offset + i) := by
  constructor
  · rintro rfl i below
    have both := (bitsA i).symm.trans (bitsB i)
    simpa [below] using both
  · intro same
    refine BitVec.eq_of_getLsbD_eq fun i _ => ?_
    rw [bitsA, bitsB]
    by_cases below : i < chunk.width
    · rw [same i below]
    · simp [below]

theorem apply_eq_zero_iff {op : BitOp} {chunk : Chunk} {a b : BitVec w} (small : chunk.width ≤ w)
    (bitsA : ∀ i, a.getLsbD i = (decide (i < chunk.width) && bitsAt m first (chunk.offset + i)))
    (bitsB : ∀ i, b.getLsbD i = (decide (i < chunk.width) && bitsAt m second (chunk.offset + i))) :
    op.apply a b = 0#w ↔ ∀ i < chunk.width,
      op.onBits (bitsAt m first (chunk.offset + i)) (bitsAt m second (chunk.offset + i)) =
        false := by
  constructor
  · intro clear i below
    have bit := congrArg (·.getLsbD i) clear
    simpa [getLsbD_apply op a b (show i < w by omega), bitsA, bitsB, below] using bit
  · intro none
    refine BitVec.eq_of_getLsbD_eq fun i inside => ?_
    rw [getLsbD_apply op a b inside, bitsA, bitsB, BitVec.getLsbD_zero]
    by_cases below : i < chunk.width
    · simpa [below] using none i below
    · cases op <;> simp [below, BitOp.onBits]

theorem Fits.load {p : Cursor w} {chunk : Chunk} (fits : Fits p n chunk) (held : Holds m p n) :
    ∃ word, Memory.load m (p + chunk.offset).address = some word ∧
      (p + chunk.offset).bit + chunk.width ≤ w ∧
      ∀ i < chunk.width,
        word.getLsbD ((p + chunk.offset).bit + i) = bitsAt m p (chunk.offset + i) := by
  have oneWord : (p + chunk.offset).bit + chunk.width ≤ w := fits.oneWord
  have part := held.part fits.inside
  obtain ⟨word, loaded⟩ := Option.isSome_iff_exists.mp (part.load fits.nonempty fits.small).1
  refine ⟨word, loaded, oneWord, fun i below => ?_⟩
  rw [← bitsAt_forward, bitsAt, (p + chunk.offset).bit?_here m i (by omega), loaded]
  rfl

omit [Memory μ w] in
theorem masked_eq_zero_iff {a b : BitVec w} {bit width : Nat} (inside : bit + width ≤ w) :
    (a ^^^ b) &&& maskRange w bit (bit + width) = 0#w ↔
      ∀ i < width, a.getLsbD (bit + i) = b.getLsbD (bit + i) := by
  constructor
  · intro clear i below
    have place : ((a ^^^ b) &&& maskRange w bit (bit + width)).getLsbD (bit + i) = false := by
      rw [clear, BitVec.getLsbD_zero]
    have selected : (maskRange w bit (bit + width)).getLsbD (bit + i) = true := by
      simp [below, show bit + i < w by omega]
    rw [BitVec.getLsbD_and, selected, Bool.and_true, BitVec.getLsbD_xor] at place
    exact bne_eq_false_iff_eq.mp place
  · intro same
    refine BitVec.eq_of_getLsbD_eq fun k small => ?_
    rw [BitVec.getLsbD_and, BitVec.getLsbD_xor, getLsbD_maskRange, BitVec.getLsbD_zero]
    by_cases selected : bit ≤ k ∧ k < bit + width
    · have alike := same (k - bit) (by omega)
      rw [Nat.add_sub_cancel' selected.1] at alike
      rw [alike, Bool.xor_self, Bool.false_and]
    · rw [← Bool.decide_and, decide_eq_false selected, Bool.false_and, Bool.and_false]

theorem compare_in_place_chunk {chunk : Chunk} (fits : Fits first n chunk)
    (aligned : first.bit = second.bit) (heldFirst : Holds m first n) (heldSecond : Holds m second n)
    (before : ∀ i < chunk.offset, bitsAt m first i = bitsAt m second i) :
    (∃ answer : Unit, unlikeInPlace m first second chunk = some (some answer) ∧
        ¬ ∀ i < n, bitsAt m first i = bitsAt m second i) ∨
      (unlikeInPlace m first second chunk = some none ∧
        ∀ i < chunk.offset + chunk.width, bitsAt m first i = bitsAt m second i) := by
  have fitsSecond : Fits second n chunk := ⟨fits.nonempty, fits.inside, aligned ▸ fits.oneWord⟩
  have place : (second + chunk.offset).bit = (first + chunk.offset).bit := by
    show (second.bit + chunk.offset) % w = (first.bit + chunk.offset) % w
    rw [aligned]
  obtain ⟨a, loadedA, small, bitsA⟩ := fits.load heldFirst
  obtain ⟨b, loadedB, -, bitsB⟩ := fitsSecond.load heldSecond
  rw [place] at bitsB
  have inside := fits.inside
  have clear_iff : _ ↔ ∀ i < chunk.width, _ := masked_eq_zero_iff (a := a) (b := b) small
  by_cases clear : (a ^^^ b) &&& maskRange w (first + chunk.offset).bit
      ((first + chunk.offset).bit + chunk.width) = 0#w
  · refine .inr ⟨by simp [unlikeInPlace, loadedA, loadedB, clear], forall_chunk before ?_⟩
    intro i below
    rw [← bitsA i below, ← bitsB i below]
    exact clear_iff.mp clear i below
  · refine .inl ⟨(), by simp [unlikeInPlace, loadedA, loadedB, clear], fun all => clear ?_⟩
    refine clear_iff.mpr fun i below => ?_
    rw [bitsA i below, bitsB i below]
    exact all _ (by omega)

theorem compare_shifted_chunk {chunk : Chunk} (fits : Fits first n chunk) (heldFirst : Holds m first n)
    (heldSecond : Holds m second n)
    (before : ∀ i < chunk.offset, bitsAt m first i = bitsAt m second i) :
    (∃ answer : Unit, unlikeShifted m first second chunk = some (some answer) ∧
        ¬ ∀ i < n, bitsAt m first i = bitsAt m second i) ∨
      (unlikeShifted m first second chunk = some none ∧
        ∀ i < chunk.offset + chunk.width, bitsAt m first i = bitsAt m second i) := by
  obtain ⟨a, b, read, bitsA, bitsB⟩ := fits.readPair heldFirst heldSecond
  have inside := fits.inside
  by_cases same : a = b
  · right
    exact ⟨by simp [unlikeShifted, read, same],
      forall_chunk before ((words_eq_iff bitsA bitsB).mp same)⟩
  · left
    refine ⟨(), by simp [unlikeShifted, read, same], fun all => same ?_⟩
    exact (words_eq_iff bitsA bitsB).mpr fun i below => all _ (by omega)

/-- Either way of comparing finds an unlike pair in a chunk, or carries what is known to its end. -/
theorem compare_chunk {chunk : Chunk} (fits : Fits first n chunk) (heldFirst : Holds m first n)
    (heldSecond : Holds m second n)
    (before : ∀ i < chunk.offset, bitsAt m first i = bitsAt m second i) :
    let visit := if first.bit = second.bit then unlikeInPlace m else unlikeShifted m
    (∃ answer : Unit, visit first second chunk = some (some answer) ∧
        ¬ ∀ i < n, bitsAt m first i = bitsAt m second i) ∨
      (visit first second chunk = some none ∧
        ∀ i < chunk.offset + chunk.width, bitsAt m first i = bitsAt m second i) := by
  split
  case isTrue aligned => exact compare_in_place_chunk fits aligned heldFirst heldSecond before
  case isFalse => exact compare_shifted_chunk fits heldFirst heldSecond before

theorem equal_eq (heldFirst : Holds m first n) (heldSecond : Holds m second n) :
    equal m first n second = some (decide (∀ i < n, bitsAt m first i = bitsAt m second i)) := by
  rcases first.seek_spec (fun k => ∀ i < k, bitsAt m first i = bitsAt m second i) _
    (fun chunk fits before => compare_chunk fits heldFirst heldSecond before)
    (fun i below => absurd below (Nat.not_lt_zero i)) with ⟨⟨⟩, sought, unlike⟩ | ⟨sought, alike⟩
  · rw [decide_eq_false unlike, equal, sought]
    rfl
  · rw [decide_eq_true alike, equal, sought]
    rfl

theorem test_chunk (op : BitOp) {chunk : Chunk} (fits : Fits first n chunk)
    (heldFirst : Holds m first n) (heldSecond : Holds m second n)
    (before : ∀ i < chunk.offset, op.onBits (bitsAt m first i) (bitsAt m second i) = false) :
    (∃ answer : Unit, (do
        let (a, b) ← readPair m first second chunk
        return if op.apply a b = 0#w then none else some ()) = some (some answer) ∧
        ∃ i < n, op.onBits (bitsAt m first i) (bitsAt m second i) = true) ∨
      ((do
        let (a, b) ← readPair m first second chunk
        return if op.apply a b = 0#w then none else some ()) = some none ∧
        ∀ i < chunk.offset + chunk.width,
          op.onBits (bitsAt m first i) (bitsAt m second i) = false) := by
  obtain ⟨a, b, read, bitsA, bitsB⟩ := fits.readPair heldFirst heldSecond
  have inside := fits.inside
  have clear : op.apply a b = 0#w ↔ _ := apply_eq_zero_iff fits.small bitsA bitsB
  by_cases zero : op.apply a b = 0#w
  · exact .inr ⟨by simp [read, zero], forall_chunk before (clear.mp zero)⟩
  · left
    refine ⟨(), by simp [read, zero], ?_⟩
    refine Decidable.by_contra fun none => zero (clear.mpr fun i below => ?_)
    rw [← Bool.not_eq_true]
    exact fun yields => none ⟨_, by omega, yields⟩

theorem anyOf_eq (op : BitOp) (heldFirst : Holds m first n) (heldSecond : Holds m second n) :
    anyOf m op first n second =
      some (decide (∃ i < n, op.onBits (bitsAt m first i) (bitsAt m second i) = true)) := by
  rcases first.seek_spec
    (fun k => ∀ i < k, op.onBits (bitsAt m first i) (bitsAt m second i) = false) _
    (fun chunk fits before => test_chunk op fits heldFirst heldSecond before)
    (fun i below => absurd below (Nat.not_lt_zero i)) with ⟨⟨⟩, sought, some⟩ | ⟨sought, none⟩
  · rw [decide_eq_true some, anyOf, sought]
    rfl
  · rw [decide_eq_false fun ⟨i, below, yields⟩ => by simp [none i below] at yields, anyOf, sought]
    rfl

end

end PackedBits
