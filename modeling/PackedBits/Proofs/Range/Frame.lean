import PackedBits.BitRef
import PackedBits.Range.Combine
import PackedBits.Proofs.Range.Rotate

/-! What the other operations on runs do and leave alone. Each succeeds on held runs and alters
nothing outside the one it writes, however the runs overlap; combining and the calls on references
to single bits are told bit for bit. -/
namespace PackedBits
variable {μ : Type} {w : Nat} [Memory μ w]

theorem Fits.readPair {m : μ} {p first second : Cursor w} {n : Nat} {chunk : Chunk}
    (fits : Fits p n chunk) (heldFirst : Holds m first n) (heldSecond : Holds m second n) :
    ∃ a b, readPair m first second chunk = some (a, b) ∧
      (∀ i, a.getLsbD i = (decide (i < chunk.width) && bitsAt m first (chunk.offset + i))) ∧
      ∀ i, b.getLsbD i = (decide (i < chunk.width) && bitsAt m second (chunk.offset + i)) := by
  obtain ⟨a, readA, bitsA⟩ := readBits_chunk fits heldFirst
  obtain ⟨b, readB, bitsB⟩ := readBits_chunk fits heldSecond
  exact ⟨a, b, by simp [PackedBits.readPair, readA, readB], bitsA, bitsB⟩

def BitOp.onBits (op : BitOp) (a b : Bool) : Bool :=
  match op with
  | .and => a && b
  | .or => a || b
  | .xor => a ^^ b
  | .andNot => a && !b

omit [Memory μ w] in
theorem getLsbD_apply (op : BitOp) (a b : BitVec w) {i : Nat} (below : i < w) :
    (op.apply a b).getLsbD i = op.onBits (a.getLsbD i) (b.getLsbD i) := by
  cases op with
  | and => exact BitVec.getLsbD_and
  | or => exact BitVec.getLsbD_or
  | xor => exact BitVec.getLsbD_xor
  | andNot =>
      show (a &&& ~~~b).getLsbD i = (a.getLsbD i && !b.getLsbD i)
      rw [BitVec.getLsbD_and, BitVec.getLsbD_not, decide_eq_true below, Bool.true_and]

/-- What combining makes of the bits of two runs. -/
def pairBits (op : BitOp) (first second : Cursor w) (m : μ) (i : Nat) : Bool :=
  op.onBits (bitsAt m first i) (bitsAt m second i)

def Combinable (first second target : Cursor w) (n : Nat) (m : μ) : Prop :=
  Holds m first n ∧ Holds m second n ∧ Holds m target n

theorem Combinable.altered {first second target : Cursor w} {n : Nat} {m m₁ : μ}
    {inside : Nat → Int → Prop} (combinable : Combinable first second target n m)
    (altered : Altered m m₁ inside) : Combinable first second target n m₁ :=
  ⟨altered.holds combinable.1, altered.holds combinable.2.1, altered.holds combinable.2.2⟩

section
variable [LawfulMemory μ w] {op : BitOp} {first second target : Cursor w} {n : Nat} {m : μ}

omit [LawfulMemory μ w] in
theorem Masked.loadedPair {chunk : Chunk} {index : Nat} {mask : BitVec w}
    (masked : Masked first n chunk index mask) (same : second.bit = first.bit) (op : BitOp)
    (combinable : Combinable first second target n m) :
    ∃ a b, Memory.load m (first.wordAddress index) = some a ∧
      Memory.load m (second.wordAddress index) = some b ∧ ∀ i < chunk.width,
        (op.apply a b).getLsbD ((first.bit + chunk.offset) % w + i) =
          pairBits op first second m (chunk.offset + i) := by
  obtain ⟨a, loadedA, bitsA⟩ := masked.loaded rfl combinable.1
  obtain ⟨b, loadedB, bitsB⟩ := masked.loaded same combinable.2.1
  refine ⟨a, b, loadedA, loadedB, fun i below => ?_⟩
  rw [getLsbD_apply op a b (masked.inWord below), bitsA i below, bitsB i below, pairBits]

theorem combineMasked_rewritten {chunk : Chunk} {index : Nat} {mask : BitVec w}
    (masked : Masked first n chunk index mask)
    (same : first.bit = target.bit ∧ second.bit = target.bit)
    (combinable : Combinable first second target n m) :
    ∃ m', combineMasked op first second target m index mask = some m' ∧
      Rewritten (pairBits op first second) target chunk.offset chunk.width m m' := by
  obtain ⟨a, b, loadedA, loadedB, bits⟩ :=
    masked.loadedPair (same.2.trans same.1.symm) op combinable
  obtain ⟨m', blended, became⟩ := masked.blend same.1.symm combinable.2.2 bits
  refine ⟨m', ?_, became⟩
  rw [combineMasked, loadedA, loadedB]
  exact blended

theorem combineWord_rewritten {offset count i : Nat} (whole : Whole first n offset count)
    (below : i < count) (same : first.bit = target.bit ∧ second.bit = target.bit)
    (combinable : Combinable first second target n m) :
    ∃ m', combineWord op first second target m ((first.bit + offset) / w + i) = some m' ∧
      Rewritten (pairBits op first second) target (offset + i * w) w m m' := by
  obtain ⟨a, b, loadedA, loadedB, bits⟩ :=
    (whole.masked below).loadedPair (same.2.trans same.1.symm) op combinable
  simp only [whole.bit below, Nat.zero_add] at bits
  obtain ⟨m', stored, became⟩ := whole.store _ below same.1.symm combinable.2.2 bits
  refine ⟨m', ?_, became⟩
  rw [combineWord, loadedA, loadedB]
  exact stored

omit [LawfulMemory μ w] in
theorem Fits.combined {p : Cursor w} {chunk : Chunk} (fits : Fits p n chunk) (op : BitOp)
    (combinable : Combinable first second target n m) :
    ∃ a b, PackedBits.readPair m first second chunk = some (a, b) ∧ ∀ i < chunk.width,
      (op.apply a b).getLsbD i = pairBits op first second m (chunk.offset + i) := by
  obtain ⟨a, b, read, bitsA, bitsB⟩ := fits.readPair combinable.1 combinable.2.1
  refine ⟨a, b, read, fun i below => ?_⟩
  rw [getLsbD_apply op a b (Nat.lt_of_lt_of_le below fits.small), bitsA, bitsB,
    decide_eq_true below, Bool.true_and, Bool.true_and, pairBits]

theorem combineChunk_rewritten {chunk : Chunk} (fits : Fits target n chunk)
    (combinable : Combinable first second target n m) :
    ∃ m', combineChunk op first second target m chunk = some m' ∧
      Rewritten (pairBits op first second) target chunk.offset chunk.width m m' := by
  obtain ⟨a, b, read, bits⟩ := fits.combined op combinable
  obtain ⟨m', written, became⟩ := writeBits_chunk fits combinable.2.2 _ _ bits
  exact ⟨m', by rw [combineChunk, read]; exact written, became⟩

theorem combineInto_rewritten {offset count i : Nat} (whole : Whole target n offset count)
    (below : i < count) (combinable : Combinable first second target n m) :
    ∃ m', combineInto op (first + offset) (second + offset) (target + offset) m i = some m' ∧
      Rewritten (pairBits op first second) target (offset + i * w) w m m' := by
  obtain ⟨a, b, read, bits⟩ := (whole.fits below).combined op combinable
  obtain ⟨m', stored, became⟩ := whole.store _ below rfl combinable.2.2 bits
  have there : readPair m (first + offset) (second + offset) ⟨i * w, w⟩ =
      readPair m first second ⟨offset + i * w, w⟩ := by
    simp only [readPair, Cursor.forward_forward]
  refine ⟨m', ?_, became⟩
  rw [combineInto, there, read, Cursor.wordAddress_forward]
  exact stored

theorem Progress.transform {holds : Nat → μ → Prop}
    (progress : Progress (Combinable first second target n)
      (Rewritten (pairBits op first second) target) n holds) (before : holds 0 m) :
    ∃ m', transform m op first n second target = some (m', target + n) ∧ holds n m' := by
  by_cases none : n = 0
  · subst none
    exact ⟨m, by rw [PackedBits.transform, if_pos rfl, Cursor.forward_zero], before⟩
  have combined : ∃ m', (if first.bit = target.bit ∧ second.bit = target.bit then
      transformAligned m op first n second target
      else transformUnaligned m op first n second target) = some m' ∧ holds n m' := by
    by_cases same : first.bit = target.bit ∧ second.bit = target.bit
    · rw [if_pos same]
      refine progress.maskedRun (fun masked ready => combineMasked_rewritten masked same ready)
        (fun whole here => ?_) (Nat.pos_of_ne_zero none) before
      exact progress.eachIndex whole (fun below ready => combineWord_rewritten whole below same ready)
        here
    · rw [if_neg same]
      refine progress.chunkedRun (fun fits ready => combineChunk_rewritten fits ready)
        (fun whole here => ?_) before
      refine progress.eachIndex whole (fun below ready => ?_) here
      rw [Nat.zero_add]
      exact combineInto_rewritten whole below ready
  obtain ⟨m', ran, after⟩ := combined
  exact ⟨m', by rw [PackedBits.transform, if_neg none, ran]; rfl, after⟩

end

section
variable [LawfulMemory μ w]

theorem transform_overwritten (m : μ) (op : BitOp) (first : Cursor w) (n : Nat)
    (second target : Cursor w) (heldFirst : Holds m first n) (heldSecond : Holds m second n)
    (heldTarget : Holds m target n) (orderFirst : Ascending first target n)
    (orderSecond : Ascending second target n) :
    ∃ m', transform m op first n second target = some (m', target + n) ∧
      Overwritten m m' target n fun i => op.onBits (bitsAt m first i) (bitsAt m second i) := by
  have progress : Progress (Combinable first second target n)
      (Rewritten (pairBits op first second) target) n fun offset m₁ =>
        Overwritten m m₁ target offset (pairBits op first second m) := by
    refine Rewritten.progress heldTarget
      (Combinable.altered ⟨heldFirst, heldSecond, heldTarget⟩) fun altered above below => ?_
    -- Only places below are written by now, and no input has bits there from here on.
    rw [pairBits, altered.bitsAt (orderFirst.unread above below),
      altered.bitsAt (orderSecond.unread above below), pairBits]
  exact progress.transform (.nil m target _)

theorem transform_altered (m : μ) (op : BitOp) (first : Cursor w) (n : Nat)
    (second target : Cursor w) (heldFirst : Holds m first n) (heldSecond : Holds m second n)
    (heldTarget : Holds m target n) :
    ∃ m', transform m op first n second target = some (m', target + n) ∧
      Altered m m' (target.Covers n) :=
  (Rewritten.progress_altered heldTarget
    (Combinable.altered ⟨heldFirst, heldSecond, heldTarget⟩)).transform (.refl m _)

theorem copy_altered (m : μ) (source : Cursor w) (n : Nat) (target : Cursor w)
    (heldSource : Holds m source n) (heldTarget : Holds m target n) :
    ∃ m', copy m source n target = some (m', target + n) ∧ Altered m m' (target.Covers n) :=
  (Rewritten.progress_altered heldTarget (Movable.altered ⟨heldSource, heldTarget⟩)).copy
    (.refl m _)

theorem copy_backward_altered (m : μ) (source : Cursor w) (n : Nat) (stop : Cursor w)
    (heldSource : Holds m source n) (heldTarget : Holds m (stop - n) n) :
    ∃ m', copyBackward m source n stop = some (m', stop - n) ∧
      Altered m m' ((stop - n).Covers n) := by
  have copied := (Rewritten.progressBack_altered heldTarget
    (Movable.altered ⟨heldSource, heldTarget⟩)).copyBackward (.refl m _)
  rwa [Cursor.backward_forward] at copied

theorem swap_ranges_altered (m : μ) (first : Cursor w) (n : Nat) (second : Cursor w)
    (heldFirst : Holds m first n) (heldSecond : Holds m second n) :
    ∃ m', swapRanges m first n second = some (m', second + n) ∧
      Altered m m' fun buffer position =>
        first.Covers n buffer position ∨ second.Covers n buffer position :=
  (Traded.progress ⟨heldFirst, heldSecond⟩).swapRanges (.refl m _)

end

section References

theorem ref_get (m : μ) (p : Cursor w) (held : Holds m p 1) :
    p.ref.get m = some (bitsAt m p 0) :=
  readBit_held m p held

variable [LawfulMemory μ w]

theorem ref_set_overwritten (m : μ) (p : Cursor w) (value : Bool) (held : Holds m p 1) :
    ∃ m', p.ref.set value m = some m' ∧ Overwritten m m' p 1 fun _ => value :=
  writeBit_overwritten m p value held

theorem ref_flip_overwritten (m : μ) (p : Cursor w) (held : Holds m p 1) :
    ∃ m', p.ref.flip m = some m' ∧ Overwritten m m' p 1 fun _ => !bitsAt m p 0 := by
  have found := (held.load Nat.one_pos (Nat.succ_le_of_lt p.width_pos)).1
  obtain ⟨old, loaded⟩ := Option.isSome_iff_exists.mp found
  have same (i : Nat) (other : i ≠ p.bit) : (old ^^^ p.mask).getLsbD i = old.getLsbD i := by
    simp [getLsbD_mask, other]
  obtain ⟨m', stored, written⟩ := store_overwritten loaded same
  refine ⟨m', by simp only [BitRef.flip, Cursor.ref, loaded, Option.bind_eq_bind,
    Option.bind_some, stored], written.congr fun i _ => ?_⟩
  rw [bitsAt, p.bit?_here m 0 p.bit_lt, loaded]
  simp [getLsbD_mask]

def BitRef.Call.onBit : BitRef.Call → Bool → Option Bool × Bool
  | .get, bit => (some bit, bit)
  | .set value, _ => (none, value)
  | .reset, _ => (none, false)
  | .flip, bit => (none, !bit)
  | .replace value, bit => (some bit, value)
  | .andWith value, bit => (none, bit && value)
  | .orWith value, bit => (none, bit || value)
  | .xorWith value, bit => (none, bit ^^ value)

theorem ref_call_overwritten (m : μ) (p : Cursor w) (call : BitRef.Call) (held : Holds m p 1) :
    ∃ m', p.ref.call m call = some ((call.onBit (bitsAt m p 0)).1, m') ∧
      Overwritten m m' p 1 fun _ => (call.onBit (bitsAt m p 0)).2 := by
  have read := ref_get m p held
  have unchanged : Overwritten m m p 1 fun _ => bitsAt m p 0 :=
    (Overwritten.self held).congr fun i below => by rw [Nat.lt_one_iff.mp below]
  have setting (value : Bool) := ref_set_overwritten m p value held
  obtain ⟨mFlip, flipped, becameFlip⟩ := ref_flip_overwritten m p held
  cases call with
  | get => exact ⟨m, by simp only [BitRef.call, BitRef.Call.onBit, read, Option.map_some], unchanged⟩
  | set value =>
      obtain ⟨m', set, became⟩ := setting value
      exact ⟨m', by simp only [BitRef.call, BitRef.Call.onBit, set, Option.map_some], became⟩
  | reset =>
      obtain ⟨m', set, became⟩ := setting false
      exact ⟨m', by simp only [BitRef.call, BitRef.Call.onBit, BitRef.reset, set, Option.map_some],
        became⟩
  | flip =>
      exact ⟨mFlip, by simp only [BitRef.call, BitRef.Call.onBit, flipped, Option.map_some],
        becameFlip⟩
  | replace value =>
      obtain ⟨m', set, became⟩ := setting value
      have replaced : p.ref.call m (.replace value) = some (some (bitsAt m p 0), m') := by
        simp only [BitRef.call, BitRef.replace, read, set, Option.bind_eq_bind, Option.bind_some,
          Option.pure_def, Option.map_some]
      exact ⟨m', replaced, became⟩
  | andWith value =>
      cases value with
      | true => exact ⟨m, rfl, unchanged.congr fun _ _ => (Bool.and_true _).symm⟩
      | false =>
          obtain ⟨m', set, became⟩ := setting false
          exact ⟨m', by simp [BitRef.call, BitRef.Call.onBit, BitRef.andWith, BitRef.reset, set],
            became.congr fun _ _ => (Bool.and_false _).symm⟩
  | orWith value =>
      cases value with
      | true =>
          obtain ⟨m', set, became⟩ := setting true
          exact ⟨m', by simp [BitRef.call, BitRef.Call.onBit, BitRef.orWith, set],
            became.congr fun _ _ => (Bool.or_true _).symm⟩
      | false => exact ⟨m, rfl, unchanged.congr fun _ _ => (Bool.or_false _).symm⟩
  | xorWith value =>
      cases value with
      | true =>
          exact ⟨mFlip, by simp [BitRef.call, BitRef.Call.onBit, BitRef.xorWith, flipped],
            becameFlip.congr fun _ _ => (Bool.xor_true _).symm⟩
      | false => exact ⟨m, rfl, unchanged.congr fun _ _ => (Bool.xor_false _).symm⟩

theorem ref_swap_overwritten {m : μ} {p : Cursor w} {n a b : Nat} (held : Holds m p n)
    (belowA : a < n) (belowB : b < n) :
    ∃ m', (p + a).ref.swap (p + b).ref m = some m' ∧ Overwritten m m' p n fun i =>
      if i = b then bitsAt m p a else if i = a then bitsAt m p b else bitsAt m p i := by
  have readA : (p + a).ref.get m = some (bitsAt m p a) := readBit_part held belowA
  have readB : (p + b).ref.get m = some (bitsAt m p b) := readBit_part held belowB
  by_cases alike : bitsAt m p a = bitsAt m p b
  · refine ⟨m, by simp [BitRef.swap, readA, readB, alike], ?_⟩
    refine (Overwritten.self held).congr fun i _ => ?_
    by_cases atB : i = b
    · rw [if_pos atB, atB, alike]
    · rw [if_neg atB]
      by_cases atA : i = a
      · rw [if_pos atA, atA, alike]
      · rw [if_neg atA]
  · obtain ⟨m₁, setA, becameA⟩ :=
      ref_set_overwritten m (p + a) (bitsAt m p b) (held.part belowA)
    have partA := (Overwritten.self held).part becameA belowA
    obtain ⟨m₂, setB, becameB⟩ := ref_set_overwritten m₁ (p + b) (bitsAt m p a)
      (((partA.altered held).holds held).part belowB)
    refine ⟨m₂, by simp [BitRef.swap, readA, readB, alike, setA, setB], ?_⟩
    refine (partA.part becameB belowB).congr fun i _ => ?_
    simp only [show (b ≤ i ∧ i < b + 1) = (i = b) from propext (by omega),
      show (a ≤ i ∧ i < a + 1) = (i = a) from propext (by omega)]

end References

end PackedBits
