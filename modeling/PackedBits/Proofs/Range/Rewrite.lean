import PackedBits.Proofs.Range.Pieces

/-! What a step of a pass does to the bits of its piece. Filling, moving and combining all write to
each place of a run what they make of the memory as the step finds it. Where nothing that is still
to be read has been written, this is what they make of the memory before the first step; wherever
the runs lie, no step reaches outside of the run that is written. -/
namespace PackedBits
variable {μ : Type} {w : Nat} [Memory μ w]

/-- The `k` bits of a run from `offset` on have become what `new` tells of the memory before. -/
def Rewritten (new : μ → Nat → Bool) (target : Cursor w) (offset k : Nat) (m m' : μ) : Prop :=
  Overwritten m m' (target + offset) k fun i => new m (offset + i)

namespace Rewritten
variable {new : μ → Nat → Bool} {ready : μ → Prop} {target : Cursor w} {n : Nat} {m m' : μ}

theorem altered {offset k : Nat} (rewritten : Rewritten new target offset k m m')
    (held : Holds m target n) (within : offset + k ≤ n) : Altered m m' (target.Covers n) :=
  (Overwritten.altered rewritten (held.part within)).mono fun _ _ => Cursor.covers_part within

theorem progress (held : Holds m target n)
    (prepared : ∀ {m₁}, Altered m m₁ (target.Covers n) → ready m₁)
    (unread : ∀ {offset i m₁}, Altered m m₁ (target.Covers offset) → offset ≤ i → i < n →
      new m₁ i = new m i) :
    Progress ready (Rewritten new target) n fun offset m₁ =>
      Overwritten m m₁ target offset (new m) where
  ready within before :=
    prepared ((before.altered (held.lower within)).mono fun _ _ ⟨here, low, high⟩ =>
      ⟨here, low, by omega⟩)
  advance within before step := before.append <| Overwritten.congr step fun i below =>
    unread (before.altered (held.lower (by omega))) (Nat.le_add_right _ i) (by omega)

theorem progressBack (held : Holds m target n)
    (prepared : ∀ {m₁}, Altered m m₁ (target.Covers n) → ready m₁)
    (unread : ∀ {offset i m₁}, offset ≤ n →
      Altered m m₁ ((target + offset).Covers (n - offset)) → i < offset → new m₁ i = new m i) :
    ProgressBack ready (Rewritten new target) n fun offset m₁ =>
      Overwritten m m₁ (target + offset) (n - offset) fun i => new m (offset + i) where
  ready {offset m₁} within before := by
    have inside : offset + (n - offset) ≤ n := by omega
    exact prepared ((before.altered (held.part inside)).mono fun _ _ => Cursor.covers_part inside)
  advance {offset k m₁ m₂} within before step := by
    have altered := before.altered (held.part (by omega))
    rw [← Cursor.forward_forward] at before
    simp only [Nat.add_assoc] at before
    have here : Overwritten m₁ m₂ (target + offset) k fun i => new m (offset + i) :=
      Overwritten.congr step fun i below => unread within altered (by omega)
    have joined : Overwritten m m₂ (target + offset) (k + (n - (offset + k))) fun i =>
        new m (offset + i) := .prepend before here
    rwa [show k + (n - (offset + k)) = n - offset by omega] at joined

theorem progress_altered (held : Holds m target n)
    (prepared : ∀ {m₁}, Altered m m₁ (target.Covers n) → ready m₁) :
    Progress ready (Rewritten new target) n fun _ m₁ => Altered m m₁ (target.Covers n) where
  ready _ before := prepared before
  advance within before step := before.trans (step.altered (before.holds held) within)

theorem progressBack_altered (held : Holds m target n)
    (prepared : ∀ {m₁}, Altered m m₁ (target.Covers n) → ready m₁) :
    ProgressBack ready (Rewritten new target) n fun _ m₁ => Altered m m₁ (target.Covers n) where
  ready _ before := prepared before
  advance within before step := before.trans (step.altered (before.holds held) within)

end Rewritten

theorem Fits.small {p : Cursor w} {n : Nat} {chunk : Chunk} (fits : Fits p n chunk) :
    chunk.width ≤ w := Nat.le_trans (Nat.le_add_left ..) fits.oneWord

theorem readBits_chunk {m : μ} {p target : Cursor w} {n : Nat} {chunk : Chunk}
    (fits : Fits target n chunk) (held : Holds m p n) :
    ∃ word, readBits m (p + chunk.offset) chunk.width = some word ∧
      ∀ i, word.getLsbD i = (decide (i < chunk.width) && bitsAt m p (chunk.offset + i)) := by
  obtain ⟨word, read, bits⟩ := readBits_eq m (p + chunk.offset) chunk.width fits.nonempty fits.small
    (held.part fits.inside)
  refine ⟨word, read, fun i => ?_⟩
  rw [bits, ← bitsAt_forward]
  rfl

namespace Masked
variable {p q : Cursor w} {n index : Nat} {chunk : Chunk} {mask : BitVec w} {m : μ}

omit [Memory μ w] in
theorem inWord (masked : Masked p n chunk index mask) {i : Nat} (below : i < chunk.width) :
    (p.bit + chunk.offset) % w + i < w := by
  have := masked.oneWord
  omega

omit [Memory μ w] in
theorem selected (masked : Masked p n chunk index mask) {i : Nat} (below : i < chunk.width) :
    mask.getLsbD ((p.bit + chunk.offset) % w + i) = true := by
  rw [masked.selects _ (masked.inWord below)]
  exact decide_eq_true ⟨Nat.le_add_right _ i, Nat.add_lt_add_left below _⟩

omit [Memory μ w] in
theorem address (masked : Masked p n chunk index mask) (same : q.bit = p.bit) :
    (q + chunk.offset).address = q.wordAddress index ∧
      (q + chunk.offset).bit = (p.bit + chunk.offset) % w := by
  rw [← masked.index, ← same]
  exact ⟨rfl, rfl⟩

theorem loaded (masked : Masked p n chunk index mask) (same : q.bit = p.bit)
    (held : Holds m q n) :
    ∃ word, Memory.load m (q.wordAddress index) = some word ∧ ∀ i < chunk.width,
      word.getLsbD ((p.bit + chunk.offset) % w + i) = bitsAt m q (chunk.offset + i) := by
  obtain ⟨address, bit⟩ := masked.address same
  have found := ((held.part masked.inside).load masked.nonempty masked.toFits.small).1
  obtain ⟨word, isWord⟩ := Option.isSome_iff_exists.mp found
  refine ⟨word, by rw [← address, isWord], fun i below => ?_⟩
  rw [← bitsAt_forward, bitsAt,
    (q + chunk.offset).bit?_here m i (by rw [bit]; exact masked.inWord below), isWord, bit]
  rfl

variable [LawfulMemory μ w]

theorem store (masked : Masked p n chunk index mask) (new : Nat → Bool) (same : q.bit = p.bit)
    {old word : BitVec w} (loaded : Memory.load m (q.wordAddress index) = some old)
    (outside : ∀ i < w, mask.getLsbD i = false → word.getLsbD i = old.getLsbD i)
    (inside : ∀ i < chunk.width,
      word.getLsbD ((p.bit + chunk.offset) % w + i) = new (chunk.offset + i)) :
    ∃ m', Memory.store m (q.wordAddress index) word = some m' ∧
      Overwritten m m' (q + chunk.offset) chunk.width fun i => new (chunk.offset + i) := by
  obtain ⟨address, bit⟩ := masked.address same
  rw [← address] at loaded ⊢
  obtain ⟨m', stored, became⟩ := store_run_overwritten loaded
    (by rw [bit]; exact masked.oneWord) fun i below apart => outside i below (by
      rw [masked.selects i below]
      rw [bit] at apart
      exact decide_eq_false apart)
  refine ⟨m', stored, became.congr fun i below => ?_⟩
  rw [bit, inside i below]

theorem blend (masked : Masked p n chunk index mask) (same : q.bit = p.bit) (held : Holds m q n)
    {value : BitVec w} {new : Nat → Bool} (inside : ∀ i < chunk.width,
      value.getLsbD ((p.bit + chunk.offset) % w + i) = new (chunk.offset + i)) :
    ∃ m', blend m (q.wordAddress index) value mask = some m' ∧
      Overwritten m m' (q + chunk.offset) chunk.width fun i => new (chunk.offset + i) := by
  obtain ⟨old, loaded, -⟩ := masked.loaded same held
  have outside (i : Nat) (below : i < w) (clear : mask.getLsbD i = false) :
      ((value &&& mask) ||| (old &&& ~~~mask)).getLsbD i = old.getLsbD i := by
    rw [BitVec.getLsbD_or, BitVec.getLsbD_and, BitVec.getLsbD_and, BitVec.getLsbD_not, clear,
      decide_eq_true below, Bool.and_false, Bool.false_or, Bool.not_false, Bool.true_and,
      Bool.and_true]
  have selected (i : Nat) (below : i < chunk.width) :
      ((value &&& mask) ||| (old &&& ~~~mask)).getLsbD ((p.bit + chunk.offset) % w + i) =
        new (chunk.offset + i) := by
    rw [BitVec.getLsbD_or, BitVec.getLsbD_and, BitVec.getLsbD_and, BitVec.getLsbD_not,
      masked.selected below, inside i below, Bool.not_true, Bool.and_false, Bool.and_false,
      Bool.or_false, Bool.and_true]
  obtain ⟨m', stored, became⟩ := masked.store new same loaded outside selected
  exact ⟨m', by rw [PackedBits.blend, loaded]; exact stored, became⟩

end Masked

variable [LawfulMemory μ w]

theorem Whole.store {p q : Cursor w} {n offset count i : Nat} {m : μ} {word : BitVec w}
    (whole : Whole p n offset count) (new : Nat → Bool) (below : i < count) (same : q.bit = p.bit)
    (held : Holds m q n) (bits : ∀ j < w, word.getLsbD j = new (offset + i * w + j)) :
    ∃ m', Memory.store m (q.wordAddress ((p.bit + offset) / w + i)) word = some m' ∧
      Overwritten m m' (q + (offset + i * w)) w fun j => new (offset + i * w + j) := by
  have masked := whole.masked below
  obtain ⟨old, loaded, -⟩ := masked.loaded same held
  apply masked.store new same loaded
  · intro j below clear
    rw [BitVec.getLsbD_allOnes, decide_eq_true below] at clear
    cases clear
  · intro j below
    rw [whole.bit ‹i < count›, Nat.zero_add]
    exact bits j below

theorem writeBits_chunk {m : μ} {p target : Cursor w} {n : Nat} {chunk : Chunk}
    (fits : Fits target n chunk) (held : Holds m p n) (word : BitVec w) (new : Nat → Bool)
    (bits : ∀ i < chunk.width, word.getLsbD i = new (chunk.offset + i)) :
    ∃ m', writeBits m (p + chunk.offset) chunk.width word = some m' ∧
      Overwritten m m' (p + chunk.offset) chunk.width fun i => new (chunk.offset + i) := by
  obtain ⟨m', written, became⟩ := writeBits_overwritten m (p + chunk.offset) chunk.width word
    fits.nonempty fits.small (held.part fits.inside)
  exact ⟨m', written, became.congr bits⟩

end PackedBits
