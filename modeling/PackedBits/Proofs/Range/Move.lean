import PackedBits.Range.Move
import PackedBits.Proofs.Range.Rewrite

/-! What moving runs of bits does, bit for bit. Every step of a move, be it under a mask, by whole
words or through the two words that feed one, writes to a part of the destination the bits that the
source has there when the step begins. So both paths of a move carry on the same statements: that the
bits passed are those of the source, as long as no step reads what an earlier one wrote, and, however
the runs lie, that nothing outside of the destination has changed. -/
namespace PackedBits
variable {μ : Type} {w : Nat} [Memory μ w]

theorem readBit_held (m : μ) (p : Cursor w) (held : Holds m p 1) :
    readBit m p = some (bitsAt m p 0) := by
  have found := held 0 Nat.one_pos
  rw [Int.natCast_zero, Int.add_zero] at found
  obtain ⟨value, bit⟩ := Option.isSome_iff_exists.mp found
  simp [readBit_eq m p held, bitsAt, bit]

theorem readBit_part {m : μ} {p : Cursor w} {n i : Nat} (held : Holds m p n) (below : i < n) :
    readBit m (p + i) = some (bitsAt m p i) := by
  rw [readBit_held m (p + i) (held.part below), bitsAt_forward, Nat.add_zero]

/-- Two runs may be worked on in ascending order: they are apart, or the one written does not start
above the one read. -/
def Ascending (source target : Cursor w) (n : Nat) : Prop :=
  source.buffer ≠ target.buffer ∨ target.position ≤ source.position ∨
    source.position + n ≤ target.position

def Descending (source target : Cursor w) (n : Nat) : Prop :=
  source.buffer ≠ target.buffer ∨ source.position ≤ target.position ∨
    target.position + n ≤ source.position

section
variable {source target : Cursor w} {n k i : Nat}

theorem Ascending.unread (order : Ascending source target n) (above : k ≤ i) (below : i < n) :
    ¬ target.Covers k source.buffer (source.position + i) := by
  rintro ⟨same, low, high⟩
  rcases order with apart | below | above
  · exact apart same
  · omega
  · omega

theorem Descending.unread (order : Descending source target n) (below : i < k) (within : k ≤ n) :
    ¬ (target + k).Covers (n - k) source.buffer (source.position + i) := by
  simp only [Cursor.Covers, Cursor.buffer_forward, Cursor.position_forward]
  rintro ⟨same, low, high⟩
  rcases order with apart | below | above
  · exact apart same
  · omega
  · omega

end

def Movable (source target : Cursor w) (n : Nat) (m : μ) : Prop :=
  Holds m source n ∧ Holds m target n

theorem Movable.altered {source target : Cursor w} {n : Nat} {m m₁ : μ}
    {inside : Nat → Int → Prop} (movable : Movable source target n m)
    (altered : Altered m m₁ inside) : Movable source target n m₁ :=
  ⟨altered.holds movable.1, altered.holds movable.2⟩

omit [Memory μ w] in
theorem Cursor.bit_of_forward {p q : Cursor w} {offset : Nat}
    (same : (p + offset).bit = (q + offset).bit) : p.bit = q.bit := by
  have alike : (p.bit + offset) % w = (q.bit + offset) % w := same
  have above := Nat.sub_mod_eq_zero_of_mod_eq alike
  have below := Nat.sub_mod_eq_zero_of_mod_eq alike.symm
  have := p.bit_lt
  have := q.bit_lt
  rw [Nat.mod_eq_of_lt (by omega)] at above below
  omega

/-- A word that is put together from two holds the bits of a run that goes from the one into the
other. -/
theorem feed_bits {m : μ} {p : Cursor w} (held : Holds m p w) (inside : p.bit ≠ 0) :
    ∃ low high, Memory.load m p.address = some low ∧ Memory.load m p.nextAddress = some high ∧
      ∀ i < w, ((low >>> p.bit) ||| (high <<< (w - p.bit))).getLsbD i = bitsAt m p i := by
  obtain ⟨first, second⟩ := held.load p.width_pos (Nat.le_refl w)
  obtain ⟨low, isLow⟩ := Option.isSome_iff_exists.mp first
  obtain ⟨high, isHigh⟩ := Option.isSome_iff_exists.mp (second (by omega))
  refine ⟨low, high, isLow, isHigh, fun i below => ?_⟩
  have here := p.bit_lt
  rw [BitVec.getLsbD_or, BitVec.getLsbD_ushiftRight, BitVec.getLsbD_shiftLeft, bitsAt,
    decide_eq_true below, Bool.true_and]
  by_cases inLow : p.bit + i < w
  · rw [p.bit?_here m i inLow, isLow, decide_eq_true (show i < w - p.bit by omega), Bool.not_true,
      Bool.false_and, Bool.or_false]
    rfl
  · rw [p.bit?_after m i (by omega) (by omega), isHigh, BitVec.getLsbD_of_ge low _ (by omega),
      decide_eq_false (show ¬ i < w - p.bit by omega), Bool.not_false, Bool.true_and,
      Bool.false_or, show i - (w - p.bit) = p.bit + i - w by omega]
    rfl

section
variable [LawfulMemory μ w] {source target : Cursor w} {n : Nat} {m : μ}

theorem moveMasked_rewritten {chunk : Chunk} {index : Nat} {mask : BitVec w}
    (masked : Masked source n chunk index mask) (same : source.bit = target.bit)
    (movable : Movable source target n m) :
    ∃ m', moveMasked source target m index mask = some m' ∧
      Rewritten (bitsAt · source) target chunk.offset chunk.width m m' := by
  obtain ⟨word, loaded, bits⟩ := masked.loaded rfl movable.1
  obtain ⟨m', blended, became⟩ := masked.blend same.symm movable.2 bits
  exact ⟨m', by rw [moveMasked, loaded]; exact blended, became⟩

omit [LawfulMemory μ w] in
theorem loadWords_eq {offset count : Nat} (whole : Whole source n offset count)
    (held : Holds m source n) :
    ∃ words, loadWords source m ((source.bit + offset) / w) count = some words ∧
      words.size = count ∧ ∀ i < count, ∃ word, words[i]? = some word ∧
        ∀ j < w, word.getLsbD j = bitsAt m source (offset + i * w + j) := by
  refine eachIndex_spec (fun k (words : Array (BitVec w)) => words.size = k ∧
    ∀ i < k, ∃ word, words[i]? = some word ∧
      ∀ j < w, word.getLsbD j = bitsAt m source (offset + i * w + j))
    ?_ ⟨rfl, fun i none => absurd none (Nat.not_lt_zero i)⟩
  rintro k below words ⟨rfl, before⟩
  obtain ⟨word, loaded, bits⟩ := (whole.masked below).loaded rfl held
  rw [whole.bit below] at bits
  simp only [Nat.zero_add] at bits
  refine ⟨words.push word, by rw [loaded]; rfl, Array.size_push word, fun i inside => ?_⟩
  rcases Nat.lt_succ_iff_lt_or_eq.mp inside with earlier | rfl
  · rw [Array.getElem?_push_lt earlier, ← Array.getElem?_eq_getElem earlier]
    exact before i earlier
  · exact ⟨word, Array.getElem?_push_size, bits⟩

theorem moveWords_rewritten {offset count : Nat} (whole : Whole source n offset count)
    (same : source.bit = target.bit) (movable : Movable source target n m) :
    ∃ m', moveWords source target m ((source.bit + offset) / w) count = some m' ∧
      Rewritten (bitsAt · source) target offset (count * w) m m' := by
  obtain ⟨words, loaded, -, bits⟩ := loadWords_eq whole movable.1
  rw [moveWords, loaded]
  -- What has been written is the beginning of the words; the bits to write have all been read.
  have stored (k : Nat) (below : k < count) (m₁ : μ)
      (before : Overwritten m m₁ (target + offset) (k * w) fun i => bitsAt m source (offset + i)) :
      ∃ m₂, storeWord target words ((source.bit + offset) / w) m₁ (0 + k) = some m₂ ∧
        Overwritten m m₂ (target + offset) ((k + 1) * w) fun i => bitsAt m source (offset + i) := by
    have inside := (whole.fits below).inside
    have held := (before.altered (movable.2.part (Nat.le_of_add_right_le inside))).holds movable.2
    obtain ⟨word, found, places⟩ := bits k below
    obtain ⟨m₂, put, became⟩ := whole.store _ below same.symm held places
    refine ⟨m₂, by rw [Nat.zero_add, storeWord, found]; exact put, ?_⟩
    rw [Nat.succ_mul]
    rw [← Cursor.forward_forward] at became
    simp only [Nat.add_assoc] at became
    exact before.append became
  exact eachIndex_spec _ stored (by rw [Nat.zero_mul]; exact .nil m _ _)

theorem moveChunk_rewritten {p : Cursor w} {chunk : Chunk} (fits : Fits p n chunk)
    (movable : Movable source target n m) :
    ∃ m', moveChunk source target m chunk = some m' ∧
      Rewritten (bitsAt · source) target chunk.offset chunk.width m m' := by
  obtain ⟨word, read, bits⟩ := readBits_chunk fits movable.1
  obtain ⟨m', written, became⟩ := writeBits_chunk fits movable.2 word (bitsAt m source)
    fun i below => by rw [bits, decide_eq_true below, Bool.true_and]
  exact ⟨m', by simp only [moveChunk, read, written, Option.bind_eq_bind, Option.bind_some],
    became⟩

theorem feedWord_rewritten {offset count i : Nat} (whole : Whole target n offset count)
    (below : i < count) (unlike : source.bit ≠ target.bit) (movable : Movable source target n m) :
    ∃ m', feedWord (source + offset) (target + offset) m i = some m' ∧
      Rewritten (bitsAt · source) target (offset + i * w) w m m' := by
  -- The word of the target begins at a boundary, so the bits of the source that it gets do not.
  have inside : (source + (offset + i * w)).bit ≠ 0 := fun none =>
    unlike (Cursor.bit_of_forward (none.trans (whole.bit below).symm))
  obtain ⟨low, high, isLow, isHigh, bits⟩ :=
    feed_bits (movable.1.part (whole.fits below).inside) inside
  simp only [bitsAt_forward] at bits
  obtain ⟨m', stored, became⟩ := whole.store _ below rfl movable.2 bits
  have bit : (source + offset).bit = (source + (offset + i * w)).bit := by
    show (source.bit + offset) % w = (source.bit + (offset + i * w)) % w
    rw [← Nat.add_assoc, Nat.add_mul_mod_self_right]
  have first : (source + offset).wordAddress i = (source + (offset + i * w)).address := by
    rw [Cursor.wordAddress_forward, ← Whole.index]
    rfl
  have second : (source + offset).wordAddress (i + 1) =
      (source + (offset + i * w)).nextAddress := by
    rw [Cursor.wordAddress_forward, ← Nat.add_assoc, ← Whole.index]
    show Address.mk _ _ = Address.mk _ _
    rw [Int.natCast_add, ← Int.add_assoc]
    rfl
  refine ⟨m', ?_, became⟩
  rw [feedWord, first, second, isLow, isHigh, bit, Cursor.wordAddress_forward]
  exact stored

/-- Both paths of a forward copy carry on what every step of it does. -/
theorem Progress.copy {holds : Nat → μ → Prop}
    (progress : Progress (Movable source target n) (Rewritten (bitsAt · source) target) n holds)
    (before : holds 0 m) :
    ∃ m', copy m source n target = some (m', target + n) ∧ holds n m' := by
  by_cases none : n = 0
  · subst none
    exact ⟨m, by rw [PackedBits.copy, if_pos rfl, Cursor.forward_zero], before⟩
  have copied : ∃ m', (if source.bit = target.bit then copyAligned m source n target
      else copyUnaligned m source n target) = some m' ∧ holds n m' := by
    by_cases same : source.bit = target.bit
    · rw [if_pos same]
      exact progress.maskedRun (fun masked => moveMasked_rewritten masked same)
        (fun whole => progress.pass whole.inside (moveWords_rewritten whole same))
        (Nat.pos_of_ne_zero none) before
    · rw [if_neg same]
      refine progress.chunkedRun (fun fits movable => moveChunk_rewritten fits movable)
        (fun whole here => ?_) before
      refine progress.eachIndex whole (fun below movable => ?_) here
      rw [Nat.zero_add]
      exact feedWord_rewritten whole below same movable
  obtain ⟨m', ran, after⟩ := copied
  exact ⟨m', by rw [PackedBits.copy, if_neg none, ran]; rfl, after⟩

theorem ProgressBack.copyBackward {holds : Nat → μ → Prop}
    (progress : ProgressBack (Movable source target n) (Rewritten (bitsAt · source) target) n holds)
    (before : holds n m) :
    ∃ m', copyBackward m source n (target + n) = some (m', target) ∧ holds 0 m' := by
  by_cases none : n = 0
  · subst none
    exact ⟨m, by rw [PackedBits.copyBackward, if_pos rfl, Cursor.forward_zero], before⟩
  have copied : ∃ m', (if source.bit = target.bit then copyBackwardAligned m source n target
      else copyBackwardUnaligned m source n target (target + n)) = some m' ∧ holds 0 m' := by
    by_cases same : source.bit = target.bit
    · rw [if_pos same]
      exact progress.maskedRunBack (fun masked => moveMasked_rewritten masked same)
        (fun whole => progress.pass whole.inside (moveWords_rewritten whole same))
        (Nat.pos_of_ne_zero none) before
    · rw [if_neg same]
      refine progress.chunkedRunBack (fun fits movable => moveChunk_rewritten fits movable)
        (fun whole here => ?_) before
      refine progress.eachIndexBack whole (fun below movable => ?_) here
      rw [Nat.zero_add]
      exact feedWord_rewritten whole below same movable
  obtain ⟨m', ran, after⟩ := copied
  have start : target + n - n = target := Cursor.ext_position rfl (by simp)
  refine ⟨m', ?_, after⟩
  simp only [PackedBits.copyBackward, if_neg none, start, ran, Option.bind_eq_bind,
    Option.bind_some, Option.pure_def]

end

variable [LawfulMemory μ w]

theorem copy_overwritten (m : μ) (source : Cursor w) (n : Nat) (target : Cursor w)
    (heldSource : Holds m source n) (heldTarget : Holds m target n)
    (order : Ascending source target n) :
    ∃ m', copy m source n target = some (m', target + n) ∧
      Overwritten m m' target n (bitsAt m source) := by
  have progress : Progress (Movable source target n) (Rewritten (bitsAt · source) target) n
      fun offset m₁ => Overwritten m m₁ target offset (bitsAt m source) :=
    Rewritten.progress heldTarget (Movable.altered ⟨heldSource, heldTarget⟩)
      fun altered above below => altered.bitsAt (order.unread above below)
  exact progress.copy (.nil m target _)

theorem copy_backward_overwritten (m : μ) (source : Cursor w) (n : Nat) (target : Cursor w)
    (heldSource : Holds m source n) (heldTarget : Holds m target n)
    (order : Descending source target n) :
    ∃ m', copyBackward m source n (target + n) = some (m', target) ∧
      Overwritten m m' target n (bitsAt m source) := by
  have progress : ProgressBack (Movable source target n) (Rewritten (bitsAt · source) target) n
      fun offset m₁ => Overwritten m m₁ (target + offset) (n - offset) fun i =>
        bitsAt m source (offset + i) :=
    Rewritten.progressBack heldTarget (Movable.altered ⟨heldSource, heldTarget⟩)
      fun within altered below => altered.bitsAt (order.unread below within)
  have start : Overwritten m m (target + n) (n - n) fun i => bitsAt m source (n + i) := by
    rw [Nat.sub_self]
    exact .nil m _ _
  obtain ⟨m', ran, became⟩ := progress.copyBackward start
  refine ⟨m', ran, ?_⟩
  simpa only [Cursor.forward_zero, Nat.sub_zero, Nat.zero_add] using became

end PackedBits
