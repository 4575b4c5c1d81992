import PackedBits.Range.Pieces
import PackedBits.Chunk.Lemmas
import PackedBits.Proofs.Range.Overwrite

/-! Passes over the pieces of a run. However a run is cut, its pieces follow one another without gap
or overlap. So a statement about the bits that a pass has behind it, which every piece carries on,
holds of the whole run when the pass is over. What a pass may be asked to carry on is what its
operation does to the bits of a piece, told by the memory it finds there. -/
namespace PackedBits
variable {w : Nat}

section
variable {σ : Type} {step : σ → Nat → Option σ}

theorem eachIndex_spec (holds : Nat → σ → Prop) {start count : Nat} {state : σ}
    (advance : ∀ i < count, ∀ state, holds i state →
      ∃ next, step state (start + i) = some next ∧ holds (i + 1) next)
    (before : holds 0 state) :
    ∃ final, eachIndex step state start count = some final ∧ holds count final := by
  induction count generalizing holds start state with
  | zero => exact ⟨state, rfl, before⟩
  | succ count ih =>
    obtain ⟨next, taken, here⟩ := advance 0 (Nat.succ_pos count) state before
    have rest (i : Nat) (below : i < count) (state : σ) (now : holds (i + 1) state) :
        ∃ next, step state (start + 1 + i) = some next ∧ holds (i + 1 + 1) next := by
      have each := advance (i + 1) (Nat.succ_lt_succ below) state now
      rwa [← Nat.add_assoc, Nat.add_right_comm] at each
    obtain ⟨final, finished, reached⟩ := ih (fun i => holds (i + 1)) rest here
    exact ⟨final, by rw [eachIndex, show step state start = some next from taken]; exact finished,
      reached⟩

theorem eachIndexBack_spec (holds : Nat → σ → Prop) {start count : Nat} {state : σ}
    (advance : ∀ i < count, ∀ state, holds (i + 1) state →
      ∃ next, step state (start + i) = some next ∧ holds i next)
    (before : holds count state) :
    ∃ final, eachIndexBack step state start count = some final ∧ holds 0 final := by
  induction count generalizing state with
  | zero => exact ⟨state, rfl, before⟩
  | succ count ih =>
    obtain ⟨next, taken, here⟩ := advance count (Nat.lt_succ_self count) state before
    obtain ⟨final, finished, reached⟩ :=
      ih (fun i below => advance i (Nat.lt_succ_of_lt below)) here
    exact ⟨final, by rw [eachIndexBack, taken]; exact finished, reached⟩

end

structure Whole (p : Cursor w) (n offset count : Nat) : Prop where
  flush : 0 < count → (p.bit + offset) % w = 0
  inside : offset + count * w ≤ n

/-- A chunk lies in the word of a run that has the given index, and `mask` selects it there. -/
structure Masked (p : Cursor w) (n : Nat) (chunk : Chunk) (index : Nat) (mask : BitVec w) : Prop
    extends Fits p n chunk where
  index : (p.bit + chunk.offset) / w = index
  selects : ∀ i < w, mask.getLsbD i =
    decide ((p.bit + chunk.offset) % w ≤ i ∧ i < (p.bit + chunk.offset) % w + chunk.width)

namespace Whole
variable {p : Cursor w} {n offset count i : Nat}

theorem bit (whole : Whole p n offset count) (below : i < count) :
    (p.bit + (offset + i * w)) % w = 0 := by
  rw [← Nat.add_assoc, Nat.add_mul_mod_self_right]
  exact whole.flush (Nat.zero_lt_of_lt below)

theorem index (p : Cursor w) (offset i : Nat) :
    (p.bit + (offset + i * w)) / w = (p.bit + offset) / w + i := by
  rw [← Nat.add_assoc, Nat.add_mul_div_right _ _ p.width_pos]

theorem fits (whole : Whole p n offset count) (below : i < count) :
    Fits p n ⟨offset + i * w, w⟩ where
  nonempty := p.width_pos
  inside := by
    have words : (i + 1) * w ≤ count * w := Nat.mul_le_mul_right w below
    have inside := whole.inside
    rw [Nat.succ_mul] at words
    show offset + i * w + w ≤ n
    omega
  oneWord := Nat.le_of_eq (by rw [whole.bit below, Nat.zero_add])

theorem masked (whole : Whole p n offset count) (below : i < count) :
    Masked p n ⟨offset + i * w, w⟩ ((p.bit + offset) / w + i) (BitVec.allOnes w) where
  toFits := whole.fits below
  index := index p offset i
  selects i inWord := by
    rw [whole.bit below, BitVec.getLsbD_allOnes, Nat.zero_add, decide_eq_decide]
    exact ⟨fun below => ⟨Nat.zero_le i, below⟩, And.right⟩

end Whole

namespace Cursor
variable (p : Cursor w)

theorem wordAddress_forward (offset index : Nat) :
    (p + offset).wordAddress index = p.wordAddress ((p.bit + offset) / w + index) := by
  show Address.mk p.buffer (p.word + ((p.bit + offset) / w : Nat) + index) = _
  rw [Int.add_assoc, ← Int.natCast_add]
  rfl

end Cursor

theorem Fits.first {p : Cursor w} {n width : Nat} (some : 0 < width) (inside : width ≤ n)
    (oneWord : p.bit + width ≤ w) : Fits p n ⟨0, width⟩ where
  nonempty := some
  inside := by rwa [Nat.zero_add]
  oneWord := by rwa [Nat.add_zero, Nat.mod_eq_of_lt p.bit_lt]

namespace Masked
variable {p : Cursor w} {n offset index width : Nat}

theorem one (nonempty : 0 < n) (inside : p.bit + n ≤ w) :
    Masked p n ⟨0, n⟩ 0 (maskRange w p.bit (p.bit + n)) where
  toFits := .first nonempty (Nat.le_refl n) inside
  index := Nat.div_eq_of_lt p.bit_lt
  selects i below := by
    rw [getLsbD_maskRange, Nat.add_zero, Nat.mod_eq_of_lt p.bit_lt, decide_eq_true below,
      Bool.and_true, Bool.decide_and]

theorem toBoundary (inside : width ≤ n) (flush : p.bit + width = w) :
    Masked p n ⟨0, width⟩ 0 (maskFrom w p.bit) where
  toFits := .first (by have := p.bit_lt; omega) inside (Nat.le_of_eq flush)
  index := Nat.div_eq_of_lt p.bit_lt
  selects i below := by
    rw [Nat.add_zero, Nat.mod_eq_of_lt p.bit_lt, flush, getLsbD_maskFrom, Bool.decide_and]

theorem fromBoundary (flush : p.bit + offset = index * w) (some : 0 < width)
    (inside : offset + width ≤ n) (short : width ≤ w) :
    Masked p n ⟨offset, width⟩ index (maskTo w width) where
  nonempty := some
  inside := inside
  oneWord := by rwa [flush, Nat.mul_mod_left, Nat.zero_add]
  index := by rw [flush, Nat.mul_div_left _ p.width_pos]
  selects i below := by
    rw [flush, Nat.mul_mod_left, Nat.zero_add, getLsbD_maskTo, decide_eq_true below, Bool.and_true,
      decide_eq_decide]
    exact ⟨fun inTail => ⟨Nat.zero_le i, inTail⟩, And.right⟩

end Masked

/-- A run that leaves its first word is what is left of that, whole words, and less than a word. -/
structure MaskedCut (p : Cursor w) (n head start count : Nat) : Prop where
  aligned : p.bit = 0 → head = 0
  first : p.bit ≠ 0 → Masked p n ⟨0, head⟩ 0 (maskFrom w p.bit)
  whole : Whole p n head count
  index : (p.bit + head) / w = start
  last : (p + n).bit ≠ 0 →
    Masked p n ⟨head + count * w, (p + n).bit⟩ (start + count) (maskTo w (p + n).bit)
  ends : head + count * w + (p + n).bit = n

theorem Cursor.maskedCut (p : Cursor w) {n : Nat} (across : w < p.bit + n) :
    ∃ head start count, p.wholeWords (p + n) = (start, count) ∧
      MaskedCut p n head start count := by
  have here := p.bit_lt
  have split := Nat.div_add_mod' (p.bit + n) w
  have last : (p + n).bit = (p.bit + n) % w := rfl
  generalize isStart : (if p.bit = 0 then 0 else 1) = start
  generalize isHead : start * w - p.bit = head
  -- The whole words begin at the first boundary, which the run does not end before.
  have flush : p.bit + head = start * w := by
    split at isStart <;> subst isStart
    · omega
    · rw [Nat.one_mul] at isHead ⊢
      omega
  have within : start ≤ (p.bit + n) / w := by
    have := (Nat.one_le_div_iff p.width_pos).mpr (Nat.le_of_lt across)
    split at isStart <;> omega
  have words : ((p + n).word - (p.word + start)).toNat = (p.bit + n) / w - start := by
    show (p.word + ((p.bit + n) / w : Nat) - (p.word + start)).toNat = _
    omega
  have ends : head + ((p.bit + n) / w - start) * w + (p + n).bit = n := by
    rw [Nat.sub_mul]
    have := Nat.mul_le_mul_right w within
    omega
  have boundary : p.bit + (head + ((p.bit + n) / w - start) * w) =
      (start + ((p.bit + n) / w - start)) * w := by rw [← Nat.add_assoc, flush, Nat.add_mul]
  refine ⟨head, start, (p.bit + n) / w - start, by rw [wholeWords, isStart, words], ?_⟩
  refine ⟨fun none => ?_, fun some => ?_, ⟨fun _ => ?_, by omega⟩, ?_, fun some => ?_, ends⟩
  · rw [if_pos none] at isStart
    rw [← isHead, ← isStart, Nat.zero_mul, Nat.zero_sub]
  · rw [if_neg some] at isStart
    rw [← isStart, Nat.one_mul] at flush
    exact .toBoundary (by omega) flush
  · rw [flush, Nat.mul_mod_left]
  · rw [flush, Nat.mul_div_left _ p.width_pos]
  · exact .fromBoundary boundary (Nat.pos_of_ne_zero some) (Nat.le_of_eq ends)
      (Nat.le_of_lt (p + n).bit_lt)

/-- A run cut into chunks: up to a word boundary, whole words, and what is left. -/
structure ChunkedCut (p : Cursor w) (n head count rest : Nat) : Prop where
  first : 0 < head → Fits p n ⟨0, head⟩
  whole : Whole p n head count
  last : 0 < rest → Fits p n ⟨head + count * w, rest⟩
  ends : head + count * w + rest = n

theorem Cursor.headCut (p : Cursor w) (n : Nat) :
    ChunkedCut p n (p.headWidth n) ((n - p.headWidth n) / w) ((n - p.headWidth n) % w) := by
  have here := p.bit_lt
  generalize isHead : p.headWidth n = head
  rw [headWidth] at isHead
  have within : head ≤ n := by split at isHead <;> omega
  have oneWord : p.bit + head ≤ w := by split at isHead <;> omega
  -- Either the head is all there is, or it ends at a word boundary.
  have flush (more : head ≠ n) : (p.bit + head) % w = 0 := by
    split at isHead
    case isTrue none => rw [none, ← isHead, Nat.zero_add, Nat.zero_mod]
    case isFalse => rw [show p.bit + head = w by omega, Nat.mod_self]
  have split := Nat.div_add_mod' (n - head) w
  have short := Nat.mod_lt (n - head) p.width_pos
  refine ⟨fun some => .first some within oneWord, ⟨fun more => flush ?_, by omega⟩,
    fun some => ⟨some, ?_, ?_⟩, by omega⟩
  · rintro rfl
    rw [Nat.sub_self, Nat.zero_div] at more
    exact Nat.lt_irrefl 0 more
  · show head + (n - head) / w * w + (n - head) % w ≤ n
    omega
  · show (p.bit + (head + (n - head) / w * w)) % w + (n - head) % w ≤ w
    rw [← Nat.add_assoc, Nat.add_mul_mod_self_right, flush (by rintro rfl; simp at some)]
    omega

theorem Cursor.tailCut (p : Cursor w) (n : Nat) :
    ChunkedCut p n ((n - (p + n).tailWidth n) % w) ((n - (p + n).tailWidth n) / w)
      ((p + n).tailWidth n) := by
  have here := p.bit_lt
  have positive := p.width_pos
  have last : (p + n).bit = (p.bit + n) % w := rfl
  generalize isTail : (p + n).tailWidth n = tail
  rw [tailWidth, last] at isTail
  have below := Nat.mod_lt (p.bit + n) positive
  have within : tail ≤ n := by split at isTail <;> omega
  have inWord : tail ≤ (p.bit + n) % w := by split at isTail <;> omega
  have split := Nat.div_add_mod' (n - tail) w
  have short := Nat.mod_lt (n - tail) positive
  have begins : (p.bit + (n - tail)) % w = (p.bit + n) % w - tail := by
    rw [← Nat.add_sub_assoc within, p.mod_sub _ _ inWord]
  have place : (n - tail) % w + (n - tail) / w * w = n - tail := by omega
  -- Either the tail is all there is, or it begins at a word boundary.
  have flush (more : tail ≠ n) : (p.bit + (n - tail) % w) % w = 0 := by
    have boundary : (p.bit + (n - tail)) % w = 0 := by split at isTail <;> omega
    rwa [← place, ← Nat.add_assoc, Nat.add_mul_mod_self_right] at boundary
  refine ⟨fun some => .first some (by omega) ?_, ⟨fun more => flush ?_, by omega⟩,
    fun some => ⟨some, ?_, ?_⟩, by omega⟩
  · have boundary := flush (by rintro rfl; simp at some)
    apply Nat.le_of_not_lt
    intro crosses
    rw [Nat.mod_eq_sub_mod (Nat.le_of_lt crosses), Nat.mod_eq_of_lt (by omega)] at boundary
    omega
  · rintro rfl
    rw [Nat.sub_self, Nat.zero_div] at more
    exact Nat.lt_irrefl 0 more
  · show (n - tail) % w + (n - tail) / w * w + tail ≤ n
    omega
  · show (p.bit + ((n - tail) % w + (n - tail) / w * w)) % w + tail ≤ w
    rw [place, begins]
    omega

variable {μ : Type}

/-- What a pass over `n` bits carries on from their beginning: `holds` tells what is true of the
memory when the bits below an offset have been passed, and a step over more bits is one that the
memory is ready for. -/
structure Progress (ready : μ → Prop) (step : Nat → Nat → μ → μ → Prop) (n : Nat)
    (holds : Nat → μ → Prop) : Prop where
  ready {offset : Nat} {m : μ} : offset ≤ n → holds offset m → ready m
  advance {offset k : Nat} {m m' : μ} : offset + k ≤ n → holds offset m → step offset k m m' →
    holds (offset + k) m'

/-- What a pass carries on from the end: `holds` tells what is true when the bits from an offset on
have been passed. -/
structure ProgressBack (ready : μ → Prop) (step : Nat → Nat → μ → μ → Prop) (n : Nat)
    (holds : Nat → μ → Prop) : Prop where
  ready {offset : Nat} {m : μ} : offset ≤ n → holds offset m → ready m
  advance {offset k : Nat} {m m' : μ} : offset + k ≤ n → holds (offset + k) m → step offset k m m' →
    holds offset m'

section Passes
variable {ready : μ → Prop} {step : Nat → Nat → μ → μ → Prop} {holds : Nat → μ → Prop}
  {p : Cursor w} {n : Nat} {m : μ}

theorem Progress.pass (progress : Progress ready step n holds) {offset k : Nat}
    {result : Option μ} (inside : offset + k ≤ n)
    (works : ready m → ∃ m₁, result = some m₁ ∧ step offset k m m₁) (here : holds offset m) :
    ∃ m₁, result = some m₁ ∧ holds (offset + k) m₁ := by
  obtain ⟨m₁, done, taken⟩ := works (progress.ready (Nat.le_of_add_right_le inside) here)
  exact ⟨m₁, done, progress.advance inside here taken⟩

theorem ProgressBack.pass (progress : ProgressBack ready step n holds) {offset k : Nat}
    {result : Option μ} (inside : offset + k ≤ n)
    (works : ready m → ∃ m₁, result = some m₁ ∧ step offset k m m₁) (here : holds (offset + k) m) :
    ∃ m₁, result = some m₁ ∧ holds offset m₁ := by
  obtain ⟨m₁, done, taken⟩ := works (progress.ready inside here)
  exact ⟨m₁, done, progress.advance inside here taken⟩

theorem Progress.eachIndex (progress : Progress ready step n holds) {offset count start : Nat}
    {each : μ → Nat → Option μ} (whole : Whole p n offset count)
    (words : ∀ {i m₁}, i < count → ready m₁ →
      ∃ m₂, each m₁ (start + i) = some m₂ ∧ step (offset + i * w) w m₁ m₂)
    (before : holds offset m) :
    ∃ m', eachIndex each m start count = some m' ∧ holds (offset + count * w) m' := by
  refine eachIndex_spec (fun i m₁ => holds (offset + i * w) m₁) ?_ (by rwa [Nat.zero_mul])
  intro i below m₁ here
  rw [Nat.succ_mul, ← Nat.add_assoc]
  exact progress.pass (whole.fits below).inside (words below) here

theorem ProgressBack.eachIndexBack (progress : ProgressBack ready step n holds)
    {offset count start : Nat} {each : μ → Nat → Option μ} (whole : Whole p n offset count)
    (words : ∀ {i m₁}, i < count → ready m₁ →
      ∃ m₂, each m₁ (start + i) = some m₂ ∧ step (offset + i * w) w m₁ m₂)
    (before : holds (offset + count * w) m) :
    ∃ m', eachIndexBack each m start count = some m' ∧ holds offset m' := by
  have back (i : Nat) (below : i < count) (m₁ : μ) (here : holds (offset + (i + 1) * w) m₁) :
      ∃ m₂, each m₁ (start + i) = some m₂ ∧ holds (offset + i * w) m₂ := by
    rw [Nat.succ_mul, ← Nat.add_assoc] at here
    exact progress.pass (whole.fits below).inside (words below) here
  have finish := eachIndexBack_spec (fun i m₁ => holds (offset + i * w) m₁) back before
  rwa [Nat.zero_mul, Nat.add_zero] at finish

section Masked
variable {part : μ → Nat → BitVec w → Option μ} {words : μ → Nat → Nat → Option μ}

theorem Progress.maskedRun (progress : Progress ready step n holds)
    (parts : ∀ {chunk index mask m₁}, Masked p n chunk index mask → ready m₁ →
      ∃ m₂, part m₁ index mask = some m₂ ∧ step chunk.offset chunk.width m₁ m₂)
    (wholes : ∀ {offset count m₁}, Whole p n offset count → holds offset m₁ →
      ∃ m₂, words m₁ ((p.bit + offset) / w) count = some m₂ ∧ holds (offset + count * w) m₂)
    (nonempty : 0 < n) (before : holds 0 m) :
    ∃ m', maskedRun part words m p n = some m' ∧ holds n m' := by
  have through {chunk index mask m₁} (masked : Masked p n chunk index mask)
      (here : holds chunk.offset m₁) :
      ∃ m₂, part m₁ index mask = some m₂ ∧ holds (chunk.offset + chunk.width) m₂ :=
    progress.pass masked.inside (parts masked) here
  by_cases inside : p.bit + n ≤ w
  · obtain ⟨m', done, after⟩ := through (.one nonempty inside) before
    exact ⟨m', by rw [PackedBits.maskedRun, if_pos inside, done], by rwa [Nat.zero_add] at after⟩
  obtain ⟨head, start, count, isCut, cut⟩ := p.maskedCut (Nat.lt_of_not_le inside)
  have headed : ∃ m₁, maskedHead part m p = some m₁ ∧ holds head m₁ := by
    by_cases none : p.bit = 0
    · exact ⟨m, if_pos none, by rwa [cut.aligned none]⟩
    · obtain ⟨m₁, done, after⟩ := through (cut.first none) before
      exact ⟨m₁, by rw [maskedHead, if_neg none, done], by rwa [Nat.zero_add] at after⟩
  obtain ⟨m₁, begun, first⟩ := headed
  obtain ⟨m₂, passed, second⟩ := wholes cut.whole first
  rw [cut.index] at passed
  have tailed : ∃ m', maskedTail part m₂ (start + count) (p + n) = some m' ∧ holds n m' := by
    have ends := cut.ends
    by_cases none : (p + n).bit = 0
    · rw [none, Nat.add_zero] at ends
      exact ⟨m₂, if_pos none, ends ▸ second⟩
    · obtain ⟨m', done, after⟩ := through (cut.last none) second
      exact ⟨m', by rw [maskedTail, if_neg none, done], ends ▸ after⟩
  obtain ⟨m', finished, third⟩ := tailed
  refine ⟨m', ?_, third⟩
  simp only [PackedBits.maskedRun, if_neg inside, isCut, begun, passed, finished,
    Option.bind_eq_bind, Option.bind_some]

theorem ProgressBack.maskedRunBack (progress : ProgressBack ready step n holds)
    (parts : ∀ {chunk index mask m₁}, Masked p n chunk index mask → ready m₁ →
      ∃ m₂, part m₁ index mask = some m₂ ∧ step chunk.offset chunk.width m₁ m₂)
    (wholes : ∀ {offset count m₁}, Whole p n offset count → holds (offset + count * w) m₁ →
      ∃ m₂, words m₁ ((p.bit + offset) / w) count = some m₂ ∧ holds offset m₂)
    (nonempty : 0 < n) (before : holds n m) :
    ∃ m', maskedRunBack part words m p n = some m' ∧ holds 0 m' := by
  have through {chunk index mask} (m₁ : μ) (masked : Masked p n chunk index mask)
      (here : holds (chunk.offset + chunk.width) m₁) :
      ∃ m₂, part m₁ index mask = some m₂ ∧ holds chunk.offset m₂ :=
    progress.pass masked.inside (parts masked) here
  by_cases inside : p.bit + n ≤ w
  · obtain ⟨m', done, after⟩ := through m (.one nonempty inside) (by rwa [Nat.zero_add])
    exact ⟨m', by rw [PackedBits.maskedRunBack, if_pos inside, done], after⟩
  obtain ⟨head, start, count, isCut, cut⟩ := p.maskedCut (Nat.lt_of_not_le inside)
  have tailed : ∃ m₁, maskedTail part m (start + count) (p + n) = some m₁ ∧
      holds (head + count * w) m₁ := by
    have ends := cut.ends
    by_cases none : (p + n).bit = 0
    · rw [none, Nat.add_zero] at ends
      exact ⟨m, if_pos none, ends ▸ before⟩
    · obtain ⟨m₁, done, after⟩ := through m (cut.last none) (by rwa [← ends] at before)
      exact ⟨m₁, by rw [maskedTail, if_neg none, done], after⟩
  obtain ⟨m₁, begun, first⟩ := tailed
  obtain ⟨m₂, passed, second⟩ := wholes cut.whole first
  rw [cut.index] at passed
  have headed : ∃ m', maskedHead part m₂ p = some m' ∧ holds 0 m' := by
    by_cases none : p.bit = 0
    · exact ⟨m₂, if_pos none, by rwa [cut.aligned none] at second⟩
    · obtain ⟨m', done, after⟩ := through m₂ (cut.first none) (by rwa [Nat.zero_add])
      exact ⟨m', by rw [maskedHead, if_neg none, done], after⟩
  obtain ⟨m', finished, third⟩ := headed
  refine ⟨m', ?_, third⟩
  simp only [PackedBits.maskedRunBack, if_neg inside, isCut, begun, passed, finished,
    Option.bind_eq_bind, Option.bind_some]

end Masked

section Chunked
variable {piece : μ → Chunk → Option μ} {words : μ → Nat → Nat → Option μ}

theorem Progress.chunkedRun (progress : Progress ready step n holds)
    (pieces : ∀ {chunk m₁}, Fits p n chunk → ready m₁ →
      ∃ m₂, piece m₁ chunk = some m₂ ∧ step chunk.offset chunk.width m₁ m₂)
    (wholes : ∀ {offset count m₁}, Whole p n offset count → holds offset m₁ →
      ∃ m₂, words m₁ offset count = some m₂ ∧ holds (offset + count * w) m₂)
    (before : holds 0 m) :
    ∃ m', chunkedRun piece words m p n = some m' ∧ holds n m' := by
  have through (offset width : Nat) (m₁ : μ) (fits : 0 < width → Fits p n ⟨offset, width⟩)
      (here : holds offset m₁) :
      ∃ m₂, onChunk piece m₁ ⟨offset, width⟩ = some m₂ ∧ holds (offset + width) m₂ := by
    by_cases none : width = 0
    · exact ⟨m₁, if_pos none, by rwa [none]⟩
    have fits := fits (Nat.pos_of_ne_zero none)
    rw [onChunk, if_neg none]
    exact progress.pass fits.inside (pieces fits) here
  have cut := p.headCut n
  simp only [PackedBits.chunkedRun]
  generalize p.headWidth n = head at cut
  obtain ⟨m₁, begun, first⟩ := through 0 head m cut.first before
  rw [Nat.zero_add] at first
  obtain ⟨m₂, passed, second⟩ := wholes cut.whole first
  obtain ⟨m', ended, third⟩ := through _ _ m₂ cut.last second
  exact ⟨m', by simp only [begun, passed, ended, Option.bind_eq_bind, Option.bind_some],
    cut.ends ▸ third⟩

theorem ProgressBack.chunkedRunBack (progress : ProgressBack ready step n holds)
    (pieces : ∀ {chunk m₁}, Fits p n chunk → ready m₁ →
      ∃ m₂, piece m₁ chunk = some m₂ ∧ step chunk.offset chunk.width m₁ m₂)
    (wholes : ∀ {offset count m₁}, Whole p n offset count → holds (offset + count * w) m₁ →
      ∃ m₂, words m₁ offset count = some m₂ ∧ holds offset m₂)
    (before : holds n m) :
    ∃ m', chunkedRunBack piece words m (p + n) n = some m' ∧ holds 0 m' := by
  have through (offset width : Nat) (m₁ : μ) (fits : 0 < width → Fits p n ⟨offset, width⟩)
      (here : holds (offset + width) m₁) :
      ∃ m₂, onChunk piece m₁ ⟨offset, width⟩ = some m₂ ∧ holds offset m₂ := by
    by_cases none : width = 0
    · exact ⟨m₁, if_pos none, by rwa [none] at here⟩
    have fits := fits (Nat.pos_of_ne_zero none)
    rw [onChunk, if_neg none]
    exact progress.pass fits.inside (pieces fits) here
  have cut := p.tailCut n
  simp only [PackedBits.chunkedRunBack]
  generalize (p + n).tailWidth n = tail at cut
  have place : (n - tail) % w + (n - tail) / w * w = n - tail := by
    rw [Nat.add_comm, Nat.div_add_mod']
  obtain ⟨m₁, begun, first⟩ := through _ tail m cut.last (by rwa [cut.ends])
  rw [place] at begun
  obtain ⟨m₂, passed, second⟩ := wholes cut.whole first
  obtain ⟨m', ended, third⟩ := through 0 ((n - tail) % w) m₂ cut.first (by rwa [Nat.zero_add])
  exact ⟨m', by simp only [begun, passed, ended, Option.bind_eq_bind, Option.bind_some], third⟩

end Chunked

end Passes

end PackedBits
