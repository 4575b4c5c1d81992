import PackedBits.Span.Update
import PackedBits.Proofs.Attempt
import PackedBits.Proofs.Range.Frame

/-! Spans as lists of bits. A span whose words hold it reads as the list of its bits, and a change
of its words that stays inside the span keeps its place, its length and every bit around it. What
the operations on runs do to a memory is restated here for the words of a span. -/
namespace PackedBits
variable {w : Nat} [HasBits w]

theorem bit?_buffers (m : Buffers w) (buffer k : Nat) :
    bit? m buffer (k : Int) =
      if k < (m.words buffer).size * w then some (bitIn (m.words buffer) k) else none := by
  have positive : 0 < w := width_pos
  have word : ((k : Int) / (w : Int)) = ((k / w : Nat) : Int) := rfl
  have place : ((k : Int) % (w : Int)).toNat = k % w := rfl
  have load : Memory.load m ⟨buffer, ((k / w : Nat) : Int)⟩ = (m.words buffer)[k / w]? := by
    show Buffers.load m _ = _
    simp only [Buffers.load, Buffers.words]
    rw [if_pos (Int.natCast_nonneg _), Int.toNat_natCast, Array.getD_eq_getD_getElem?]
    cases m.buffers[buffer]? <;> simp
  rw [bit?, word, place, load]
  simp only [← Nat.div_lt_iff_lt_mul positive]
  by_cases inside : k / w < (m.words buffer).size
  · simp [inside, bitIn, Array.getD_eq_getD_getElem?]
  · simp [inside]

theorem size_words_of_held {m m' : Buffers w} {buffer : Nat}
    (held : ∀ position : Int, (bit? m' buffer position).isSome = (bit? m buffer position).isSome) :
    (m'.words buffer).size = (m.words buffer).size := by
  have both (k : Nat) : k < (m'.words buffer).size * w ↔ k < (m.words buffer).size * w := by
    have same := held k
    rw [bit?_buffers, bit?_buffers] at same
    by_cases left : k < (m'.words buffer).size * w <;>
      by_cases right : k < (m.words buffer).size * w <;> simp [left, right] at same ⊢
  -- Each size is tried against the other: were one larger, its first bit past the other would tell.
  have upper := both ((m'.words buffer).size * w)
  have lower := both ((m.words buffer).size * w)
  have same : (m'.words buffer).size * w = (m.words buffer).size * w := by omega
  exact Nat.eq_of_mul_eq_mul_right width_pos same

theorem Altered.words_eq {m m' : Buffers w} {inside : Nat → Int → Prop} {buffer : Nat}
    (altered : Altered m m' inside) (apart : ∀ position, ¬ inside buffer position) :
    m'.words buffer = m.words buffer := by
  have size := size_words_of_held (altered.held buffer)
  refine ext_bitIn size fun k below => ?_
  have same := altered.kept buffer k (apart k)
  rw [bit?_buffers, bit?_buffers, if_pos below, if_pos (by rwa [← size])] at same
  exact Option.some.inj same

namespace Span

def bit (s : Span w) (i : Nat) : Bool := bitIn s.words (s.start + i)

def toList (s : Span w) : List Bool := (List.range s.len).map s.bit

def Held (s : Span w) : Prop := s.start + s.len ≤ s.words.size * w

/-- What an operation in place may have made of a span. -/
structure Within (s s' : Span w) : Prop where
  start : s'.start = s.start
  len : s'.len = s.len
  size : s'.words.size = s.words.size
  kept : ∀ k, ¬ (s.start ≤ k ∧ k < s.start + s.len) → bitIn s'.words k = bitIn s.words k

omit [HasBits w] in
theorem Within.refl (s : Span w) : Within s s := ⟨rfl, rfl, rfl, fun _ _ => rfl⟩

omit [HasBits w] in
theorem Within.trans {s s₁ s₂ : Span w} (first : Within s s₁) (second : Within s₁ s₂) :
    Within s s₂ where
  start := second.start.trans first.start
  len := second.len.trans first.len
  size := second.size.trans first.size
  kept k outside := by
    rw [second.kept k (by rw [first.start, first.len]; exact outside), first.kept k outside]

omit [HasBits w] in
theorem Within.symm {s s' : Span w} (within : Within s s') : Within s' s where
  start := within.start.symm
  len := within.len.symm
  size := within.size.symm
  kept k outside := (within.kept k (by rwa [within.start, within.len] at outside)).symm

omit [HasBits w] in
theorem Within.eq_words {s s' : Span w} (within : Within s s') :
    s' = { s with words := s'.words } := by
  obtain ⟨words, start, len⟩ := s'
  obtain ⟨rfl, rfl, -, -⟩ := within
  rfl

omit [HasBits w] in
theorem getElem?_toList (s : Span w) (i : Nat) :
    s.toList[i]? = if i < s.len then some (s.bit i) else Option.none := by
  by_cases below : i < s.len <;> simp [toList, below]

omit [HasBits w] in
theorem Within.eq_of_toList {s s' : Span w} (within : Within s s') (same : s'.toList = s.toList) :
    s' = s := by
  have words : s'.words = s.words := by
    refine ext_bitIn within.size fun k _ => ?_
    by_cases inside : s.start ≤ k ∧ k < s.start + s.len
    · have bits := congrArg (·[k - s.start]?) same
      simp only [getElem?_toList, within.len, if_pos (show k - s.start < s.len by omega), bit,
        within.start, Nat.add_sub_cancel' inside.1] at bits
      exact Option.some.inj bits
    · exact within.kept k inside
  rw [within.eq_words, words]

omit [HasBits w] in
theorem Within.held {s s' : Span w} (within : Within s s') (held : s.Held) : s'.Held := by
  rw [Held, within.start, within.len, within.size]
  exact held

omit [HasBits w] in
@[simp] theorem length_toList (s : Span w) : s.toList.length = s.len := by simp [toList]

omit [HasBits w] in
theorem toList_congr {s s' : Span w} (len : s'.len = s.len)
    (bits : ∀ k < s.len, s'.bit k = s.bit k) : s'.toList = s.toList := by
  rw [toList, toList, len]
  exact List.map_congr_left fun k member => bits k (List.mem_range.mp member)

omit [HasBits w] in
theorem len_congr {s s' : Span w} (same : s'.toList = s.toList) : s'.len = s.len := by
  have lengths := congrArg List.length same
  rwa [length_toList, length_toList] at lengths

theorem held_zeroed (n : Nat) : (zeroed n : Span w).Held := by
  rw [Held, zeroed, Nat.zero_add, Array.size_replicate]
  exact le_wordsFor n

omit [HasBits w] in
theorem bit_zeroed (n i : Nat) : (zeroed n : Span w).bit i = false := bitIn_replicate _ _

omit [HasBits w] in
theorem toList_zeroed (n : Nat) : (zeroed n : Span w).toList = List.replicate n false := by
  refine List.ext_getElem? fun i => ?_
  rw [getElem?_toList, List.getElem?_replicate, bit_zeroed]
  rfl

section Memory
variable {m : Buffers w} {s : Span w} {buffer : Nat}

theorem holds_words (words : m.words buffer = s.words) (held : s.Held) :
    Holds m (s.firstIn buffer) s.len := by
  intro i below
  have place : (s.firstIn buffer).position + (i : Int) = ((s.start + i : Nat) : Int) := by
    rw [firstIn, Cursor.position_ofPosition]
    omega
  rw [place, show (s.firstIn buffer).buffer = buffer from rfl, bit?_buffers, words, if_pos]
  · rfl
  · rw [Held] at held
    omega

theorem bitsAt_words (words : m.words buffer = s.words) (held : s.Held) {i : Nat}
    (below : i < s.len) : bitsAt m (s.firstIn buffer) i = s.bit i := by
  have place : (s.firstIn buffer).position + (i : Int) = ((s.start + i : Nat) : Int) := by
    rw [firstIn, Cursor.position_ofPosition]
    omega
  rw [bitsAt, place, show (s.firstIn buffer).buffer = buffer from rfl, bit?_buffers, words, if_pos]
  · rfl
  · rw [Held] at held
    omega

theorem holds_first (held : s.Held) : Holds s.buffers s.first s.len :=
  holds_words (show s.buffers.words 0 = s.words from rfl) held

theorem bitsAt_first (held : s.Held) {i : Nat} (below : i < s.len) :
    bitsAt s.buffers s.first i = s.bit i :=
  bitsAt_words (show s.buffers.words 0 = s.words from rfl) held below

/-- A memory altered inside a span gives back words that hold the span where it was. -/
theorem Within.of_altered {m' : Buffers w} {inside : Nat → Int → Prop}
    (words : m.words buffer = s.words) (altered : Altered m m' inside)
    (covered : ∀ position, inside buffer position →
      (s.firstIn buffer).Covers s.len buffer position) :
    Within s { s with words := m'.words buffer } where
  start := rfl
  len := rfl
  size := (size_words_of_held (altered.held buffer)).trans (congrArg Array.size words)
  kept k outside := by
    have size : (m'.words buffer).size = s.words.size :=
      (size_words_of_held (altered.held buffer)).trans (congrArg Array.size words)
    by_cases inside : k < s.words.size * w
    · have same := altered.kept buffer k fun there => outside (by
        have origin := Cursor.position_ofPosition (w := w) buffer s.start
        obtain ⟨-, low, high⟩ := covered k there
        simp only [firstIn] at low high
        omega)
      rw [bit?_buffers, bit?_buffers, words, size, if_pos inside, if_pos inside] at same
      exact Option.some.inj same
    -- Past the words both read as clear.
    · rw [bitIn_of_le _ (by rw [size]; omega), bitIn_of_le _ (by omega)]

theorem bit_overwritten {m' : Buffers w} {offset n : Nat} {new : Nat → Bool}
    (words : m.words buffer = s.words) (held : s.Held)
    (written : Overwritten m m' (s.firstIn buffer + offset) n new) (within : offset + n ≤ s.len)
    {i : Nat} (below : i < s.len) :
    bit { s with words := m'.words buffer } i =
      if offset ≤ i ∧ i < offset + n then new (i - offset) else s.bit i := by
  have holds := (holds_words words held).part within
  have size := size_words_of_held ((written.altered holds).held buffer)
  rw [words] at size
  have inside : s.start + i < s.words.size * w := by
    rw [Held] at held
    omega
  have became := written buffer (s.start + i : Nat)
  rw [bit?_buffers, bit?_buffers, words, size, if_pos inside, if_pos inside] at became
  have origin := Cursor.position_ofPosition (w := w) buffer s.start
  simp only [Cursor.Covers, Cursor.buffer_forward, Cursor.position_forward, firstIn, origin,
    show (Cursor.ofPosition buffer s.start : Cursor w).buffer = buffer from rfl, true_and] at became
  by_cases covered : offset ≤ i ∧ i < offset + n
  · rw [if_pos (by omega)] at became
    rw [if_pos covered]
    have value := Option.some.inj became
    have place : ((s.start + i : Nat) - ((s.start : Int) + offset)).toNat = i - offset := by omega
    rwa [place] at value
  · rw [if_neg (by omega)] at became
    rw [if_neg covered]
    exact Option.some.inj became

end Memory

end Span

end PackedBits
