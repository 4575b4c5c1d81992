import PackedBits.Storage.ControlBlock
import PackedBits.Word.Lemmas
import PackedBits.Proofs.Storage.Resize

/-! Fields packed in control words, and the inline mode. A field is read back when the fields around
it stay out of its place. Inline the top byte of the second word is the count; what is known of the
bits below it is the same for every storage that keeps them there. -/
namespace PackedBits

theorem testBit_small {n k i : Nat} (small : n < 2 ^ k) (above : k ≤ i) : n.testBit i = false :=
  Nat.testBit_lt_two_pow (Nat.lt_of_lt_of_le small (Nat.pow_le_pow_right (by decide) above))

theorem toNat_of_bits {word : BitVec 64} {n : Nat} (small : n < 2 ^ 64)
    (bits : ∀ i < 64, word.getLsbD i = n.testBit i) : word.toNat = n := by
  have same : word = BitVec.ofNat 64 n := BitVec.eq_of_getLsbD_eq fun i below => by
    rw [bits i below, BitVec.getLsbD_ofNat, decide_eq_true below, Bool.true_and]
  rw [same, BitVec.toNat_ofNat, Nat.mod_eq_of_lt small]

/-- A field that is shifted up to `shift`, above another one, is read back by shifting down. -/
theorem field_above {low : BitVec 64} {n shift : Nat} (small : n < 2 ^ (64 - shift))
    (clear : ∀ i, shift ≤ i → low.getLsbD i = false) :
    ((low ||| BitVec.ofNat 64 n <<< shift) >>> shift).toNat = n := by
  refine toNat_of_bits (Nat.lt_of_lt_of_le small (Nat.pow_le_pow_right (by decide) (by omega))) ?_
  intro i below
  rw [BitVec.getLsbD_ushiftRight, BitVec.getLsbD_or, clear _ (by omega), Bool.false_or,
    BitVec.getLsbD_shiftLeft, Nat.add_sub_cancel_left, BitVec.getLsbD_ofNat, decide_eq_true below,
    Bool.true_and, decide_eq_false (show ¬ shift + i < shift by omega), Bool.not_false,
    Bool.and_true]
  -- A bit shifted out of the word was clear: the field is small.
  by_cases inside : shift + i < 64
  · rw [decide_eq_true inside, Bool.true_and]
  · rw [decide_eq_false inside, Bool.false_and, testBit_small small (by omega)]

theorem field_below {high : BitVec 64} {n k : Nat} (fits : k ≤ 64) (small : n < 2 ^ k)
    (clear : ∀ i, i < k → high.getLsbD i = false) :
    ((BitVec.ofNat 64 n ||| high) &&& maskTo 64 k).toNat = n := by
  refine toNat_of_bits (Nat.lt_of_lt_of_le small (Nat.pow_le_pow_right (by decide) fits)) ?_
  intro i below
  rw [BitVec.getLsbD_and, BitVec.getLsbD_or, BitVec.getLsbD_ofNat, getLsbD_maskTo,
    decide_eq_true below, Bool.true_and, Bool.and_true]
  by_cases inside : i < k
  · rw [clear i inside, decide_eq_true inside, Bool.or_false, Bool.and_true]
  · rw [decide_eq_false inside, Bool.and_false, testBit_small small (by omega)]

namespace ControlBlock

theorem lengthMask_eq : lengthMask = maskFrom 64 lengthShift := by decide

theorem heapFlag_bit (i : Nat) : heapFlag.getLsbD i = decide (i = 63) := by
  rw [show heapFlag = BitVec.twoPow 64 63 by decide, BitVec.getLsbD_twoPow]
  by_cases top : i = 63 <;> simp [top, eq_comm]

theorem onHeap_eq (c : ControlBlock) : c.onHeap = c.second.getLsbD 63 := by
  rw [onHeap]
  cases flag : c.second.getLsbD 63 with
  | false =>
      have none : c.second &&& heapFlag = 0#64 := BitVec.eq_of_getLsbD_eq fun i below => by
        rw [BitVec.getLsbD_and, heapFlag_bit, BitVec.getLsbD_zero]
        by_cases top : i = 63
        · rw [top, flag, Bool.false_and]
        · rw [decide_eq_false top, Bool.and_false]
      rw [none]
      rfl
  | true =>
      refine bne_iff_ne.mpr fun none => ?_
      have top : (c.second &&& heapFlag).getLsbD 63 = (0#64).getLsbD 63 := by rw [none]
      rw [BitVec.getLsbD_and, heapFlag_bit, flag] at top
      exact absurd top (by decide)

theorem onHeap_flagged {c : ControlBlock} {word : BitVec 64}
    (flagged : c.second = word ||| heapFlag) : c.onHeap = true := by
  rw [onHeap_eq, flagged, BitVec.getLsbD_or, heapFlag_bit]
  exact Bool.or_true _

theorem unflagged {bits : Nat} (small : bits < 2 ^ 63) :
    ((BitVec.ofNat 64 bits ||| heapFlag) &&& ~~~heapFlag).toNat = bits := by
  have mask : ~~~heapFlag = maskTo 64 63 := by decide
  rw [mask]
  refine field_below (by decide) small fun i below => ?_
  rw [heapFlag_bit, decide_eq_false (by omega)]

theorem bitIn_pair (a b : BitVec 64) (k : Nat) :
    bitIn #[a, b] k = if k < 64 then a.getLsbD k else b.getLsbD (k - 64) := by
  by_cases low : k < 64
  · rw [if_pos low, bitIn_first _ low]
    rfl
  · rw [if_neg low]
    by_cases high : k < 128
    · have split : bitIn #[a, b] (1 * 64 + (k - 64)) = b.getLsbD (k - 64) :=
        bitIn_word #[a, b] (by omega)
      rwa [show 1 * 64 + (k - 64) = k by omega] at split
    · rw [bitIn_of_le _ (by simpa using high), BitVec.getLsbD_of_ge _ _ (by omega)]

theorem bitIn_two (words : Array (BitVec 64)) {k : Nat} (below : k < 128) :
    bitIn #[words.getD 0 0#64, words.getD 1 0#64] k = bitIn words k := by
  rw [bitIn_pair]
  by_cases low : k < 64
  · rw [if_pos low, bitIn_first words low]
  · have inSecond : k - 64 < 64 := by omega
    have second : bitIn words (1 * 64 + (k - 64)) = _ := bitIn_word words inSecond
    rw [if_neg low, ← second, show 1 * 64 + (k - 64) = k by omega]

structure Inline (c : ControlBlock) : Prop where
  room : c.inlineLen ≤ inlineBits
  spare : ∀ k, c.inlineLen ≤ k → k < inlineBits → bitIn #[c.first, c.second] k = false

variable {c : ControlBlock}

theorem onHeap_of_count (room : c.inlineLen ≤ inlineBits) : c.onHeap = false := by
  have small : (c.second >>> lengthShift).toNat < 2 ^ 7 := Nat.lt_of_le_of_lt room (by decide)
  have top := testBit_small small (Nat.le_refl 7)
  rw [← BitVec.getLsbD, BitVec.getLsbD_ushiftRight] at top
  rw [onHeap_eq]
  exact top

theorem Inline.onHeap (inline : c.Inline) : c.onHeap = false := onHeap_of_count inline.room

theorem inlineSpan_bit (c : ControlBlock) (k : Nat) :
    c.inlineSpan.bit k = bitIn #[c.first, c.second] k := by
  rw [Span.bit, inlineSpan, Nat.zero_add]

theorem empty_inline : empty.Inline where
  room := by decide
  spare k _ _ := by rw [empty, bitIn_pair]; split <;> exact BitVec.getLsbD_zero

theorem bitIn_inlineWords (k : Nat) :
    bitIn c.inlineWords k = (decide (k < inlineBits) && bitIn #[c.first, c.second] k) := by
  rw [inlineWords, bitIn_pair, bitIn_pair, lengthMask_eq]
  by_cases low : k < 64
  · rw [if_pos low, if_pos low, decide_eq_true (show k < inlineBits by unfold inlineBits; omega),
      Bool.true_and]
  · rw [if_neg low, if_neg low, BitVec.getLsbD_and, BitVec.getLsbD_not, getLsbD_maskFrom]
    by_cases inside : k < inlineBits
    · have below : k - 64 < 56 := by unfold inlineBits at inside; omega
      rw [decide_eq_true inside, decide_eq_true (show k - 64 < 64 by omega),
        decide_eq_false (show ¬ lengthShift ≤ k - 64 by unfold lengthShift; omega)]
      simp
    · have above : 56 ≤ k - 64 := by unfold inlineBits at inside; omega
      rw [decide_eq_false inside, decide_eq_true (show lengthShift ≤ k - 64 from above)]
      by_cases word : k - 64 < 64
      · simp [word]
      · simp [word, BitVec.getLsbD_of_ge c.second _ (Nat.le_of_not_lt word)]

theorem counted_bit {first low : BitVec 64} {bits : Nat} {k : Nat} (below : k < inlineBits) :
    bitIn #[first, low ||| BitVec.ofNat 64 bits <<< lengthShift] k = bitIn #[first, low] k := by
  rw [bitIn_pair, bitIn_pair]
  by_cases word : k < 64
  · rw [if_pos word, if_pos word]
  · have under : k - 64 < lengthShift := by
      unfold inlineBits at below
      unfold lengthShift
      omega
    rw [if_neg word, if_neg word, BitVec.getLsbD_or, BitVec.getLsbD_shiftLeft,
      decide_eq_true under]
    simp

theorem counted_inline (first : BitVec 64) {low : BitVec 64} {bits : Nat} (block : Block)
    (clear : ∀ i, lengthShift ≤ i → low.getLsbD i = false) (room : bits ≤ inlineBits)
    (spare : ∀ k, bits ≤ k → k < inlineBits → bitIn #[first, low] k = false) :
    (ControlBlock.mk first (low ||| BitVec.ofNat 64 bits <<< lengthShift) block).Inline ∧
      (ControlBlock.mk first (low ||| BitVec.ofNat 64 bits <<< lengthShift) block).inlineLen =
        bits := by
  have len : (ControlBlock.mk first (low ||| BitVec.ofNat 64 bits <<< lengthShift)
      block).inlineLen = bits :=
    field_above (Nat.lt_of_le_of_lt room (by decide)) clear
  refine ⟨⟨Nat.le_trans (Nat.le_of_eq len) room, fun k past below => ?_⟩, len⟩
  rw [len] at past
  rw [counted_bit below, spare k past below]

theorem uncounted_bit (second : BitVec 64) (i : Nat) (above : lengthShift ≤ i) :
    (second &&& ~~~lengthMask).getLsbD i = false := by
  rw [BitVec.getLsbD_and, BitVec.getLsbD_not, lengthMask_eq, getLsbD_maskFrom,
    decide_eq_true above]
  by_cases word : i < 64 <;> simp [word]

theorem setInlineLen_count (c : ControlBlock) {bits : Nat} (room : bits ≤ inlineBits) :
    (c.setInlineLen bits).inlineLen = bits ∧ (c.setInlineLen bits).onHeap = false := by
  have count : (c.setInlineLen bits).inlineLen = bits :=
    field_above (Nat.lt_of_le_of_lt room (by decide)) (uncounted_bit c.second)
  exact ⟨count, onHeap_of_count (Nat.le_trans (Nat.le_of_eq count) room)⟩

theorem setInlineLen_bit (c : ControlBlock) (bits : Nat) {k : Nat} (below : k < inlineBits) :
    (c.setInlineLen bits).inlineSpan.bit k = c.inlineSpan.bit k := by
  have masked : bitIn #[c.first, c.second &&& ~~~lengthMask] k = _ := bitIn_inlineWords k
  rw [decide_eq_true below, Bool.true_and] at masked
  rw [inlineSpan_bit, inlineSpan_bit]
  exact (counted_bit below).trans masked

theorem setInlineLen_inline {bits : Nat} (inline : c.Inline) (room : bits ≤ inlineBits)
    (clear : ∀ k, bits ≤ k → k < c.inlineLen → c.inlineSpan.bit k = false) :
    (c.setInlineLen bits).Inline ∧ (c.setInlineLen bits).inlineLen = bits ∧
      ∀ k < inlineBits, (c.setInlineLen bits).inlineSpan.bit k = c.inlineSpan.bit k := by
  have len := (setInlineLen_count c room).1
  refine ⟨⟨Nat.le_trans (Nat.le_of_eq len) room, fun k past below => ?_⟩, len,
    fun k below => setInlineLen_bit c bits below⟩
  rw [len] at past
  rw [← inlineSpan_bit, setInlineLen_bit c bits below]
  rcases Nat.lt_or_ge k c.inlineLen with old | new
  · exact clear k past old
  · rw [inlineSpan_bit]
    exact inline.spare k new below

theorem putInline_count {words : Array (BitVec 64)} (room : c.inlineLen ≤ inlineBits)
    (within : Span.Within c.inlineSpan { c.inlineSpan with words := words }) :
    #[(c.putInline words).first, (c.putInline words).second] = words ∧
      (∀ k, c.inlineLen ≤ k → bitIn words k = bitIn #[c.first, c.second] k) ∧
      (c.putInline words).inlineLen = c.inlineLen := by
  have size : words.size = 2 := within.size
  have same : #[(c.putInline words).first, (c.putInline words).second] = words :=
    ext_bitIn size.symm fun k below => bitIn_two words below
  have bits (k : Nat) (outside : c.inlineLen ≤ k) :
      bitIn words k = bitIn #[c.first, c.second] k := by
    refine within.kept k ?_
    show ¬ (0 ≤ k ∧ k < 0 + c.inlineLen)
    omega
  refine ⟨same, bits, congrArg BitVec.toNat (BitVec.eq_of_getLsbD_eq fun i below => ?_)⟩
  have kept := bits (64 + (lengthShift + i))
    (Nat.le_trans room (by unfold inlineBits lengthShift; omega))
  rw [← same, bitIn_pair, bitIn_pair, if_neg (by omega), if_neg (by omega),
    Nat.add_sub_cancel_left] at kept
  rw [BitVec.getLsbD_ushiftRight, BitVec.getLsbD_ushiftRight]
  exact kept

theorem putInline_inline {words : Array (BitVec 64)} (inline : c.Inline)
    (within : Span.Within c.inlineSpan { c.inlineSpan with words := words }) :
    (c.putInline words).Inline ∧
      (c.putInline words).inlineSpan = { c.inlineSpan with words := words } := by
  obtain ⟨same, bits, len⟩ := putInline_count inline.room within
  refine ⟨⟨by rw [len]; exact inline.room, fun k past below => ?_⟩, ?_⟩
  · rw [len] at past
    rw [same, bits k past, inline.spare k past below]
  · rw [inlineSpan, inlineSpan, same, len]

theorem ofInline_inline {words : Array (BitVec 64)} {bits : Nat} (room : bits ≤ inlineBits)
    (spare : ∀ k, bits ≤ k → bitIn words k = false) :
    (ofInline words bits).Inline ∧ (ofInline words bits).inlineLen = bits ∧
      ∀ k < inlineBits, (ofInline words bits).inlineSpan.bit k = bitIn words k := by
  have two (k : Nat) (below : k < inlineBits) :
      bitIn #[words.getD 0 0#64, words.getD 1 0#64] k = bitIn words k :=
    bitIn_two words (Nat.lt_trans below (by decide))
  have clear (i : Nat) (above : lengthShift ≤ i) : (words.getD 1 0#64).getLsbD i = false := by
    by_cases word : i < 64
    · have bit : bitIn words (1 * 64 + i) = _ := bitIn_word words word
      rw [← bit]
      exact spare _ (Nat.le_trans room (by unfold inlineBits; unfold lengthShift at above; omega))
    · exact BitVec.getLsbD_of_ge _ _ (Nat.le_of_not_lt word)
  obtain ⟨counted, len⟩ := counted_inline (words.getD 0 0#64) Block.none clear room
    fun k past below => by rw [two k below, spare k past]
  refine ⟨counted, len, fun k below => ?_⟩
  rw [inlineSpan_bit]
  exact (counted_bit below).trans (two k below)

end ControlBlock

/-- A block of `capacity` words after `offset` others, `bits` bits of it in use and the rest clear. -/
structure Block.Keeps (block : Block) (offset capacity bits : Nat) : Prop where
  size : block.words.size = offset + capacity
  room : bits ≤ capacity * 64
  spare : ∀ k, bits ≤ k → k < capacity * 64 → bitIn block.words (offset * 64 + k) = false

namespace Block.Keeps
variable {block : Block} {offset capacity bits : Nat}

theorem bitIn_words (keeps : block.Keeps offset capacity bits) (k : Nat) :
    bitIn (block.words.extract offset (offset + wordsFor 64 bits)) k =
      (decide (k < bits) && bitIn block.words (offset * 64 + k)) := by
  have fits : wordsFor 64 bits ≤ capacity := wordsFor_le_iff.mpr keeps.room
  rw [bitIn_extract _ _ _ _ (by rw [keeps.size]; omega), Nat.add_sub_cancel_left]
  by_cases inUse : k < bits
  · have above := le_wordsFor (w := 64) bits
    rw [decide_eq_true inUse, decide_eq_true (show k < wordsFor 64 bits * 64 by omega)]
  · rw [decide_eq_false inUse, Bool.false_and]
    by_cases word : k < wordsFor 64 bits * 64
    · rw [keeps.spare k (by omega) (by omega), Bool.and_false]
    · rw [decide_eq_false word, Bool.false_and]

theorem size_words (keeps : block.Keeps offset capacity bits) :
    (block.words.extract offset (offset + wordsFor 64 bits)).size = wordsFor 64 bits := by
  have fits : wordsFor 64 bits ≤ capacity := wordsFor_le_iff.mpr keeps.room
  rw [Array.size_extract, keeps.size]
  omega

theorem rewritten {words : Array (BitVec 64)} (keeps : block.Keeps offset capacity bits)
    (within : Span.Within ⟨block.words, offset * 64, bits⟩ ⟨words, offset * 64, bits⟩) :
    Keeps { block with words := words } offset capacity bits ∧
      ∀ j < offset, words.getD j 0#64 = block.words.getD j 0#64 := by
  have bit (k : Nat) (outside : ¬ (offset * 64 ≤ k ∧ k < offset * 64 + bits)) :
      bitIn words k = bitIn block.words k := within.kept k outside
  refine ⟨⟨within.size.trans keeps.size, keeps.room, fun k past below => ?_⟩, fun j before => ?_⟩
  · exact (bit _ (by omega)).trans (keeps.spare k past below)
  · refine BitVec.eq_of_getLsbD_eq fun i word => ?_
    rw [← bitIn_word words word, ← bitIn_word block.words word]
    exact bit _ (by omega)

theorem relength {bits' : Nat} (keeps : block.Keeps offset capacity bits)
    (room : bits' ≤ capacity * 64)
    (clear : ∀ k, bits' ≤ k → k < bits → bitIn block.words (offset * 64 + k) = false) :
    block.Keeps offset capacity bits' where
  size := keeps.size
  room := room
  spare k past below := by
    rcases Nat.lt_or_ge k bits with old | new
    · exact clear k past old
    · exact keeps.spare k new below

theorem of_overwrite {address : Nat} {base words : Array (BitVec 64)}
    (size : base.size = offset + capacity)
    (clear : ∀ k < capacity * 64, bitIn base (offset * 64 + k) = false)
    (room : bits ≤ capacity * 64) (count : words.size = wordsFor 64 bits)
    (spare : ∀ k, bits ≤ k → bitIn words k = false) :
    Keeps ⟨address, overwrite base offset words⟩ offset capacity bits ∧
      (∀ k < capacity * 64, bitIn (overwrite base offset words) (offset * 64 + k) = bitIn words k) ∧
      ∀ j < offset, (overwrite base offset words).getD j 0#64 = base.getD j 0#64 := by
  have fits : wordsFor 64 bits ≤ capacity := wordsFor_le_iff.mpr room
  have inside : offset + words.size ≤ base.size := by omega
  have bit (k : Nat) (below : k < capacity * 64) :
      bitIn (overwrite base offset words) (offset * 64 + k) = bitIn words k := by
    rw [bitIn_overwrite _ _ _ inside, Nat.add_sub_cancel_left]
    by_cases put : k < words.size * 64
    · rw [if_pos ⟨by omega, by omega⟩]
    · rw [if_neg (by omega), clear k below, bitIn_of_le _ (by omega)]
  refine ⟨⟨(size_overwrite ..).trans size, room, fun k past below => ?_⟩, bit, fun j before => ?_⟩
  · rw [bit k below, spare k past]
  · rw [getD_overwrite _ _ _ inside, if_neg (by omega)]

end Block.Keeps

/-- The span, the capacity and the words in use of a storage in control words, in either mode. -/
inductive Form : Span 64 → Nat → Array (BitVec 64) → Prop where
  | inline {c : ControlBlock} (inline : c.Inline) :
      Form c.inlineSpan inlineBits (c.inlineWords.extract 0 (wordsFor 64 c.inlineLen))
  | heap {block : Block} {offset capacity bits : Nat} (keeps : block.Keeps offset capacity bits) :
      Form ⟨block.words, offset * 64, bits⟩ (capacity * 64)
        (block.words.extract offset (offset + wordsFor 64 bits))

namespace Form
variable {span : Span 64} {capacity : Nat} {words : Array (BitVec 64)}

theorem room (form : Form span capacity words) : span.start + capacity ≤ span.words.size * 64 := by
  cases form with
  | @inline c inline =>
      show 0 + inlineBits ≤ 2 * 64
      decide
  | @heap block offset capacity bits keeps =>
      show offset * 64 + capacity * 64 ≤ block.words.size * 64
      exact Nat.le_of_eq (by rw [keeps.size, Nat.add_mul])

theorem len_le (form : Form span capacity words) : span.len ≤ capacity := by
  cases form with
  | inline inline => exact inline.room
  | heap keeps => exact keeps.room

theorem spare (form : Form span capacity words) (k : Nat) (past : span.len ≤ k)
    (below : k < capacity) : span.bit k = false := by
  cases form with
  | @inline c inline =>
      rw [ControlBlock.inlineSpan_bit]
      exact inline.spare k past below
  | heap keeps => exact keeps.spare k past below

theorem words_size (form : Form span capacity words) : words.size = wordsFor 64 span.len := by
  cases form with
  | @inline c inline =>
      have fits : wordsFor 64 c.inlineLen ≤ 2 :=
        wordsFor_le_iff.mpr (Nat.le_trans inline.room (by decide))
      show (c.inlineWords.extract 0 (wordsFor 64 c.inlineLen)).size = wordsFor 64 c.inlineLen
      rw [Array.size_extract, show c.inlineWords.size = 2 from rfl, Nat.min_eq_left fits,
        Nat.sub_zero]
  | heap keeps => exact keeps.size_words

theorem words_bit (form : Form span capacity words) (k : Nat) :
    bitIn words k = (decide (k < span.len) && span.bit k) := by
  cases form with
  | @inline c inline =>
      have fits : wordsFor 64 c.inlineLen ≤ c.inlineWords.size :=
        wordsFor_le_iff.mpr (Nat.le_trans inline.room (show inlineBits ≤ 2 * 64 by decide))
      show bitIn (c.inlineWords.extract 0 (wordsFor 64 c.inlineLen)) k =
        (decide (k < c.inlineLen) && bitIn #[c.first, c.second] (0 + k))
      rw [bitIn_extract _ _ _ _ fits, ControlBlock.bitIn_inlineWords, Nat.zero_mul, Nat.zero_add,
        Nat.sub_zero]
      have above := le_wordsFor (w := 64) c.inlineLen
      have room := inline.room
      by_cases inUse : k < c.inlineLen
      · rw [decide_eq_true inUse, decide_eq_true (show k < wordsFor 64 c.inlineLen * 64 by omega),
          decide_eq_true (show k < inlineBits by omega), Bool.true_and]
      · rw [decide_eq_false inUse, Bool.false_and]
        by_cases inside : k < inlineBits
        · rw [inline.spare k (Nat.le_of_not_lt inUse) inside, Bool.and_false, Bool.and_false]
        · rw [decide_eq_false inside, Bool.false_and, Bool.and_false]
  | heap keeps => exact keeps.bitIn_words k

theorem words_spare (form : Form span capacity words) (k : Nat) (past : span.len ≤ k) :
    bitIn words k = false := by
  rw [form.words_bit, decide_eq_false (Nat.not_lt.mpr past), Bool.false_and]

theorem toList_eq (form : Form span capacity words) {copy : Span 64} (len : copy.len = span.len)
    (bit : ∀ k < span.len, copy.bit k = bitIn words k) : copy.toList = span.toList := by
  refine Span.toList_congr len fun k below => ?_
  rw [bit k below, form.words_bit, decide_eq_true below, Bool.true_and]

end Form

theorem Holding.shrink_reaches {S : Type} {h : Holding S} {onHeap : Bool} {len held : Nat}
    {moveInline : Attempt (Holding S) Unit} {moveToHeap : Nat → Attempt (Holding S) Unit}
    {reached : Holding S → Prop} {failed : Failure → Holding S → Prop} (idle : reached h)
    (inlined : len ≤ inlineBits → moveInline.Ends h (fun _ => reached) failed)
    (moved : onHeap = true → ∀ need, 0 < need → need < held → len ≤ need * 64 →
      (moveToHeap need).unlessRefused.Ends h (fun _ => reached) failed) :
    (if onHeap then
        if len ≤ inlineBits then moveInline
        else
          let need := wordsFor 64 len
          if need < held then Attempt.unlessRefused (moveToHeap need) else pure ()
      else pure () : Attempt (Holding S) Unit).Ends h (fun _ => reached) failed := by
  cases onHeap with
  | false => exact idle
  | true =>
      rw [if_pos rfl]
      by_cases small : len ≤ inlineBits
      · rw [if_pos small]
        exact inlined small
      · rw [if_neg small]
        have positive : 0 < wordsFor 64 len :=
          wordsFor_pos (Nat.zero_lt_of_lt (Nat.lt_of_not_le small))
        by_cases less : wordsFor 64 len < held
        · simp only [if_pos less]
          exact moved rfl _ positive less (le_wordsFor len)
        · simp only [if_neg less]
          exact idle

theorem Holding.shrink_ends {S : Type} [Storage S 64] [StorageSpec S 64] {policy : Policy}
    {refusals : Nat} {others : List Grant} {h : Holding S} {onHeap : Bool} {len held : Nat}
    {moveInline : Attempt (Holding S) Unit} {moveToHeap : Nat → Attempt (Holding S) Unit}
    {request : Nat → Request} {cause : Nat → Option Error} {certain : Prop}
    (sound : h.Sound policy refusals others)
    (inlined : len ≤ inlineBits → moveInline.Ends h
      (fun _ h' => h'.Sound policy refusals others ∧ h'.list = h.list) fun _ _ => False)
    (moved : ∀ need, 0 < need → need < held → len ≤ need * 64 → (moveToHeap need).Ends h
      (fun _ => h.Moved policy refusals others (request need) need)
      (h.Refused policy refusals others (cause need) certain)) :
    (if onHeap then
        if len ≤ inlineBits then moveInline
        else
          let need := wordsFor 64 len
          if need < held then Attempt.unlessRefused (moveToHeap need) else pure ()
      else pure () : Attempt (Holding S) Unit).Ends h
      (fun _ h' => h'.Sound policy refusals others ∧ h'.list = h.list) fun _ _ => False := by
  refine Holding.shrink_reaches ⟨sound, rfl⟩ inlined ?_
  intro _ need positive less room
  exact Holding.unlessRefused_ends_of_move (moved need positive less room)

end PackedBits
