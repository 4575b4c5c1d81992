import Mathlib.Logic.Function.Basic
import PackedBits.Proofs.Storage.SmallBuffer
import PackedBits.Proofs.Storage.Tagged

/-! Two control words as an encoding. Inline they carry the bits and the count of them, on the heap a
flag, a length, an address and, if no header does, a capacity. What a storage tells in either mode is
what was put into its fields, and changing one of them leaves what it tells of the others. -/
namespace PackedBits

theorem Span.Within.bit_set {w : Nat} {s s' : Span w} {i : Nat} {value : Bool}
    (within : Within s s') (list : s'.toList = s.toList.set i value) (inside : i < s.len) :
    s'.bit = Function.update s.bit i value := by
  funext k
  by_cases below : k < s.len
  · have same := congrArg (·[k]?) list
    simp only [List.getElem?_set, getElem?_toList, length_toList, within.len, if_pos below] at same
    by_cases here : k = i
    · subst here
      simpa [below] using same
    · simpa [here, Ne.symm here] using same
  · rw [Function.update_of_ne (by omega), bit, within.start]
    exact within.kept _ (by omega)

section
variable {S : Type} [Storage S 64]

/-- Inline, a storage tells a length and the bits in front of the count, however many are in use. -/
structure TellsInline (s : S) (data : Nat → Bool) (bits : Nat) : Prop where
  room : bits ≤ inlineBits
  mode : Storage.onHeap s = false
  len : Storage.len s = bits
  bit : ∀ k < inlineBits, (Container.span s).bit k = data k
  words : (Storage.words s).size = wordsFor 64 bits ∧ ∀ k, bitIn (Storage.words s) k =
    (decide (k < wordsFor 64 bits * 64) && (decide (k < inlineBits) && data k))

/-- On the heap, a storage tells the block that it owns, with room for `capacity` words, and a
length of the bits there. -/
structure TellsHeap [StorageSpec S 64] (s : S) (block : Block) (capacity bits : Nat) : Prop where
  mode : Storage.onHeap s = true
  len : Storage.len s = bits
  address : StorageSpec.block s = some ⟨block.address, capacity + StorageSpec.header S⟩
  room : Storage.capacity s = capacity * 64
  span : Container.span s = ⟨block.words, StorageSpec.header S * 64, bits⟩

/-- A storage that is its control words, and goes by these while they hold the bits. -/
structure KeepsInline (of : ControlBlock → S) : Prop where
  whole (s : S) : ∃ c, s = of c
  mode (c : ControlBlock) : Storage.onHeap (of c) = c.onHeap
  len {c : ControlBlock} : c.onHeap = false → Storage.len (of c) = c.inlineLen
  words {c : ControlBlock} : c.onHeap = false →
    Storage.words (of c) = c.inlineWords.extract 0 (wordsFor 64 c.inlineLen)
  span {c : ControlBlock} : c.onHeap = false → Container.span (of c) = c.inlineSpan
  setLen {c : ControlBlock} (bits : Nat) : c.onHeap = false →
    Storage.setLen bits (of c) = of (c.setInlineLen bits)
  putWords {c : ControlBlock} (words : Array (BitVec 64)) : c.onHeap = false →
    Container.putWords (of c) words = of (c.putInline words)

namespace KeepsInline
variable {of : ControlBlock → S} (keeps : KeepsInline of) {c : ControlBlock} {data : Nat → Bool}
  {bits : Nat}

include keeps

theorem tells (room : bits ≤ inlineBits) (count : c.inlineLen = bits)
    (bit : ∀ k < inlineBits, c.inlineSpan.bit k = data k) : TellsInline (of c) data bits := by
  subst count
  have inline : c.onHeap = false := ControlBlock.onHeap_of_count room
  have fits : wordsFor 64 c.inlineLen ≤ c.inlineWords.size :=
    wordsFor_le_iff.mpr (Nat.le_trans room (show inlineBits ≤ 2 * 64 by decide))
  refine ⟨room, (keeps.mode c).trans inline, keeps.len inline, ?_, ?_, fun k => ?_⟩
  · rw [keeps.span inline]
    exact bit
  · rw [keeps.words inline, Array.size_extract, Nat.min_eq_left fits, Nat.sub_zero]
  · rw [keeps.words inline, bitIn_extract _ _ _ _ fits, ControlBlock.bitIn_inlineWords,
      Nat.zero_mul, Nat.zero_add, Nat.sub_zero]
    by_cases below : k < inlineBits
    · rw [← bit k below, ControlBlock.inlineSpan_bit]
    · simp [below]

theorem told (shown : TellsInline (of c) data bits) :
    c.onHeap = false ∧ c.inlineLen = bits ∧ ∀ k < inlineBits, c.inlineSpan.bit k = data k := by
  have inline : c.onHeap = false := (keeps.mode c).symm.trans shown.mode
  refine ⟨inline, (keeps.len inline).symm.trans shown.len, ?_⟩
  rw [← keeps.span inline]
  exact shown.bit

theorem ofInline_tells {first second : BitVec 64} (room : bits ≤ inlineBits)
    (clear : ∀ i, ControlBlock.lengthShift ≤ i → second.getLsbD i = false) :
    TellsInline (of (.ofInline #[first, second] bits)) (bitIn #[first, second]) bits := by
  refine keeps.tells room (field_above (Nat.lt_of_le_of_lt room (by decide)) clear) ?_
  intro k below
  rw [ControlBlock.inlineSpan_bit]
  exact ControlBlock.counted_bit below

theorem setLen_tells {s : S} {n : Nat} (told : TellsInline s data bits) (room : n ≤ inlineBits) :
    TellsInline (Storage.setLen n s) data n := by
  obtain ⟨c, rfl⟩ := keeps.whole s
  obtain ⟨inline, -, bit⟩ := keeps.told told
  rw [keeps.setLen n inline]
  refine keeps.tells room (c.setInlineLen_count room).1 fun k below => ?_
  rw [c.setInlineLen_bit n below, bit k below]

theorem set_tells {s : S} {i : Nat} (told : TellsInline s data bits) (below : i < bits)
    (value : Bool) : ∃ s', inPlace (Span.set i value) s = .ok () s' ∧
      TellsInline s' (Function.update data i value) bits := by
  obtain ⟨c, rfl⟩ := keeps.whole s
  obtain ⟨inline, rfl, bit⟩ := keeps.told told
  have held : c.inlineSpan.Held := by
    simpa [Span.Held, ControlBlock.inlineSpan] using
      Nat.le_trans told.room (show inlineBits ≤ 2 * 64 by decide)
  obtain ⟨⟨⟩, span, ran, within, -, list⟩ | ⟨failure, span, -, -, outside, -⟩ :=
    (Span.set_ends held i value).ran
  case inr => exact absurd below (Nat.not_lt.mpr outside)
  have written : ∀ k, bitIn span.words k = Function.update c.inlineSpan.bit i value k := by
    intro k
    rw [← within.bit_set list below, Span.bit, within.start]
    exact congrArg _ (Nat.zero_add k).symm
  rw [← keeps.span inline] at ran
  rw [within.eq_words] at within
  obtain ⟨same, -, count⟩ := ControlBlock.putInline_count told.room within
  refine ⟨of (c.putInline span.words), ?_, keeps.tells told.room count fun k small => ?_⟩
  · rw [inPlace, Attempt.within_ok ran, keeps.putWords _ inline]
  · rw [ControlBlock.inlineSpan_bit, same, written]
    by_cases here : k = i
    · simp [here]
    · simp [here, bit k small]

end KeepsInline

end

namespace SmallBuffer
variable {address capacity bits : Nat}

theorem keepsInline : KeepsInline SmallBuffer.mk where
  whole s := ⟨s.control, rfl⟩
  mode c := rfl
  len inline := by simp [Storage.len, len, onHeap, inline]
  words inline := by simp [Storage.words, words, len, onHeap, inline]
  span inline := by simp [Container.span, span, onHeap, inline]
  setLen bits inline := by simp [Storage.setLen, setLen, onHeap, inline]
  putWords words inline := by simp [Container.putWords, putWords, onHeap, inline]

theorem ofBlock_header (words : Array (BitVec 64)) :
    (ofBlock address capacity bits words).control.block.words.getD 0 0#64 =
      BitVec.ofNat 64 capacity := by
  have room : 0 + 1 ≤ (Array.replicate (capacity + 1) 0#64).size := by simp
  show (overwrite _ 1 words).getD 0 0#64 = _
  rw [getD_overwrite_before _ _ Nat.one_pos, getD_overwrite _ _ _ room]
  rfl

theorem tells_of_second {s : SmallBuffer} {given : Block}
    (second : s.control.second = BitVec.ofNat 64 bits ||| ControlBlock.heapFlag)
    (small : bits ≤ maxBits) (address : s.headerAddress = given.address)
    (held : s.heapCapacity = capacity) (words : s.control.block.words = given.words)
    (index : s.control.block.indexOf s.dataAddress = 1) : TellsHeap s given capacity bits := by
  have mode : s.onHeap = true := ControlBlock.onHeap_flagged second
  have len : s.len = bits := by
    simpa [SmallBuffer.len, mode, second] using
      ControlBlock.unflagged (Nat.lt_of_le_of_lt small (by decide))
  constructor
  case mode => exact mode
  case len => exact len
  case address => simp [StorageSpec.block, block, mode, address, held, StorageSpec.header]
  case room => simp [Storage.capacity, SmallBuffer.capacity, mode, held]
  case span =>
    simp [Container.span, span, mode, len, ControlBlock.heapSpan, words, index, StorageSpec.header]

theorem ofBlock_tells (words : Array (BitVec 64)) (reach : address + headerBytes < 2 ^ 64)
    (count : capacity < 2 ^ 64) (small : bits ≤ maxBits) :
    TellsHeap (ofBlock address capacity bits words)
      (ofBlock address capacity bits words).control.block capacity bits := by
  have data : (ofBlock address capacity bits words).dataAddress = address + headerBytes := by
    simpa [ofBlock, dataAddress] using reach
  have header : (ofBlock address capacity bits words).headerAddress = address := by
    simp [headerAddress, data]
  have granted : (ofBlock address capacity bits words).control.block.address = address := rfl
  apply tells_of_second rfl small header
  case held =>
    simp only [heapCapacity, Block.wordAt, Block.indexOf, header, granted, Nat.sub_self,
      Nat.zero_div, ofBlock_header]
    exact Nat.mod_eq_of_lt count
  case words => rfl
  case index => simp [Block.indexOf, data, granted, headerBytes]

theorem setLen_tells {s : SmallBuffer} {given : Block} {old : Nat}
    (told : TellsHeap s given capacity old) (small : bits ≤ maxBits) :
    TellsHeap (s.setLen bits) given capacity bits := by
  have mode : s.onHeap = true := told.mode
  have owned : s.headerAddress = given.address ∧ s.heapCapacity = capacity := by
    simpa [StorageSpec.block, block, mode, StorageSpec.header] using told.address
  obtain ⟨words, start, -⟩ : s.control.block.words = given.words ∧
      s.control.block.indexOf s.dataAddress * 64 = 1 * 64 ∧ s.len = old := by
    simpa [Container.span, span, mode, ControlBlock.heapSpan, StorageSpec.header] using told.span
  have set : s.setLen bits =
      ⟨{ s.control with second := BitVec.ofNat 64 bits ||| ControlBlock.heapFlag }⟩ := if_pos mode
  rw [set]
  apply tells_of_second rfl small
  case address => exact owned.1
  case held => exact owned.2
  case words => exact words
  case index => exact Nat.eq_of_mul_eq_mul_right (by decide) start

end SmallBuffer

namespace Tagged
variable {address capacity bits : Nat}

theorem keepsInline : KeepsInline Tagged.mk where
  whole s := ⟨s.control, rfl⟩
  mode c := rfl
  len inline := by simp [Storage.len, len, onHeap, inline]
  words inline := by simp [Storage.words, words, len, onHeap, inline]
  span inline := by simp [Container.span, span, onHeap, inline]
  setLen bits inline := by simp [Storage.setLen, setLen, onHeap, inline]
  putWords words inline := by simp [Container.putWords, putWords, onHeap, inline]

theorem relength_fields (word : BitVec 64) (small : bits ≤ maxBits) :
    (((word &&& ~~~lengthFieldMask) ||| BitVec.ofNat 64 bits) &&& lengthFieldMask).toNat = bits ∧
      ((word &&& ~~~lengthFieldMask) ||| BitVec.ofNat 64 bits) >>> capacityShift =
        word >>> capacityShift := by
  constructor
  · rw [BitVec.or_comm, lengthFieldMask_eq]
    apply field_below (by decide) (Nat.lt_of_le_of_lt small (by decide))
    intro i below
    simp [getLsbD_maskTo, below]
  · apply BitVec.eq_of_getLsbD_eq
    intro i inside
    have above : lengthFieldBits ≤ capacityShift + i := Nat.le_add_right_of_le (by decide)
    simp only [BitVec.getLsbD_ushiftRight, BitVec.getLsbD_or, BitVec.getLsbD_and,
      BitVec.getLsbD_not, lengthFieldMask_eq, getLsbD_maskTo, small_bit small above,
      Nat.not_lt.mpr above, decide_false, Bool.or_false]
    by_cases top : capacityShift + i < 64
    · simp [top]
    · simp [BitVec.getLsbD_of_ge word _ (Nat.le_of_not_lt top)]

theorem tells_of_fields {s : Tagged} {given : Block} (mode : s.onHeap = true)
    (len : (s.control.first &&& lengthFieldMask).toNat = bits)
    (address : s.address = given.address) (held : s.heapCapacity = capacity)
    (words : s.control.block.words = given.words)
    (index : s.control.block.indexOf s.address = 0) : TellsHeap s given capacity bits := by
  have len : s.len = bits := by simpa [Tagged.len, mode] using len
  constructor
  case mode => exact mode
  case len => exact len
  case address => simp [StorageSpec.block, block, mode, address, held, StorageSpec.header]
  case room => simp [Storage.capacity, Tagged.capacity, mode, held]
  case span =>
    simp [Container.span, span, mode, len, ControlBlock.heapSpan, words, index, StorageSpec.header]

theorem ofBlock_tells (words : Array (BitVec 64)) (reach : address < 2 ^ 48)
    (count : capacity < 2 ^ 32) (small : bits ≤ maxBits) :
    TellsHeap (ofBlock address capacity bits words)
      (ofBlock address capacity bits words).control.block capacity bits := by
  have told : (ofBlock address capacity bits words).address = address := packed_address reach
  have granted : (ofBlock address capacity bits words).control.block.address = address := rfl
  apply tells_of_fields
  case mode => exact ControlBlock.onHeap_flagged rfl
  case len => exact packed_len capacity small
  case address => exact told
  case held => exact packed_capacity count small
  case words => rfl
  case index => simp [Block.indexOf, told, granted]

theorem setLen_tells {s : Tagged} {given : Block} {old : Nat}
    (told : TellsHeap s given capacity old) (small : bits ≤ maxBits) :
    TellsHeap (s.setLen bits) given capacity bits := by
  have mode : s.onHeap = true := told.mode
  have owned : s.address = given.address ∧ s.heapCapacity = capacity := by
    simpa [StorageSpec.block, block, mode, StorageSpec.header] using told.address
  obtain ⟨words, start, -⟩ : s.control.block.words = given.words ∧
      s.control.block.indexOf s.address * 64 = 0 * 64 ∧ s.len = old := by
    simpa [Container.span, span, mode, ControlBlock.heapSpan, StorageSpec.header] using told.span
  obtain ⟨len, above⟩ := relength_fields s.control.first small
  have set : s.setLen bits = ⟨{ s.control with
      first := (s.control.first &&& ~~~lengthFieldMask) ||| BitVec.ofNat 64 bits }⟩ := if_pos mode
  rw [set]
  apply tells_of_fields
  case mode => exact mode
  case len => exact len
  case address => exact owned.1
  case held => exact (congrArg BitVec.toNat above).trans owned.2
  case words => exact words
  case index => exact Nat.eq_of_mul_eq_mul_right (by decide) start

end Tagged

/-- What is put into the control words is told, and every change leaves what it is not about:
writing a bit leaves the length, the mode and the other bits, and another length leaves the bits or,
on the heap, the address, the capacity and the words there. -/
structure Encodes {S : Type} [Storage S 64] [StorageSpec S 64] (of : ControlBlock → S)
    (ofBlock : (address capacity bits : Nat) → Array (BitVec 64) → S)
    (Fits : (address capacity : Nat) → Prop) : Prop where
  inline {first second : BitVec 64} {bits : Nat} : bits ≤ inlineBits →
    (∀ i, ControlBlock.lengthShift ≤ i → second.getLsbD i = false) →
    TellsInline (of (.ofInline #[first, second] bits)) (bitIn #[first, second]) bits
  setBit {s : S} {data : Nat → Bool} {bits i : Nat} (value : Bool) :
    TellsInline s data bits → i < bits → ∃ s', inPlace (Span.set i value) s = .ok () s' ∧
      TellsInline s' (Function.update data i value) bits
  setLenInline {s : S} {data : Nat → Bool} {bits n : Nat} :
    TellsInline s data bits → n ≤ inlineBits → TellsInline (Storage.setLen n s) data n
  heap {address capacity bits : Nat} (words : Array (BitVec 64)) :
    Fits address capacity → bits ≤ Storage.maxBits S → ∃ given : Block, given.address = address ∧
      TellsHeap (ofBlock address capacity bits words) given capacity bits
  setLenHeap {s : S} {given : Block} {capacity bits n : Nat} :
    TellsHeap s given capacity bits → n ≤ Storage.maxBits S →
    TellsHeap (Storage.setLen n s) given capacity n

/-- The two control words carry the mode, the length and the bits or the place and size of a block
without interference, whatever stands in the other fields, up to the limit of each. -/
theorem control_words_carry_their_fields :
    Encodes SmallBuffer.mk SmallBuffer.ofBlock (fun address capacity =>
      address + SmallBuffer.headerBytes < 2 ^ 64 ∧ capacity < 2 ^ 64) ∧
    Encodes Tagged.mk Tagged.ofBlock (fun address capacity =>
      address < 2 ^ 48 ∧ capacity < 2 ^ 32) := by
  constructor
  · constructor
    case inline => exact SmallBuffer.keepsInline.ofInline_tells
    case setBit => exact fun value told below => SmallBuffer.keepsInline.set_tells told below value
    case setLenInline => exact SmallBuffer.keepsInline.setLen_tells
    case heap => exact fun words fits small =>
      ⟨_, rfl, SmallBuffer.ofBlock_tells words fits.1 fits.2 small⟩
    case setLenHeap => exact SmallBuffer.setLen_tells
  · constructor
    case inline => exact Tagged.keepsInline.ofInline_tells
    case setBit => exact fun value told below => Tagged.keepsInline.set_tells told below value
    case setLenInline => exact Tagged.keepsInline.setLen_tells
    case heap => exact fun words fits small =>
      ⟨_, rfl, Tagged.ofBlock_tells words fits.1 fits.2 small⟩
    case setLenHeap => exact Tagged.setLen_tells

/-- All inline bits in use but the last one cleared, and a block at the last address with as many
words and as great a length as a tagged storage can tell. -/
theorem control_words_carry_their_fields_at_their_limits :
    (∃ s : Tagged, inPlace (Span.set 119 false)
        (Tagged.mk (.ofInline #[maskTo 64 64, maskTo 64 56] 120)) = .ok () s ∧
      s.onHeap = false ∧ s.len = 120 ∧ s.span.bit 119 = false ∧ s.span.bit 118 = true) ∧
    ((Tagged.ofBlock (2 ^ 48 - 1) (2 ^ 32 - 1) 0 #[]).setLen Tagged.maxBits).capacity =
      (2 ^ 32 - 1) * 64 := by
  obtain ⟨-, tagged⟩ := control_words_carry_their_fields
  constructor
  · have clear (i : Nat) (above : 56 ≤ i) : (maskTo 64 56).getLsbD i = false := by
      simp only [getLsbD_maskTo, Nat.not_lt.mpr above, decide_false, Bool.false_and]
    obtain ⟨s, ran, told⟩ := tagged.setBit false (tagged.inline (Nat.le_refl 120) clear)
      (show 119 < 120 by decide)
    refine ⟨s, ran, told.mode, told.len, ?_, ?_⟩
    · exact (told.bit 119 (by decide)).trans (Function.update_self ..)
    · exact (told.bit 118 (by decide)).trans (by decide)
  · have fits : 2 ^ 48 - 1 < 2 ^ 48 ∧ 2 ^ 32 - 1 < 2 ^ 32 := by decide
    obtain ⟨given, -, told⟩ := tagged.heap #[] fits (Nat.zero_le _)
    exact (tagged.setLenHeap told (Nat.le_refl _)).room

end PackedBits
