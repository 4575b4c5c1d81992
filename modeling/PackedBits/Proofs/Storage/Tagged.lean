import PackedBits.Storage.Tagged
import PackedBits.Proofs.Storage.ControlBlock

/-! The tagged storage is lawful. On the heap the control words are read back as the capacity, the
length and the address that they were written with, as long as the address fits its 48 bits; a
block for which it does not is given back. -/
namespace PackedBits.Tagged
variable {s : Tagged} {address capacity bits : Nat}

structure Heap (s : Tagged) (address capacity bits : Nat) : Prop where
  first : s.control.first =
    (BitVec.ofNat 64 capacity <<< capacityShift) ||| BitVec.ofNat 64 bits
  second : s.control.second = BitVec.ofNat 64 address ||| ControlBlock.heapFlag
  granted : s.control.block.address = address
  keeps : s.control.block.Keeps 0 capacity bits
  nonempty : 0 < capacity
  reach : address < 2 ^ 48
  count : capacity < 2 ^ 32
  small : bits ≤ maxBits

def Sound (s : Tagged) : Prop :=
  s.control.Inline ∨ ∃ address capacity bits, Heap s address capacity bits

def block (s : Tagged) : Option Grant :=
  if s.onHeap then some ⟨s.address, s.heapCapacity⟩ else none

instance : StorageSpec Tagged 64 where
  Sound := Sound
  block := block
  header := 0
  blockWords needed current := min (grownCapacity needed current) (wordsFor 64 maxBits)
  admits address := decide (address < 2 ^ 48)

theorem lengthFieldMask_eq : lengthFieldMask = maskTo 64 lengthFieldBits := by decide

theorem addressMask_eq : addressMask = maskTo 64 48 := by decide

theorem small_bit {i : Nat} (small : bits ≤ maxBits) (above : lengthFieldBits ≤ i) :
    (BitVec.ofNat 64 bits).getLsbD i = false := by
  rw [BitVec.getLsbD_ofNat, testBit_small (Nat.lt_of_le_of_lt small (by decide)) above,
    Bool.and_false]

theorem shifted_bit {i : Nat} (capacity : Nat) (below : i < lengthFieldBits) :
    (BitVec.ofNat 64 capacity <<< capacityShift).getLsbD i = false := by
  rw [BitVec.getLsbD_shiftLeft, decide_eq_true (show i < capacityShift by
    unfold capacityShift
    unfold lengthFieldBits at below
    omega)]
  simp

theorem packed_capacity (count : capacity < 2 ^ 32) (small : bits ≤ maxBits) :
    (((BitVec.ofNat 64 capacity <<< capacityShift) ||| BitVec.ofNat 64 bits) >>>
      capacityShift).toNat = capacity := by
  rw [BitVec.or_comm]
  exact field_above count fun i above => small_bit small (Nat.le_trans (by decide) above)

theorem packed_len (capacity : Nat) (small : bits ≤ maxBits) :
    (((BitVec.ofNat 64 capacity <<< capacityShift) ||| BitVec.ofNat 64 bits) &&&
      lengthFieldMask).toNat = bits := by
  rw [BitVec.or_comm, lengthFieldMask_eq]
  exact field_below (by decide) (Nat.lt_of_le_of_lt small (by decide))
    fun i below => shifted_bit capacity below

theorem packed_address (reach : address < 2 ^ 48) :
    ((BitVec.ofNat 64 address ||| ControlBlock.heapFlag) &&& addressMask).toNat = address := by
  rw [addressMask_eq]
  refine field_below (by decide) reach fun i below => ?_
  rw [ControlBlock.heapFlag_bit, decide_eq_false (by omega)]

theorem relength_first {old : Nat} (smallOld : old ≤ maxBits) :
    (((BitVec.ofNat 64 capacity <<< capacityShift) ||| BitVec.ofNat 64 old) &&&
        ~~~lengthFieldMask) ||| BitVec.ofNat 64 bits =
      (BitVec.ofNat 64 capacity <<< capacityShift) ||| BitVec.ofNat 64 bits := by
  refine BitVec.eq_of_getLsbD_eq fun i word => ?_
  rw [BitVec.getLsbD_or, BitVec.getLsbD_and, BitVec.getLsbD_or, BitVec.getLsbD_not,
    lengthFieldMask_eq, getLsbD_maskTo, BitVec.getLsbD_or, decide_eq_true word]
  by_cases field : i < lengthFieldBits
  · rw [shifted_bit capacity field, decide_eq_true field]
    simp
  · rw [small_bit smallOld (Nat.le_of_not_lt field), decide_eq_false field]
    simp

namespace Heap

theorem onHeap (heap : Heap s address capacity bits) : s.onHeap = true :=
  ControlBlock.onHeap_flagged heap.second

theorem address_eq (heap : Heap s address capacity bits) : s.address = address := by
  rw [Tagged.address, heap.second]
  exact packed_address heap.reach

theorem heapCapacity (heap : Heap s address capacity bits) : s.heapCapacity = capacity := by
  rw [Tagged.heapCapacity, heap.first]
  exact packed_capacity heap.count heap.small

theorem len (heap : Heap s address capacity bits) : s.len = bits := by
  rw [Tagged.len, if_pos heap.onHeap, heap.first]
  exact packed_len capacity heap.small

theorem capacity_eq (heap : Heap s address capacity bits) : s.capacity = capacity * 64 := by
  rw [Tagged.capacity, if_pos heap.onHeap, heap.heapCapacity]

theorem block_eq (heap : Heap s address capacity bits) : block s = some ⟨address, capacity⟩ := by
  rw [block, if_pos heap.onHeap, heap.address_eq, heap.heapCapacity]

theorem index (heap : Heap s address capacity bits) :
    s.control.block.indexOf s.address = 0 := by
  rw [Block.indexOf, heap.granted, heap.address_eq, Nat.sub_self]

theorem span_eq (heap : Heap s address capacity bits) :
    s.span = ⟨s.control.block.words, 0 * 64, bits⟩ := by
  rw [Tagged.span, if_pos heap.onHeap, ControlBlock.heapSpan, heap.index, heap.len]

theorem words_eq (heap : Heap s address capacity bits) :
    s.words = s.control.block.words.extract 0 (0 + wordsFor 64 bits) := by
  unfold Tagged.words
  rw [heap.len, if_pos heap.onHeap, ControlBlock.heapWords, heap.index]

end Heap

section Inline
variable (inline : s.control.Inline)
include inline

theorem inline_mode : ¬ s.onHeap = true := by
  rw [onHeap, inline.onHeap]
  decide

theorem inline_len : s.len = s.control.inlineLen := if_neg (inline_mode inline)

theorem inline_capacity : s.capacity = inlineBits := if_neg (inline_mode inline)

theorem inline_span : s.span = s.control.inlineSpan := if_neg (inline_mode inline)

theorem inline_words :
    s.words = s.control.inlineWords.extract 0 (wordsFor 64 s.control.inlineLen) := by
  unfold words
  rw [if_neg (inline_mode inline), inline_len inline]

theorem inline_block : block s = none := if_neg (inline_mode inline)

end Inline

theorem form (sound : Sound s) : Form s.span s.capacity s.words := by
  rcases sound with inline | ⟨address, capacity, bits, heap⟩
  · rw [inline_span inline, inline_capacity inline, inline_words inline]
    exact .inline inline
  · rw [heap.span_eq, heap.capacity_eq, heap.words_eq]
    exact .heap heap.keeps

theorem span_len (s : Tagged) : s.span.len = s.len := by
  unfold span len
  split <;> rfl

theorem words_size (sound : Sound s) : s.words.size = wordsFor 64 s.len :=
  (form sound).words_size.trans (congrArg (wordsFor 64) (span_len s))

theorem words_spare (sound : Sound s) (k : Nat) (past : s.len ≤ k) : bitIn s.words k = false :=
  (form sound).words_spare k (Nat.le_trans (Nat.le_of_eq (span_len s)) past)

theorem ofBlock_heap {words : Array (BitVec 64)} (nonempty : 0 < capacity)
    (count : capacity < 2 ^ 32) (reach : address < 2 ^ 48) (small : bits ≤ maxBits)
    (room : bits ≤ capacity * 64) (size : words.size = wordsFor 64 bits)
    (spare : ∀ k, bits ≤ k → bitIn words k = false) :
    Heap (ofBlock address capacity bits words) address capacity bits ∧
      ∀ k < capacity * 64,
        (ofBlock address capacity bits words).span.bit k = bitIn words k := by
  obtain ⟨keeps, bit, -⟩ :
      Block.Keeps ⟨address, freshBlock capacity words⟩ 0 capacity bits ∧ _ ∧ _ :=
    Block.Keeps.of_overwrite (by rw [Array.size_replicate, Nat.zero_add])
      (fun k _ => bitIn_replicate ..) room size spare
  have heap : Heap (ofBlock address capacity bits words) address capacity bits :=
    ⟨rfl, rfl, rfl, keeps, nonempty, reach, count, small⟩
  refine ⟨heap, fun k below => ?_⟩
  rw [heap.span_eq]
  exact bit k below

theorem setLen_relengthened (sound : Sound s) (room : bits ≤ s.capacity) (small : bits ≤ maxBits)
    (clear : ∀ k, bits ≤ k → k < s.len → s.span.bit k = false) :
    Storage.Relengthened s (s.setLen bits) bits := by
  rcases sound with inline | ⟨address, capacity, old, heap⟩
  · rw [inline_capacity inline] at room
    rw [inline_span inline, inline_len inline] at clear
    have mode : s.setLen bits = ⟨s.control.setInlineLen bits⟩ := if_neg (inline_mode inline)
    obtain ⟨inline', len, bit⟩ := ControlBlock.setInlineLen_inline inline room clear
    rw [mode]
    refine ⟨.inl inline', fun k below => ?_, (inline_len inline').trans len,
      (inline_capacity inline').trans (inline_capacity inline).symm,
      (inline_block inline').trans (inline_block inline).symm⟩
    have below' : k < inlineBits := (inline_capacity inline) ▸ below
    show (span _).bit k = s.span.bit k
    rw [inline_span (s := ⟨s.control.setInlineLen bits⟩) inline', inline_span inline]
    exact bit k below'
  · rw [heap.capacity_eq] at room
    rw [heap.span_eq, heap.len] at clear
    have mode : s.setLen bits = ⟨{ s.control with
        first := (s.control.first &&& ~~~lengthFieldMask) ||| BitVec.ofNat 64 bits }⟩ :=
      if_pos heap.onHeap
    have heap' : Heap (s.setLen bits) address capacity bits := by
      rw [mode]
      refine ⟨?_, heap.second, heap.granted, heap.keeps.relength room clear, heap.nonempty,
        heap.reach, heap.count, small⟩
      rw [heap.first]
      exact relength_first heap.small
    refine ⟨.inr ⟨address, capacity, bits, heap'⟩, fun k below => ?_, heap'.len,
      heap'.capacity_eq.trans heap.capacity_eq.symm, heap'.block_eq.trans heap.block_eq.symm⟩
    show (span _).bit k = s.span.bit k
    rw [heap'.span_eq, heap.span_eq, mode]
    rfl

theorem putWords_self (s : Tagged) : s.putWords s.span.words = s := by
  unfold putWords span
  cases s.onHeap <;> rfl

theorem putWords_putWords {words : Array (BitVec 64)} (mode : (s.putWords words).onHeap = s.onHeap)
    (words' : Array (BitVec 64)) : (s.putWords words).putWords words' = s.putWords words' := by
  rw [putWords, mode]
  unfold putWords
  cases s.onHeap <;> rfl

theorem putWords_rewritten {words : Array (BitVec 64)} (sound : Sound s)
    (within : Span.Within s.span { s.span with words := words }) :
    Storage.Rewritten s (s.putWords words) words := by
  rcases sound with inline | ⟨address, capacity, bits, heap⟩
  · have mode : s.putWords words = ⟨s.control.putInline words⟩ := if_neg (inline_mode inline)
    rw [inline_span inline] at within
    obtain ⟨inline', same⟩ := ControlBlock.putInline_inline inline within
    rw [mode]
    refine ⟨.inl inline', ?_, (inline_capacity inline').trans (inline_capacity inline).symm,
      (inline_block inline').trans (inline_block inline).symm⟩
    show span _ = { s.span with words := words }
    rw [inline_span (s := ⟨s.control.putInline words⟩) inline', inline_span inline]
    exact same
  · have mode : s.putWords words = ⟨{ s.control with
        block := { s.control.block with words := words } }⟩ := if_pos heap.onHeap
    rw [heap.span_eq] at within
    have keeps := (heap.keeps.rewritten within).1
    have heap' : Heap (s.putWords words) address capacity bits := by
      rw [mode]
      exact ⟨heap.first, heap.second, heap.granted, keeps, heap.nonempty, heap.reach, heap.count,
        heap.small⟩
    refine ⟨.inr ⟨address, capacity, bits, heap'⟩, ?_,
      heap'.capacity_eq.trans heap.capacity_eq.symm, heap'.block_eq.trans heap.block_eq.symm⟩
    show span _ = { s.span with words := words }
    rw [heap'.span_eq, heap.span_eq, mode]

theorem len_le_maxBits (sound : Sound s) : s.len ≤ maxBits := by
  rcases sound with inline | ⟨address, capacity, bits, heap⟩
  · rw [inline_len inline]
    exact Nat.le_trans inline.room (by decide)
  · rw [heap.len]
    exact heap.small

section
variable {policy : Policy} {refusals : Nat} {others : List Grant} {h : Holding Tagged}

theorem release_ends {p : Provider} (s : Tagged)
    (books : Books policy refusals ((block s).toList ++ others) p) :
    (release s).Ends p (fun _ p' => Books policy refusals others p') fun _ _ => False := by
  rw [release]
  by_cases mode : s.onHeap = true
  · rw [if_pos mode]
    rw [block, if_pos mode] at books
    exact books.release_ends.imp (fun _ _ reached => reached.2) fun _ _ => id
  · rw [if_neg mode]
    rwa [block, if_neg mode] at books

theorem address_fits (reach : address < 2 ^ 64) :
    BitVec.ofNat 64 address &&& ~~~addressMask = 0#64 ↔ address < 2 ^ 48 := by
  constructor
  · intro none
    refine Nat.lt_pow_two_of_testBit _ fun i above => ?_
    by_cases word : i < 64
    · have bit : (BitVec.ofNat 64 address &&& ~~~addressMask).getLsbD i = false := by
        rw [none, BitVec.getLsbD_zero]
      rw [BitVec.getLsbD_and, BitVec.getLsbD_not, BitVec.getLsbD_ofNat, addressMask_eq,
        getLsbD_maskTo, decide_eq_true word, decide_eq_false (Nat.not_lt.mpr above)] at bit
      simpa using bit
    · exact testBit_small reach (Nat.le_of_not_lt word)
  · intro small
    refine BitVec.eq_of_getLsbD_eq fun i word => ?_
    rw [BitVec.getLsbD_and, BitVec.getLsbD_not, BitVec.getLsbD_ofNat, addressMask_eq,
      getLsbD_maskTo, BitVec.getLsbD_zero]
    by_cases field : i < 48
    · simp [field, word]
    · rw [testBit_small small (Nat.le_of_not_lt field)]
      simp

theorem allocate_ends {p : Provider} {blocks : List Grant} (books : Books policy refusals blocks p)
    (words : Nat) (nonempty : 0 < words) :
    (allocate words).Ends p
      (fun address p' => Storage.refusal Tagged policy ⟨p.requests, 64, words⟩ = none ∧
        policy ⟨p.requests, 64, words⟩ = .ok address ∧
        Books policy refusals (⟨address, words⟩ :: blocks) p')
      fun failure p' => (∃ error, failure = .error error ∧
          Storage.refusal Tagged policy ⟨p.requests, 64, words⟩ = some error) ∧
        p'.live = p.live ∧
        Declined policy refusals blocks (Storage.Admitted Tagged policy) failure p' := by
  refine ((books.allocate_ends 64 words).imp (fun _ _ => id) ?_).bind ?_
  · rintro failure p' ⟨error, rfl, answer, live, books'⟩
    exact ⟨⟨error, rfl, Storage.refusal_of_refused answer⟩, live, Attempt.error_tame _,
      books'.fewer, fun _ => books'⟩
  · rintro address p' ⟨answer, live, books'⟩
    have reach := books.lawful.reach answer
    have fits := address_fits (show address < 2 ^ 64 by omega)
    -- A block out of reach is struck off again, so a refusal is all that remains.
    by_cases inside : address < 2 ^ 48
    · rw [if_neg (not_not_intro (fits.mpr inside))]
      exact ⟨(Storage.refusal_of_granted answer).trans (if_pos (decide_eq_true inside)), answer,
        books'⟩
    · rw [if_pos (fun none => inside (fits.mp none))]
      refine (books'.release_ends.imp (fun _ _ => id) fun _ _ => False.elim).bind ?_
      rintro ⟨⟩ p'' ⟨struck, books''⟩
      rw [live, List.erase_cons_head] at struck
      refine ⟨⟨.allocFailed words, rfl, ?_⟩, struck, Attempt.error_tame _, books'', ?_⟩
      · exact (Storage.refusal_of_granted answer).trans (if_neg (inside ∘ of_decide_eq_true))
      · intro admitted
        exact absurd (of_decide_eq_true (admitted _ _ answer)) inside

theorem moveToHeap_ends (sound : h.Sound policy refusals others) (nonempty : 0 < capacity)
    (count : capacity < 2 ^ 32) (room : h.storage.len ≤ capacity * 64) :
    (moveToHeap capacity).Ends h
      (fun _ => h.Moved policy refusals others ⟨h.provider.requests, 64, capacity⟩ capacity)
      (h.Refused policy refusals others
        (Storage.refusal Tagged policy ⟨h.provider.requests, 64, capacity⟩)
        (Storage.Admitted Tagged policy)) := by
  refine Holding.move_ends sound (allocate_ends sound.books capacity nonempty)
    ?_ fun rest p => release_ends h.storage
  intro address answer granted
  -- Only an address within reach is not refused.
  have reach : address < 2 ^ 48 := by
    refine Decidable.byContradiction fun outside => ?_
    have out : ¬ StorageSpec.admits Tagged address = true := outside ∘ of_decide_eq_true
    rw [Storage.refusal_of_granted answer, if_neg out] at granted
    cases granted
  obtain ⟨heap, bit⟩ := ofBlock_heap nonempty count reach (len_le_maxBits sound.storage) room
    (words_size sound.storage) (words_spare sound.storage)
  refine ⟨.inr ⟨_, _, _, heap⟩, heap.block_eq, ?_, heap.capacity_eq⟩
  refine (form sound.storage).toList_eq ?_ fun k below => ?_
  · rw [span_len]
    exact (span_len _).trans heap.len
  · rw [span_len] at below
    exact bit k (Nat.lt_of_lt_of_le below room)

theorem heldWords_eq (sound : Sound s) :
    Storage.heldWords s = if s.onHeap then s.heapCapacity else 0 := by
  show (if s.onHeap then s.capacity / 64 else 0) = if s.onHeap then s.heapCapacity else 0
  rcases sound with inline | ⟨address, capacity, bits, heap⟩
  · rw [if_neg (inline_mode inline), if_neg (inline_mode inline)]
  · rw [if_pos heap.onHeap, if_pos heap.onHeap, heap.capacity_eq, heap.heapCapacity,
      Nat.mul_div_cancel _ (by decide)]

theorem len_le_capacity (sound : Sound s) : s.len ≤ s.capacity := by
  rw [← span_len]
  exact (form sound).len_le

theorem grow_ends (sound : h.Sound policy refusals others) {total : Nat} (small : total ≤ maxBits)
    (full : h.storage.capacity < total) (current : Nat) :
    (moveToHeap (min (grownCapacity (wordsFor 64 total) current) (wordsFor 64 maxBits))).Ends h
      (fun _ => h.Moved policy refusals others
        ⟨h.provider.requests, 64,
          min (grownCapacity (wordsFor 64 total) current) (wordsFor 64 maxBits)⟩
        (min (grownCapacity (wordsFor 64 total) current) (wordsFor 64 maxBits)))
      (h.Refused policy refusals others
        (Storage.refusal Tagged policy ⟨h.provider.requests, 64,
          min (grownCapacity (wordsFor 64 total) current) (wordsFor 64 maxBits)⟩)
        (Storage.Admitted Tagged policy)) := by
  have room := Nat.le_trans (len_le_capacity sound.storage) (Nat.le_of_lt full)
  have enough := Nat.le_min.mpr
    ⟨le_grownCapacity (wordsFor 64 total) current, wordsFor_mono (w := 64) small⟩
  have positive := Nat.lt_min.mpr
    ⟨grownCapacity_pos (wordsFor 64 total) current, show 0 < wordsFor 64 maxBits by decide⟩
  exact moveToHeap_ends sound positive (Nat.lt_of_le_of_lt (Nat.min_le_right ..) (by decide))
    (Nat.le_trans room (wordsFor_le_iff.mp enough))

theorem reserve_ends (sound : h.Sound policy refusals others) (total : Nat) :
    (reserve total).Ends h
      (fun _ h' => h'.Sound policy refusals others ∧ h'.list = h.list ∧
        total ≤ Storage.capacity h'.storage ∧ total ≤ Storage.maxBits Tagged ∧
        Storage.shortage h total = none)
      (h.Refused policy refusals others (Storage.shortage h total)
        (Storage.Allows Tagged policy total)) :=
  Holding.reserve_ends_of_grow (fun s => moveToHeap
    (min (grownCapacity (wordsFor 64 total) (if s.onHeap then s.heapCapacity else 0))
      (wordsFor 64 maxBits))) sound
    fun small full => by
      have enough := Nat.le_min.mpr ⟨le_grownCapacity (wordsFor 64 total)
        (if h.storage.onHeap then h.storage.heapCapacity else 0), wordsFor_mono (w := 64) small⟩
      exact Holding.grow_ends_of_move sound small full enough
        (by rw [heldWords_eq sound.storage]; rfl) (grow_ends sound small full _)

theorem ofInline_same (sound : Sound s) (small : s.len ≤ inlineBits) :
    (ControlBlock.ofInline s.words s.len).Inline ∧
      (Tagged.mk (ControlBlock.ofInline s.words s.len)).span.toList = s.span.toList := by
  obtain ⟨inline, len, bit⟩ := ControlBlock.ofInline_inline small (words_spare sound)
  let s' : Tagged := ⟨ControlBlock.ofInline s.words s.len⟩
  have lengths : s'.span.len = s.span.len := by
    rw [span_len, inline_len (s := s') inline, len, span_len]
  refine ⟨inline, (form sound).toList_eq lengths fun k below => ?_⟩
  rw [span_len] at below
  rw [inline_span (s := s') inline]
  exact bit k (Nat.lt_of_lt_of_le below small)

theorem shrinkToFit_ends (sound : h.Sound policy refusals others) :
    shrinkToFit.Ends h (fun _ h' => h'.Sound policy refusals others ∧ h'.list = h.list)
      fun _ _ => False := by
  -- The new capacity is less than a field of 32 bits can hold.
  have held : h.storage.heapCapacity < 2 ^ 32 := by
    have word := h.storage.control.first.isLt
    rw [heapCapacity, BitVec.toNat_ushiftRight, Nat.shiftRight_eq_div_pow]
    exact Nat.div_lt_of_lt_mul word
  refine .get_bind (Holding.shrink_ends sound (fun small => ?_) fun need positive less room =>
    moveToHeap_ends sound positive (Nat.lt_trans less held) room)
  obtain ⟨inline, list⟩ := ofInline_same sound.storage small
  exact Holding.settle_ends sound (.inl inline)
    (inline_block (s := ⟨ControlBlock.ofInline h.storage.words h.storage.len⟩) inline) list
    fun rest p => release_ends h.storage

theorem heap_of_capacity (sound : Sound s) (moved : s.capacity = capacity * 64) :
    ∃ address, Heap s address capacity s.len := by
  rcases sound with inline | ⟨address, capacity', bits, heap⟩
  · rw [inline_capacity inline, inlineBits] at moved
    omega
  · rw [heap.capacity_eq] at moved
    obtain rfl : capacity' = capacity := by omega
    rw [heap.len]
    exact ⟨address, heap⟩

theorem filled_heap {out : Tagged} {old held : Nat} (heapOut : Heap out address capacity 0)
    (heap : Heap s old held bits) (room : wordsFor 64 s.len ≤ capacity) :
    Heap (setLen s.len ⟨{ out.control with
      block := out.control.block.overwriteAt out.address s.words }⟩) address capacity bits ∧
    (setLen s.len ⟨{ out.control with
      block := out.control.block.overwriteAt out.address s.words }⟩).span.toList =
        s.span.toList := by
  have sound : Sound s := .inr ⟨_, _, _, heap⟩
  have spare := words_spare sound
  have count := words_size sound
  rw [heap.len] at room count spare
  obtain ⟨keeps, bit, -⟩ :
      Block.Keeps ⟨out.control.block.address, overwrite out.control.block.words 0 s.words⟩ 0
        capacity bits ∧ _ ∧ _ :=
    Block.Keeps.of_overwrite heapOut.keeps.size
      (fun k below => heapOut.keeps.spare k (Nat.zero_le k) below) (wordsFor_le_iff.mp room) count spare
  let filled : Tagged := ⟨{ out.control with
    block := out.control.block.overwriteAt out.address s.words }⟩
  have mode : filled.setLen s.len = ⟨{ filled.control with
      first := (out.control.first &&& ~~~lengthFieldMask) ||| BitVec.ofNat 64 s.len }⟩ :=
    if_pos heapOut.onHeap
  have words : (filled.setLen s.len).control.block.words =
      overwrite out.control.block.words 0 s.words := by
    rw [mode]
    show overwrite _ (out.control.block.indexOf out.address) _ = _
    rw [heapOut.index]
  have heap' : Heap (filled.setLen s.len) address capacity bits := by
    refine ⟨?_, ?_, ?_, ⟨?_, keeps.room, ?_⟩, heapOut.nonempty, heapOut.reach, heapOut.count,
      heap.small⟩
    · rw [mode, heap.len, heapOut.first]
      exact relength_first heapOut.small
    · rw [mode]
      exact heapOut.second
    · rw [mode]
      exact heapOut.granted
    · rw [words]
      exact keeps.size
    · rw [words]
      exact keeps.spare
  have span : (filled.setLen s.len).span =
      ⟨overwrite out.control.block.words 0 s.words, 0 * 64, bits⟩ := by
    rw [heap'.span_eq, words]
  refine ⟨heap', (form sound).toList_eq ?_ fun k below => ?_⟩
  · exact (congrArg Span.len span).trans (congrArg Span.len heap.span_eq).symm
  · rw [span_len, heap.len] at below
    have inUse : k < capacity * 64 := Nat.lt_of_lt_of_le below keeps.room
    exact (congrArg (Span.bit · k) span).trans (bit k inUse)

theorem build_empty_ends {blocks : List Grant} {p : Provider}
    (books : Books policy refusals blocks p) (nonempty : 0 < capacity)
    (count : capacity < 2 ^ 32) :
    (Holding.build empty (moveToHeap capacity)).Ends p
      (fun out p' => ∃ address, Heap out address capacity 0 ∧
        Books policy refusals ((block out).toList ++ blocks) p')
      (Declined policy refusals blocks (Storage.Admitted Tagged policy)) := by
  have unowned : StorageSpec.block empty = none := inline_block ControlBlock.empty_inline
  have start : Holding.Sound policy refusals blocks ⟨empty, p⟩ :=
    ⟨.inl ControlBlock.empty_inline, by rw [unowned]; exact books⟩
  have emptyLen : empty.len = 0 := by decide
  refine (Holding.build_ends_of_move unowned (moveToHeap_ends start nonempty count
    (Nat.le_trans (Nat.le_of_eq emptyLen) (Nat.zero_le _)))).imp ?_ fun _ _ => id
  rintro out p' ⟨sound, list, room, books'⟩
  obtain ⟨address, heap⟩ := heap_of_capacity sound room
  have clear : out.len = 0 := by
    rw [← span_len]
    exact (Span.len_congr list).trans ((span_len empty).trans emptyLen)
  rw [clear] at heap
  exact ⟨address, heap, books'⟩

theorem duplicate_ends {blocks : List Grant} {p : Provider} (sound : Sound s)
    (books : Books policy refusals blocks p) :
    (duplicate s).Ends p
      (fun s' p' => Sound s' ∧ (Container.span s').toList = (Container.span s).toList ∧
        Books policy refusals ((block s').toList ++ blocks) p')
      (Declined policy refusals blocks (Storage.Admitted Tagged policy)) := by
  rw [duplicate]
  by_cases mode : s.onHeap = true
  · rw [if_pos mode]
    obtain ⟨old, held, bits, heap⟩ : ∃ old held bits, Heap s old held bits := by
      rcases sound with inline | heap
      · exact absurd mode (inline_mode inline)
      · exact heap
    have positive : 0 < max (wordsFor 64 s.len) minBlockWords :=
      Nat.lt_of_lt_of_le (by decide) (Nat.le_max_right ..)
    have count : max (wordsFor 64 s.len) minBlockWords < 2 ^ 32 :=
      Nat.max_lt.mpr ⟨Nat.lt_of_le_of_lt (wordsFor_mono (len_le_maxBits sound)) (by decide),
        by decide⟩
    refine (build_empty_ends books positive count).bind ?_
    rintro out p' ⟨address, heapOut, books'⟩
    obtain ⟨filled, list⟩ := filled_heap heapOut heap (Nat.le_max_left ..)
    rw [heapOut.block_eq, ← filled.block_eq] at books'
    exact ⟨.inr ⟨_, _, _, filled⟩, list, books'⟩
  · rw [if_neg mode]
    rcases sound with inline | ⟨address, capacity, bits, heap⟩
    · have inline' : (⟨{ s.control with block := Block.none }⟩ : Tagged).control.Inline :=
        ⟨inline.room, inline.spare⟩
      refine ⟨.inl inline', ?_, by rw [inline_block inline']; exact books⟩
      show (span _).toList = s.span.toList
      rw [inline_span inline', inline_span inline]
      rfl
    · exact absurd heap.onHeap mode

end

instance : LawfulStorage Tagged 64 where
  maxBits_lt := (by decide : maxBits < maxSize)
  len_span := span_len
  room sound := (form sound).room
  len_le_capacity := len_le_capacity
  len_le_maxBits := len_le_maxBits
  spare {s} sound k past below := (form sound).spare k (by rw [span_len]; exact past) below
  onHeap {s} _ := by
    show s.onHeap = (block s).isSome
    rw [block]
    cases s.onHeap <;> rfl
  block_words {s grant} sound owned := by
    change block s = some grant at owned
    show grant.words = s.capacity / 64 + 0
    rcases sound with inline | ⟨address, capacity, bits, heap⟩
    · rw [inline_block inline] at owned
      cases owned
    · rw [heap.block_eq] at owned
      cases owned
      rw [heap.capacity_eq, Nat.mul_div_cancel _ (by decide), Nat.add_zero]
  words_size := words_size
  words_bit {s} sound k := by
    have bit := (form sound).words_bit k
    rwa [span_len] at bit
  putWords := putWords_rewritten
  setLen := setLen_relengthened
  empty_sound := .inl ControlBlock.empty_inline
  empty_len := by decide
  empty_block := inline_block (s := empty) ControlBlock.empty_inline
  reserve_ends := reserve_ends
  reserve_inside {_ total} small room := Holding.reserve_inside
    (fun s => moveToHeap
      (min (grownCapacity (wordsFor 64 total) (if s.onHeap then s.heapCapacity else 0))
        (wordsFor 64 maxBits))) small room
  shrinkToFit_ends := shrinkToFit_ends
  duplicate_ends := duplicate_ends
  release_ends _ books := release_ends _ books

end PackedBits.Tagged
