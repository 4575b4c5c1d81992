import PackedBits.Storage.SmallBuffer
import PackedBits.Proofs.Storage.ControlBlock

/-! The small-buffer storage is lawful. On the heap the control words are read back as the address,
the length and, through the header, the capacity that they were written with, wherever the block
was granted. -/
namespace PackedBits.SmallBuffer
variable {s : SmallBuffer} {address capacity bits : Nat}

structure Heap (s : SmallBuffer) (address capacity bits : Nat) : Prop where
  first : s.control.first = BitVec.ofNat 64 (address + headerBytes)
  second : s.control.second = BitVec.ofNat 64 bits ||| ControlBlock.heapFlag
  granted : s.control.block.address = address
  header : s.control.block.words.getD 0 0#64 = BitVec.ofNat 64 capacity
  keeps : s.control.block.Keeps 1 capacity bits
  nonempty : 0 < capacity
  reach : address + (capacity + 1) * 8 ≤ 2 ^ 64
  small : bits ≤ maxBits

def Sound (s : SmallBuffer) : Prop :=
  s.control.Inline ∨ ∃ address capacity bits, Heap s address capacity bits

def block (s : SmallBuffer) : Option Grant :=
  if s.onHeap then some ⟨s.headerAddress, s.heapCapacity + 1⟩ else none

instance : StorageSpec SmallBuffer 64 where
  Sound := Sound
  block := block
  header := 1
  blockWords needed current := grownCapacity needed current + 1
  admits _ := true

namespace Heap

theorem onHeap (heap : Heap s address capacity bits) : s.onHeap = true :=
  ControlBlock.onHeap_flagged heap.second

theorem dataAddress (heap : Heap s address capacity bits) :
    s.dataAddress = address + headerBytes := by
  have reach := heap.reach
  have nonempty := heap.nonempty
  rw [SmallBuffer.dataAddress, heap.first, BitVec.toNat_ofNat, Nat.mod_eq_of_lt]
  unfold headerBytes
  omega

theorem headerAddress (heap : Heap s address capacity bits) : s.headerAddress = address := by
  rw [SmallBuffer.headerAddress, heap.dataAddress, Nat.add_sub_cancel]

theorem heapCapacity (heap : Heap s address capacity bits) : s.heapCapacity = capacity := by
  have reach := heap.reach
  rw [SmallBuffer.heapCapacity, heap.headerAddress, Block.wordAt, Block.indexOf, heap.granted,
    Nat.sub_self, Nat.zero_div, heap.header, BitVec.toNat_ofNat, Nat.mod_eq_of_lt (by omega)]

theorem len (heap : Heap s address capacity bits) : s.len = bits := by
  rw [SmallBuffer.len, if_pos heap.onHeap, heap.second]
  exact ControlBlock.unflagged (Nat.lt_of_le_of_lt heap.small (by decide))

theorem capacity_eq (heap : Heap s address capacity bits) : s.capacity = capacity * 64 := by
  rw [SmallBuffer.capacity, if_pos heap.onHeap, heap.heapCapacity]

theorem block_eq (heap : Heap s address capacity bits) :
    block s = some ⟨address, capacity + 1⟩ := by
  rw [block, if_pos heap.onHeap, heap.headerAddress, heap.heapCapacity]

theorem index (heap : Heap s address capacity bits) :
    s.control.block.indexOf s.dataAddress = 1 := by
  rw [Block.indexOf, heap.granted, heap.dataAddress, Nat.add_sub_cancel_left]
  rfl

theorem span_eq (heap : Heap s address capacity bits) :
    s.span = ⟨s.control.block.words, 1 * 64, bits⟩ := by
  rw [SmallBuffer.span, if_pos heap.onHeap, ControlBlock.heapSpan, heap.index, heap.len]

theorem words_eq (heap : Heap s address capacity bits) :
    s.words = s.control.block.words.extract 1 (1 + wordsFor 64 bits) := by
  unfold SmallBuffer.words
  rw [heap.len, if_pos heap.onHeap, ControlBlock.heapWords, heap.index]

end Heap

section Inline
variable (inline : s.control.Inline)
include inline

theorem inline_mode : ¬ s.onHeap = true := by
  rw [onHeap, inline.onHeap]
  decide

theorem inline_len : s.len = s.control.inlineLen := if_neg (inline_mode inline)

theorem inline_capacity : s.capacity = inlineBits := if_neg (inline_mode inline)

theorem inline_span : s.span = s.control.inlineSpan := if_neg (inline_mode inline)

theorem inline_words :
    s.words = s.control.inlineWords.extract 0 (wordsFor 64 s.control.inlineLen) := by
  unfold words
  rw [if_neg (inline_mode inline), inline_len inline]

theorem inline_block : block s = none := if_neg (inline_mode inline)

end Inline

theorem form (sound : Sound s) : Form s.span s.capacity s.words := by
  rcases sound with inline | ⟨address, capacity, bits, heap⟩
  · rw [inline_span inline, inline_capacity inline, inline_words inline]
    exact .inline inline
  · rw [heap.span_eq, heap.capacity_eq, heap.words_eq]
    exact .heap heap.keeps

theorem span_len (s : SmallBuffer) : s.span.len = s.len := by
  unfold span len
  split <;> rfl

theorem words_size (sound : Sound s) : s.words.size = wordsFor 64 s.len :=
  (form sound).words_size.trans (congrArg (wordsFor 64) (span_len s))

theorem words_spare (sound : Sound s) (k : Nat) (past : s.len ≤ k) : bitIn s.words k = false :=
  (form sound).words_spare k (Nat.le_trans (Nat.le_of_eq (span_len s)) past)

theorem ofBlock_heap {words : Array (BitVec 64)} (nonempty : 0 < capacity)
    (reach : address + (capacity + 1) * 8 ≤ 2 ^ 64) (small : bits ≤ maxBits)
    (room : bits ≤ capacity * 64) (count : words.size = wordsFor 64 bits)
    (spare : ∀ k, bits ≤ k → bitIn words k = false) :
    Heap (ofBlock address capacity bits words) address capacity bits ∧
      ∀ k < capacity * 64,
        (ofBlock address capacity bits words).span.bit k = bitIn words k := by
  -- The capacity goes into the first word, and the bits behind it.
  let base := overwrite (Array.replicate (capacity + 1) 0#64) 0 #[BitVec.ofNat 64 capacity]
  have size : base.size = 1 + capacity := by
    rw [size_overwrite, Array.size_replicate, Nat.add_comm]
  have inside : 0 + #[BitVec.ofNat 64 capacity].size ≤
      (Array.replicate (capacity + 1) 0#64).size := by simp
  have clear (k : Nat) (below : k < capacity * 64) : bitIn base (1 * 64 + k) = false := by
    rw [bitIn_overwrite _ _ _ inside, if_neg (by simp), bitIn_replicate]
  have header : base.getD 0 0#64 = BitVec.ofNat 64 capacity := by
    rw [getD_overwrite _ _ _ inside, if_pos (by simp)]
    rfl
  obtain ⟨keeps, bit, before⟩ :
      Block.Keeps ⟨address, overwrite base 1 words⟩ 1 capacity bits ∧ _ ∧ _ :=
    Block.Keeps.of_overwrite size clear room count spare
  have heap : Heap (ofBlock address capacity bits words) address capacity bits :=
    ⟨rfl, rfl, rfl, (before 0 Nat.one_pos).trans header, keeps, nonempty, reach, small⟩
  refine ⟨heap, fun k below => ?_⟩
  rw [heap.span_eq]
  exact bit k below

theorem setLen_relengthened (sound : Sound s) (room : bits ≤ s.capacity) (small : bits ≤ maxBits)
    (clear : ∀ k, bits ≤ k → k < s.len → s.span.bit k = false) :
    Storage.Relengthened s (s.setLen bits) bits := by
  rcases sound with inline | ⟨address, capacity, old, heap⟩
  · rw [inline_capacity inline] at room
    rw [inline_span inline, inline_len inline] at clear
    have mode : s.setLen bits = ⟨s.control.setInlineLen bits⟩ := if_neg (inline_mode inline)
    obtain ⟨inline', len, bit⟩ := ControlBlock.setInlineLen_inline inline room clear
    rw [mode]
    refine ⟨.inl inline', fun k below => ?_, (inline_len inline').trans len,
      (inline_capacity inline').trans (inline_capacity inline).symm,
      (inline_block inline').trans (inline_block inline).symm⟩
    have below' : k < inlineBits := (inline_capacity inline) ▸ below
    show (span _).bit k = s.span.bit k
    rw [inline_span (s := ⟨s.control.setInlineLen bits⟩) inline', inline_span inline]
    exact bit k below'
  · rw [heap.capacity_eq] at room
    rw [heap.span_eq, heap.len] at clear
    have mode : s.setLen bits = ⟨{ s.control with
        second := BitVec.ofNat 64 bits ||| ControlBlock.heapFlag }⟩ := if_pos heap.onHeap
    have heap' : Heap (s.setLen bits) address capacity bits := by
      rw [mode]
      exact ⟨heap.first, rfl, heap.granted, heap.header, heap.keeps.relength room clear,
        heap.nonempty, heap.reach, small⟩
    refine ⟨.inr ⟨address, capacity, bits, heap'⟩, fun k below => ?_, heap'.len,
      heap'.capacity_eq.trans heap.capacity_eq.symm, heap'.block_eq.trans heap.block_eq.symm⟩
    show (span _).bit k = s.span.bit k
    rw [heap'.span_eq, heap.span_eq, mode]
    rfl

theorem putWords_self (s : SmallBuffer) : s.putWords s.span.words = s := by
  unfold putWords span
  cases s.onHeap <;> rfl

/-- Of words that are put one after the other the last ones stay, as long as the first ones did not
tell another mode. -/
theorem putWords_putWords {words : Array (BitVec 64)} (mode : (s.putWords words).onHeap = s.onHeap)
    (words' : Array (BitVec 64)) : (s.putWords words).putWords words' = s.putWords words' := by
  rw [putWords, mode]
  unfold putWords
  cases s.onHeap <;> rfl

theorem putWords_rewritten {words : Array (BitVec 64)} (sound : Sound s)
    (within : Span.Within s.span { s.span with words := words }) :
    Storage.Rewritten s (s.putWords words) words := by
  rcases sound with inline | ⟨address, capacity, bits, heap⟩
  · have mode : s.putWords words = ⟨s.control.putInline words⟩ := if_neg (inline_mode inline)
    rw [inline_span inline] at within
    obtain ⟨inline', same⟩ := ControlBlock.putInline_inline inline within
    rw [mode]
    refine ⟨.inl inline', ?_, (inline_capacity inline').trans (inline_capacity inline).symm,
      (inline_block inline').trans (inline_block inline).symm⟩
    show span _ = { s.span with words := words }
    rw [inline_span (s := ⟨s.control.putInline words⟩) inline', inline_span inline]
    exact same
  · have mode : s.putWords words = ⟨{ s.control with
        block := { s.control.block with words := words } }⟩ := if_pos heap.onHeap
    rw [heap.span_eq] at within
    obtain ⟨keeps, before⟩ := heap.keeps.rewritten within
    have heap' : Heap (s.putWords words) address capacity bits := by
      rw [mode]
      exact ⟨heap.first, heap.second, heap.granted, (before 0 Nat.one_pos).trans heap.header, keeps,
        heap.nonempty, heap.reach, heap.small⟩
    refine ⟨.inr ⟨address, capacity, bits, heap'⟩, ?_,
      heap'.capacity_eq.trans heap.capacity_eq.symm, heap'.block_eq.trans heap.block_eq.symm⟩
    show span _ = { s.span with words := words }
    rw [heap'.span_eq, heap.span_eq, mode]

theorem len_le_maxBits (sound : Sound s) : s.len ≤ maxBits := by
  rcases sound with inline | ⟨address, capacity, bits, heap⟩
  · rw [inline_len inline]
    exact Nat.le_trans inline.room (by decide)
  · rw [heap.len]
    exact heap.small

section
variable {policy : Policy} {refusals : Nat} {others : List Grant} {h : Holding SmallBuffer}

theorem release_ends {p : Provider} (s : SmallBuffer)
    (books : Books policy refusals ((block s).toList ++ others) p) :
    (release s).Ends p (fun _ p' => Books policy refusals others p') fun _ _ => False := by
  rw [release]
  by_cases mode : s.onHeap = true
  · rw [if_pos mode]
    rw [block, if_pos mode] at books
    exact books.release_ends.imp (fun _ _ reached => reached.2) fun _ _ => id
  · rw [if_neg mode]
    rwa [block, if_neg mode] at books

theorem moveToHeap_ends (sound : h.Sound policy refusals others) (nonempty : 0 < capacity)
    (room : h.storage.len ≤ capacity * 64) :
    (moveToHeap capacity).Ends h
      (fun _ => h.Moved policy refusals others ⟨h.provider.requests, 64, capacity + 1⟩ capacity)
      (h.Refused policy refusals others
        (Storage.refusal SmallBuffer policy ⟨h.provider.requests, 64, capacity + 1⟩)
        (Storage.Admitted SmallBuffer policy)) := by
  refine Holding.move_ends sound (Holding.allocate_ends sound.books 64 (capacity + 1) fun _ => rfl)
    ?_ fun rest p => release_ends h.storage
  intro address answer _
  have reach := sound.books.lawful.reach answer
  obtain ⟨heap, bit⟩ := ofBlock_heap nonempty reach (len_le_maxBits sound.storage) room
    (words_size sound.storage) (words_spare sound.storage)
  refine ⟨.inr ⟨_, _, _, heap⟩, heap.block_eq, ?_, heap.capacity_eq⟩
  refine (form sound.storage).toList_eq ?_ fun k below => ?_
  · rw [span_len]
    exact (span_len _).trans heap.len
  · rw [span_len] at below
    exact bit k (Nat.lt_of_lt_of_le below room)

theorem heldWords_eq (sound : Sound s) :
    Storage.heldWords s = if s.onHeap then s.heapCapacity else 0 := by
  show (if s.onHeap then s.capacity / 64 else 0) = if s.onHeap then s.heapCapacity else 0
  rcases sound with inline | ⟨address, capacity, bits, heap⟩
  · rw [if_neg (inline_mode inline), if_neg (inline_mode inline)]
  · rw [if_pos heap.onHeap, if_pos heap.onHeap, heap.capacity_eq, heap.heapCapacity,
      Nat.mul_div_cancel _ (by decide)]

theorem len_le_capacity (sound : Sound s) : s.len ≤ s.capacity := by
  rw [← span_len]
  exact (form sound).len_le

theorem grow_ends (sound : h.Sound policy refusals others) {total : Nat}
    (full : h.storage.capacity < total) (current : Nat) :
    (moveToHeap (grownCapacity (wordsFor 64 total) current)).Ends h
      (fun _ => h.Moved policy refusals others
        ⟨h.provider.requests, 64, grownCapacity (wordsFor 64 total) current + 1⟩
        (grownCapacity (wordsFor 64 total) current))
      (h.Refused policy refusals others
        (Storage.refusal SmallBuffer policy
          ⟨h.provider.requests, 64, grownCapacity (wordsFor 64 total) current + 1⟩)
        (Storage.Admitted SmallBuffer policy)) := by
  have room := Nat.le_trans (len_le_capacity sound.storage) (Nat.le_of_lt full)
  exact moveToHeap_ends sound (grownCapacity_pos ..)
    (Nat.le_trans room (wordsFor_le_iff.mp (le_grownCapacity ..)))

theorem reserve_ends (sound : h.Sound policy refusals others) (total : Nat) :
    (reserve total).Ends h
      (fun _ h' => h'.Sound policy refusals others ∧ h'.list = h.list ∧
        total ≤ Storage.capacity h'.storage ∧ total ≤ Storage.maxBits SmallBuffer ∧
        Storage.shortage h total = none)
      (h.Refused policy refusals others (Storage.shortage h total)
        (Storage.Allows SmallBuffer policy total)) :=
  Holding.reserve_ends_of_grow (fun s => moveToHeap
    (grownCapacity (wordsFor 64 total) (if s.onHeap then s.heapCapacity else 0))) sound
    fun small full => Holding.grow_ends_of_move sound small full (le_grownCapacity ..)
      (by rw [heldWords_eq sound.storage]; rfl) (grow_ends sound full _)

theorem ofInline_same (sound : Sound s) (small : s.len ≤ inlineBits) :
    (ControlBlock.ofInline s.words s.len).Inline ∧
      (SmallBuffer.mk (ControlBlock.ofInline s.words s.len)).span.toList = s.span.toList := by
  obtain ⟨inline, len, bit⟩ := ControlBlock.ofInline_inline small (words_spare sound)
  let s' : SmallBuffer := ⟨ControlBlock.ofInline s.words s.len⟩
  have lengths : s'.span.len = s.span.len := by
    rw [span_len, inline_len (s := s') inline, len, span_len]
  refine ⟨inline, (form sound).toList_eq lengths fun k below => ?_⟩
  rw [span_len] at below
  rw [inline_span (s := s') inline]
  exact bit k (Nat.lt_of_lt_of_le below small)

theorem shrinkToFit_ends (sound : h.Sound policy refusals others) :
    shrinkToFit.Ends h (fun _ h' => h'.Sound policy refusals others ∧ h'.list = h.list)
      fun _ _ => False := by
  refine .get_bind (Holding.shrink_ends sound (fun small => ?_) fun need positive _ room =>
    moveToHeap_ends sound positive room)
  obtain ⟨inline, list⟩ := ofInline_same sound.storage small
  exact Holding.settle_ends sound (.inl inline)
    (inline_block (s := ⟨ControlBlock.ofInline h.storage.words h.storage.len⟩) inline) list
    fun rest p => release_ends h.storage

theorem heap_of_capacity (sound : Sound s) (moved : s.capacity = capacity * 64) :
    ∃ address, Heap s address capacity s.len := by
  rcases sound with inline | ⟨address, capacity', bits, heap⟩
  · rw [inline_capacity inline, inlineBits] at moved
    omega
  · rw [heap.capacity_eq] at moved
    obtain rfl : capacity' = capacity := by omega
    rw [heap.len]
    exact ⟨address, heap⟩

theorem filled_heap {out : SmallBuffer} {old held : Nat} (heapOut : Heap out address capacity 0)
    (heap : Heap s old held bits) (room : wordsFor 64 s.len ≤ capacity) :
    Heap ⟨{ out.control with
      second := s.control.second
      block := out.control.block.overwriteAt out.dataAddress s.words }⟩ address capacity bits ∧
    (SmallBuffer.mk { out.control with
      second := s.control.second
      block := out.control.block.overwriteAt out.dataAddress s.words }).span.toList =
        s.span.toList := by
  have sound : Sound s := .inr ⟨_, _, _, heap⟩
  have spare := words_spare sound
  have count := words_size sound
  rw [heap.len] at room count spare
  obtain ⟨keeps, bit, before⟩ :
      Block.Keeps ⟨out.control.block.address, overwrite out.control.block.words 1 s.words⟩ 1
        capacity bits ∧ _ ∧ _ :=
    Block.Keeps.of_overwrite heapOut.keeps.size
      (fun k below => heapOut.keeps.spare k (Nat.zero_le k) below) (wordsFor_le_iff.mp room) count spare
  let s' : SmallBuffer := ⟨{ out.control with
    second := s.control.second
    block := out.control.block.overwriteAt out.dataAddress s.words }⟩
  have words : s'.control.block.words = overwrite out.control.block.words 1 s.words := by
    show overwrite _ (out.control.block.indexOf out.dataAddress) _ = _
    rw [heapOut.index]
  have heap' : Heap s' address capacity bits := by
    refine ⟨heapOut.first, heap.second, heapOut.granted, ?_, ?_, heapOut.nonempty, heapOut.reach,
      heap.small⟩
    · rw [words]
      exact (before 0 Nat.one_pos).trans heapOut.header
    · exact ⟨by rw [words]; exact keeps.size, keeps.room, by rw [words]; exact keeps.spare⟩
  have span : s'.span = ⟨overwrite out.control.block.words 1 s.words, 1 * 64, bits⟩ := by
    rw [heap'.span_eq, words]
  refine ⟨heap', (form sound).toList_eq ?_ fun k below => ?_⟩
  · exact (congrArg Span.len span).trans (congrArg Span.len heap.span_eq).symm
  · rw [span_len, heap.len] at below
    have inUse : k < capacity * 64 := Nat.lt_of_lt_of_le below keeps.room
    exact (congrArg (Span.bit · k) span).trans (bit k inUse)

theorem build_empty_ends {blocks : List Grant} {p : Provider}
    (books : Books policy refusals blocks p) (nonempty : 0 < capacity) :
    (Holding.build empty (moveToHeap capacity)).Ends p
      (fun out p' => ∃ address, Heap out address capacity 0 ∧
        Books policy refusals ((block out).toList ++ blocks) p')
      (Declined policy refusals blocks (Storage.Admitted SmallBuffer policy)) := by
  have unowned : StorageSpec.block empty = none := inline_block ControlBlock.empty_inline
  have start : Holding.Sound policy refusals blocks ⟨empty, p⟩ :=
    ⟨.inl ControlBlock.empty_inline, by rw [unowned]; exact books⟩
  have emptyLen : empty.len = 0 := by decide
  refine (Holding.build_ends_of_move unowned (moveToHeap_ends start nonempty
    (Nat.le_trans (Nat.le_of_eq emptyLen) (Nat.zero_le _)))).imp ?_ fun _ _ => id
  rintro out p' ⟨sound, list, room, books'⟩
  obtain ⟨address, heap⟩ := heap_of_capacity sound room
  have clear : out.len = 0 := by
    rw [← span_len]
    exact (Span.len_congr list).trans ((span_len empty).trans emptyLen)
  rw [clear] at heap
  exact ⟨address, heap, books'⟩

theorem duplicate_ends {blocks : List Grant} {p : Provider} (sound : Sound s)
    (books : Books policy refusals blocks p) :
    (duplicate s).Ends p
      (fun s' p' => Sound s' ∧ (Container.span s').toList = (Container.span s).toList ∧
        Books policy refusals ((block s').toList ++ blocks) p')
      (Declined policy refusals blocks (Storage.Admitted SmallBuffer policy)) := by
  rw [duplicate]
  by_cases mode : s.onHeap = true
  · rw [if_pos mode]
    obtain ⟨old, held, bits, heap⟩ : ∃ old held bits, Heap s old held bits := by
      rcases sound with inline | heap
      · exact absurd mode (inline_mode inline)
      · exact heap
    have positive : 0 < max (wordsFor 64 s.len) minBlockWords :=
      Nat.lt_of_lt_of_le (by decide) (Nat.le_max_right ..)
    refine (build_empty_ends books positive).bind ?_
    rintro out p' ⟨address, heapOut, books'⟩
    obtain ⟨filled, list⟩ := filled_heap heapOut heap (Nat.le_max_left ..)
    rw [heapOut.block_eq, ← filled.block_eq] at books'
    exact ⟨.inr ⟨_, _, _, filled⟩, list, books'⟩
  · rw [if_neg mode]
    rcases sound with inline | ⟨address, capacity, bits, heap⟩
    · have inline' : (⟨{ s.control with block := Block.none }⟩ : SmallBuffer).control.Inline :=
        ⟨inline.room, inline.spare⟩
      refine ⟨.inl inline', ?_, by rw [inline_block inline']; exact books⟩
      show (span _).toList = s.span.toList
      rw [inline_span inline', inline_span inline]
      rfl
    · exact absurd heap.onHeap mode

end

instance : LawfulStorage SmallBuffer 64 where
  maxBits_lt := (by decide : maxBits < maxSize)
  len_span := span_len
  room sound := (form sound).room
  len_le_capacity := len_le_capacity
  len_le_maxBits := len_le_maxBits
  spare {s} sound k past below := (form sound).spare k (by rw [span_len]; exact past) below
  onHeap {s} _ := by
    show s.onHeap = (block s).isSome
    rw [block]
    cases s.onHeap <;> rfl
  block_words {s grant} sound owned := by
    change block s = some grant at owned
    show grant.words = s.capacity / 64 + 1
    rcases sound with inline | ⟨address, capacity, bits, heap⟩
    · rw [inline_block inline] at owned
      cases owned
    · rw [heap.block_eq] at owned
      cases owned
      rw [heap.capacity_eq, Nat.mul_div_cancel _ (by decide)]
  words_size := words_size
  words_bit {s} sound k := by
    have bit := (form sound).words_bit k
    rwa [span_len] at bit
  putWords := putWords_rewritten
  setLen := setLen_relengthened
  empty_sound := .inl ControlBlock.empty_inline
  empty_len := by decide
  empty_block := inline_block (s := empty) ControlBlock.empty_inline
  reserve_ends := reserve_ends
  reserve_inside {_ total} small room := Holding.reserve_inside
    (fun s => moveToHeap
      (grownCapacity (wordsFor 64 total) (if s.onHeap then s.heapCapacity else 0))) small room
  shrinkToFit_ends := shrinkToFit_ends
  duplicate_ends := duplicate_ends
  release_ends _ books := release_ends _ books

end PackedBits.SmallBuffer
