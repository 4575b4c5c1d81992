import PackedBits.Storage.ControlBlock

/-! The small-buffer storage. On the heap the first control word is the address of the data and the
second the length under the heap flag; the capacity stands in a header word right before the
data, so a block is one word larger than what it holds. -/
namespace PackedBits

structure SmallBuffer where
  control : ControlBlock
deriving DecidableEq, Repr

namespace SmallBuffer

def maxBits : Nat := 1 <<< 62 - 1

def headerBytes : Nat := 8

def empty : SmallBuffer := ⟨ControlBlock.empty⟩

def onHeap (s : SmallBuffer) : Bool := s.control.onHeap

def dataAddress (s : SmallBuffer) : Nat := s.control.first.toNat

def headerAddress (s : SmallBuffer) : Nat := s.dataAddress - headerBytes

def heapCapacity (s : SmallBuffer) : Nat := (s.control.block.wordAt s.headerAddress).toNat

def len (s : SmallBuffer) : Nat :=
  if s.onHeap then (s.control.second &&& ~~~ControlBlock.heapFlag).toNat else s.control.inlineLen

def capacity (s : SmallBuffer) : Nat := if s.onHeap then s.heapCapacity * 64 else inlineBits

def words (s : SmallBuffer) : Array (BitVec 64) :=
  let count := wordsFor 64 s.len
  if s.onHeap then s.control.heapWords s.dataAddress count
  else s.control.inlineWords.extract 0 count

def setLen (bits : Nat) (s : SmallBuffer) : SmallBuffer :=
  if s.onHeap then
    ⟨{ s.control with second := BitVec.ofNat 64 bits ||| ControlBlock.heapFlag }⟩
  else ⟨s.control.setInlineLen bits⟩

def span (s : SmallBuffer) : Span 64 :=
  if s.onHeap then s.control.heapSpan s.dataAddress s.len else s.control.inlineSpan

def putWords (s : SmallBuffer) (words : Array (BitVec 64)) : SmallBuffer :=
  if s.onHeap then ⟨{ s.control with block := { s.control.block with words := words } }⟩
  else ⟨s.control.putInline words⟩

def ofBlock (address capacity bits : Nat) (words : Array (BitVec 64)) : SmallBuffer where
  control :=
    { first := BitVec.ofNat 64 (address + headerBytes)
      second := BitVec.ofNat 64 bits ||| ControlBlock.heapFlag
      block := ⟨address, overwrite (overwrite (Array.replicate (capacity + 1) 0#64) 0
        #[BitVec.ofNat 64 capacity]) 1 words⟩ }

/-- Gives the block back, with the size its header tells. -/
def release (s : SmallBuffer) : Attempt Provider Unit := do
  if s.onHeap then Provider.release s.headerAddress (s.heapCapacity + 1)

def moveToHeap (capacity : Nat) : Attempt (Holding SmallBuffer) Unit := do
  let address ← Holding.onProvider (Provider.allocate 64 (capacity + 1))
  let old := (← get).storage
  Holding.modifyStorage fun s => ofBlock address capacity s.len s.words
  Holding.onProvider old.release

def moveInline : Attempt (Holding SmallBuffer) Unit := do
  let old := (← get).storage
  Holding.modifyStorage fun s => ⟨ControlBlock.ofInline s.words s.len⟩
  Holding.onProvider old.release

def reserve (bits : Nat) : Attempt (Holding SmallBuffer) Unit := do
  checkBits bits maxBits
  let s := (← get).storage
  if s.capacity < bits then
    moveToHeap (grownCapacity (wordsFor 64 bits) (if s.onHeap then s.heapCapacity else 0))

def shrinkToFit : Attempt (Holding SmallBuffer) Unit := do
  let s := (← get).storage
  if s.onHeap then
    if s.len ≤ inlineBits then moveInline
    else
      let need := wordsFor 64 s.len
      if need < s.heapCapacity then Attempt.unlessRefused (moveToHeap need)

def duplicate (s : SmallBuffer) : Attempt Provider SmallBuffer := do
  if s.onHeap then
    let out ← Holding.build empty (moveToHeap (max (wordsFor 64 s.len) minBlockWords))
    return ⟨{ out.control with
      second := s.control.second
      block := out.control.block.overwriteAt out.dataAddress s.words }⟩
  else return ⟨{ s.control with block := Block.none }⟩

instance : Storage SmallBuffer 64 where
  span := span
  putWords := putWords
  maxBits := maxBits
  empty := empty
  len := len
  capacity := capacity
  onHeap := onHeap
  reserve := reserve
  setLen := setLen
  shrinkToFit := shrinkToFit
  words := words
  duplicate := duplicate
  release := release

end SmallBuffer

end PackedBits
