import PackedBits.Storage.ControlBlock

/-! The tagged storage. On the heap the first control word packs the capacity in words above a
29-bit length, and the second is the address under the heap flag. Only 48 bits of it are address,
so a block that is granted further up is given back and reported as a failed allocation. -/
namespace PackedBits

structure Tagged where
  control : ControlBlock
deriving DecidableEq, Repr

namespace Tagged

def lengthFieldBits : Nat := 29

def maxBits : Nat := 1 <<< lengthFieldBits - 1

def lengthFieldMask : BitVec 64 := BitVec.ofNat 64 maxBits

def capacityShift : Nat := 32

def addressMask : BitVec 64 := BitVec.ofNat 64 (1 <<< 48 - 1)

def empty : Tagged := ⟨ControlBlock.empty⟩

def onHeap (s : Tagged) : Bool := s.control.onHeap

def address (s : Tagged) : Nat := (s.control.second &&& addressMask).toNat

def heapCapacity (s : Tagged) : Nat := (s.control.first >>> capacityShift).toNat

def len (s : Tagged) : Nat :=
  if s.onHeap then (s.control.first &&& lengthFieldMask).toNat else s.control.inlineLen

def capacity (s : Tagged) : Nat := if s.onHeap then s.heapCapacity * 64 else inlineBits

def words (s : Tagged) : Array (BitVec 64) :=
  let count := wordsFor 64 s.len
  if s.onHeap then s.control.heapWords s.address count
  else s.control.inlineWords.extract 0 count

def setLen (bits : Nat) (s : Tagged) : Tagged :=
  if s.onHeap then
    ⟨{ s.control with
      first := (s.control.first &&& ~~~lengthFieldMask) ||| BitVec.ofNat 64 bits }⟩
  else ⟨s.control.setInlineLen bits⟩

def span (s : Tagged) : Span 64 :=
  if s.onHeap then s.control.heapSpan s.address s.len else s.control.inlineSpan

def putWords (s : Tagged) (words : Array (BitVec 64)) : Tagged :=
  if s.onHeap then ⟨{ s.control with block := { s.control.block with words := words } }⟩
  else ⟨s.control.putInline words⟩

def ofBlock (address capacity bits : Nat) (words : Array (BitVec 64)) : Tagged where
  control :=
    { first := (BitVec.ofNat 64 capacity <<< capacityShift) ||| BitVec.ofNat 64 bits
      second := BitVec.ofNat 64 address ||| ControlBlock.heapFlag
      block := ⟨address, freshBlock capacity words⟩ }

def release (s : Tagged) : Attempt Provider Unit := do
  if s.onHeap then Provider.release s.address s.heapCapacity

/-- Asks for a block whose address fits. -/
def allocate (words : Nat) : Attempt Provider Nat := do
  let address ← Provider.allocate 64 words
  if BitVec.ofNat 64 address &&& ~~~addressMask ≠ 0#64 then
    Provider.release address words
    Attempt.fail (.allocFailed words)
  else return address

def moveToHeap (capacity : Nat) : Attempt (Holding Tagged) Unit := do
  let address ← Holding.onProvider (allocate capacity)
  let old := (← get).storage
  Holding.modifyStorage fun s => ofBlock address capacity s.len s.words
  Holding.onProvider old.release

def moveInline : Attempt (Holding Tagged) Unit := do
  let old := (← get).storage
  Holding.modifyStorage fun s => ⟨ControlBlock.ofInline s.words s.len⟩
  Holding.onProvider old.release

/-- The capacity grows like that of other storages but never past the words that the greatest
length fills. -/
def reserve (bits : Nat) : Attempt (Holding Tagged) Unit := do
  checkBits bits maxBits
  let s := (← get).storage
  if s.capacity < bits then
    let grown := grownCapacity (wordsFor 64 bits) (if s.onHeap then s.heapCapacity else 0)
    moveToHeap (min grown (wordsFor 64 maxBits))

def shrinkToFit : Attempt (Holding Tagged) Unit := do
  let s := (← get).storage
  if s.onHeap then
    if s.len ≤ inlineBits then moveInline
    else
      let need := wordsFor 64 s.len
      if need < s.heapCapacity then Attempt.unlessRefused (moveToHeap need)

def duplicate (s : Tagged) : Attempt Provider Tagged := do
  if s.onHeap then
    let out ← Holding.build empty (moveToHeap (max (wordsFor 64 s.len) minBlockWords))
    let filled : Tagged :=
      ⟨{ out.control with block := out.control.block.overwriteAt out.address s.words }⟩
    return filled.setLen s.len
  else return ⟨{ s.control with block := Block.none }⟩

instance : Storage Tagged 64 where
  span := span
  putWords := putWords
  maxBits := maxBits
  empty := empty
  len := len
  capacity := capacity
  onHeap := onHeap
  reserve := reserve
  setLen := setLen
  shrinkToFit := shrinkToFit
  words := words
  duplicate := duplicate
  release := release

end Tagged

end PackedBits
