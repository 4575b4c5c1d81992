import PackedBits.Storage.Basic

/-! Control blocks. Two storages keep all they know in two 64-bit control words. While the vector
is short its bits live in the control words themselves, all but the top byte, which counts them;
the top bit of that byte stays clear because the count does. Once it is set the vector is on the
heap and the words say where; what they say then is up to the storage. -/
namespace PackedBits

def inlineBits : Nat := 120

structure Block where
  address : Nat
  words : Array (BitVec 64)
deriving DecidableEq, Repr

def Block.none : Block := ⟨0, #[]⟩

def Block.indexOf (block : Block) (address : Nat) : Nat := (address - block.address) / 8

def Block.wordAt (block : Block) (address : Nat) : BitVec 64 :=
  block.words.getD (block.indexOf address) 0#64

def Block.overwriteAt (block : Block) (address : Nat) (words : Array (BitVec 64)) : Block :=
  { block with words := overwrite block.words (block.indexOf address) words }

structure ControlBlock where
  first : BitVec 64
  second : BitVec 64
  block : Block
deriving DecidableEq, Repr

namespace ControlBlock

def lengthShift : Nat := 56

def lengthMask : BitVec 64 := 0xFF#64 <<< lengthShift

def heapFlag : BitVec 64 := 1#64 <<< 63

def empty : ControlBlock := ⟨0#64, 0#64, Block.none⟩

def onHeap (c : ControlBlock) : Bool := c.second &&& heapFlag != 0#64

def inlineLen (c : ControlBlock) : Nat := (c.second >>> lengthShift).toNat

def inlineWords (c : ControlBlock) : Array (BitVec 64) := #[c.first, c.second &&& ~~~lengthMask]

def setInlineLen (c : ControlBlock) (bits : Nat) : ControlBlock :=
  { c with second := (c.second &&& ~~~lengthMask) ||| (BitVec.ofNat 64 bits <<< lengthShift) }

def ofInline (words : Array (BitVec 64)) (bits : Nat) : ControlBlock where
  first := words.getD 0 0#64
  second := words.getD 1 0#64 ||| (BitVec.ofNat 64 bits <<< lengthShift)
  block := Block.none

/-- The span of the inline bits; its second word is shared with the count. -/
def inlineSpan (c : ControlBlock) : Span 64 := ⟨#[c.first, c.second], 0, c.inlineLen⟩

def putInline (c : ControlBlock) (words : Array (BitVec 64)) : ControlBlock :=
  { c with first := words.getD 0 0#64, second := words.getD 1 0#64 }

def heapSpan (c : ControlBlock) (address bits : Nat) : Span 64 :=
  ⟨c.block.words, c.block.indexOf address * 64, bits⟩

def heapWords (c : ControlBlock) (address count : Nat) : Array (BitVec 64) :=
  let index := c.block.indexOf address
  c.block.words.extract index (index + count)

end ControlBlock

end PackedBits
