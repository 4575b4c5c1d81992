import PackedBits.Span.Update
import PackedBits.Provider

/-! Storages. A storage keeps the words of a growable vector and draws blocks from a provider. The
bits of its buffer from the length up to the capacity are clear at all times, so growing by clear
bits writes nothing and shrinking clears what it drops. -/
namespace PackedBits

structure Holding (S : Type) where
  storage : S
  provider : Provider

class Storage (S : Type) (w : outParam Nat) extends Container S w where
  /-- The greatest length. -/
  maxBits : Nat
  empty : S
  len : S → Nat
  /-- The number of bits the storage holds without another block. -/
  capacity : S → Nat
  onHeap : S → Bool
  /-- Makes room for a total of `bits` bits. -/
  reserve (bits : Nat) : Attempt (Holding S) Unit
  /-- Changes the length alone, within the capacity. -/
  setLen (bits : Nat) (storage : S) : S
  /-- Gives back what the length does not need; a refusal leaves everything as it is. -/
  shrinkToFit : Attempt (Holding S) Unit
  /-- The words in use. -/
  words : S → Array (BitVec w)
  duplicate (storage : S) : Attempt Provider S
  release (storage : S) : Attempt Provider Unit

def minBlockWords : Nat := 4

/-- The size of the next block: what is needed, at least twice the current one. -/
def grownCapacity (needed current : Nat) : Nat :=
  max (max needed (min (2 * current) maxSize)) minBlockWords

def overwrite {w : Nat} (block : Array (BitVec w)) (index : Nat) (words : Array (BitVec w)) :
    Array (BitVec w) :=
  (List.range words.size).foldl
    (fun block i => block.setIfInBounds (index + i) (words.getD i 0#w)) block

def freshBlock {w : Nat} (capacity : Nat) (words : Array (BitVec w)) : Array (BitVec w) :=
  overwrite (Array.replicate capacity 0#w) 0 words

def checkBits {σ : Type} (bits max : Nat) : Attempt σ Unit :=
  if max < bits then Attempt.fail (.capacityExceeded bits max) else return ()

namespace Holding
variable {S α : Type} {w : Nat}

def onProvider (attempt : Attempt Provider α) : Attempt (Holding S) α :=
  attempt.within provider fun holding provider => { holding with provider := provider }

def modifyStorage (change : S → S) : Attempt (Holding S) Unit :=
  modify fun holding => { holding with storage := change holding.storage }

def build (storage : S) (attempt : Attempt (Holding S) Unit) : Attempt Provider S := fun provider =>
  match attempt ⟨storage, provider⟩ with
  | .ok _ holding => .ok holding.storage holding.provider
  | .error failure holding => .error failure holding.provider

instance [Container S w] : Container (Holding S) w where
  span holding := Container.span holding.storage
  putWords holding words := { holding with storage := Container.putWords holding.storage words }

end Holding

namespace Storage
variable {S : Type} {w : Nat} [HasBits w] [Storage S w]

def wordLen (storage : S) : Nat := wordsFor w (len storage)

def fillBuffer (start stop : Nat) (value : Bool) : Attempt (Holding S) Unit :=
  inPlace do
    let s ← get
    Span.change fun m => fill m (s.first + start) (stop - start) value

/-- Changes the length. New bits are written only if they are set, dropped ones are cleared. -/
def resize (bits : Nat) (value : Bool) : Attempt (Holding S) Unit := do
  let length := len (← get).storage
  if length < bits then
    reserve bits
    Holding.modifyStorage (setLen bits)
    if value then fillBuffer length bits true
  else if bits < length then
    fillBuffer bits length false
    Holding.modifyStorage (setLen bits)

def clear : Attempt (Holding S) Unit := do
  fillBuffer 0 (len (← get).storage) false
  Holding.modifyStorage (setLen 0)

end Storage

end PackedBits
