import PackedBits.Storage.Basic

/-! The plain storage: an address, a capacity in words and a length, with words of any width. It
owns no block until it has to hold a bit. -/
namespace PackedBits

structure Plain (w : Nat) where
  address : Nat
  capacity : Nat
  len : Nat
  words : Array (BitVec w)
deriving DecidableEq, Repr

namespace Plain
variable {w : Nat}

def empty : Plain w := ⟨0, 0, 0, #[]⟩

def liveWords (s : Plain w) : Array (BitVec w) := s.words.extract 0 (wordsFor w s.len)

/-- Moves the words in use to a block of `capacity` words and gives the old block back. -/
def move (capacity : Nat) : Attempt (Holding (Plain w)) Unit := do
  let address ← Holding.onProvider (Provider.allocate w capacity)
  let old := (← get).storage
  Holding.modifyStorage fun s =>
    { s with address := address, capacity := capacity, words := freshBlock capacity s.liveWords }
  if old.capacity ≠ 0 then
    Holding.onProvider (Provider.release old.address old.capacity)

def reserve (bits : Nat) : Attempt (Holding (Plain w)) Unit := do
  checkBits bits maxSigned
  let s := (← get).storage
  if s.capacity * w < bits then
    move (grownCapacity (wordsFor w bits) s.capacity)

def shrinkToFit : Attempt (Holding (Plain w)) Unit := do
  let s := (← get).storage
  let need := wordsFor w s.len
  if need = s.capacity then return ()
  else if need = 0 then
    Holding.onProvider (Provider.release s.address s.capacity)
    Holding.modifyStorage fun s => { s with address := 0, capacity := 0, words := #[] }
  else Attempt.unlessRefused (move need)

def duplicate (s : Plain w) : Attempt Provider (Plain w) := do
  let out ← Holding.build empty (reserve s.len)
  return { out with len := s.len, words := overwrite out.words 0 s.liveWords }

def release (s : Plain w) : Attempt Provider Unit := do
  if s.capacity ≠ 0 then Provider.release s.address s.capacity

instance : Storage (Plain w) w where
  span s := ⟨s.words, 0, s.len⟩
  putWords s words := { s with words := words }
  maxBits := maxSigned
  empty := empty
  len := len
  capacity s := s.capacity * w
  onHeap s := s.capacity != 0
  reserve := reserve
  setLen bits s := { s with len := bits }
  shrinkToFit := shrinkToFit
  words := liveWords
  duplicate := duplicate
  release := release

end Plain

end PackedBits
