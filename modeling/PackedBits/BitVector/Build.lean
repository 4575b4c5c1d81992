import PackedBits.BitVector.Edit

/-! Making vectors: empty ones, ones of a given length or from given words, parts of others and
copies. A vector that cannot be finished gives its block back. -/
namespace PackedBits.BitVector
variable {S : Type} {w : Nat} [HasBits w] [Storage S w]

/-- Works on a vector its owner has given up; when that fails its block goes back. -/
def onOwned (storage : S) (attempt : Attempt (Holding S) Unit) : Attempt Provider S :=
  fun provider =>
    match attempt ⟨storage, provider⟩ with
    | .ok _ holding => .ok holding.storage holding.provider
    | .error failure holding =>
        match Storage.release holding.storage holding.provider with
        | .ok _ provider => .error failure provider
        | .error failure provider => .error failure provider

def build (attempt : Attempt (Holding S) Unit) : Attempt Provider S := onOwned Storage.empty attempt

def withCapacity (bits : Nat) : Attempt Provider S := build (reserve bits)

def tryWithLen (bits : Nat) (value : Bool) : Attempt Provider S := build (tryResize bits value)

def withLen (bits : Nat) (value : Bool) : Attempt Provider S := (tryWithLen bits value).orPanic

def ofWords (words : Array (BitVec w)) (bits : Nat) : Attempt Provider S := do
  let available := min (words.size * w) maxSize
  if available < bits then Attempt.fail (.lengthMismatch bits available)
  else build do
    tryResize bits false
    inPlace (Span.writeBeside ⟨words, 0, bits⟩ fun m p q =>
      (copy m q bits p).map fun (m, _) => (m, ()))

/-- A vector of listed bits, of which so many are announced. -/
def ofBits (announced : Nat) (bits : List Bool) : Attempt Provider S :=
  build (extend announced bits)

def slice (s : Span w) (bounds : Bounds) : Attempt Provider S := do
  let extent ← Attempt.ask fun _ => bounds.resolve s.len
  build do
    resize extent.size false
    inPlace (Span.writeBeside s fun m p q =>
      (copy m (q + extent.start) extent.size p).map fun (m, _) => (m, ()))

def splitOff (position : Nat) : Attempt (Holding S) S := do
  let s := span (← get)
  let tail ← Holding.onProvider (slice s (Bounds.startingAt position))
  truncate position
  return tail

def tryClone (storage : S) : Attempt Provider S := Storage.duplicate storage

def clone (storage : S) : Attempt Provider S := (tryClone storage).orPanic

end PackedBits.BitVector
