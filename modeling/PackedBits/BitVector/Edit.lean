import PackedBits.Storage.Basic

/-! Growable bit vectors: growing, shrinking, inserting and erasing on any storage. An operation
that may be refused tests its position first, then the size it asks for, and writes its first bit
only when the room is there. Each has a form that panics where it would be refused. -/
namespace PackedBits.BitVector
variable {S : Type} {w : Nat} [HasBits w] [Storage S w]

def span (holding : Holding S) : Span w := Container.span holding.storage

def len (holding : Holding S) : Nat := Storage.len holding.storage

def grownLen {σ : Type} (length n max : Nat) : Attempt σ Nat :=
  if length + n ≤ maxSize then return length + n
  else Attempt.fail (.capacityExceeded maxSize max)

def tryReserve (additional : Nat) : Attempt (Holding S) Unit := do
  let total ← grownLen (len (← get)) additional (Storage.maxBits S)
  Storage.reserve total

def reserve (additional : Nat) : Attempt (Holding S) Unit := (tryReserve additional).orPanic

def tryResize (bits : Nat) (value : Bool) : Attempt (Holding S) Unit := Storage.resize bits value

def resize (bits : Nat) (value : Bool) : Attempt (Holding S) Unit := (tryResize bits value).orPanic

def truncate (bits : Nat) : Attempt (Holding S) Unit := do
  let length := len (← get)
  if bits < length then
    Storage.fillBuffer bits length false
    Holding.modifyStorage (Storage.setLen bits)

def clear : Attempt (Holding S) Unit := Storage.clear

def shrinkToFit : Attempt (Holding S) Unit := Storage.shrinkToFit

def tryPush (value : Bool) : Attempt (Holding S) Unit := do
  Storage.resize (len (← get) + 1) value

def push (value : Bool) : Attempt (Holding S) Unit := (tryPush value).orPanic

def pop : Attempt (Holding S) (Option Bool) := do
  let length := len (← get)
  if length = 0 then return none
  else
    let value ← Attempt.ask fun holding => (span holding).bitAt (length - 1)
    truncate (length - 1)
    return some value

def tryInsertMany (index n : Nat) (value : Bool) : Attempt (Holding S) Unit := do
  let length := len (← get)
  if length < index then Attempt.fail (.outOfRange index length)
  else
    let total ← grownLen length n (Storage.maxBits S)
    Storage.resize total false
    inPlace do
      let s ← get
      Span.change fun m => do
        let (m, _) ← copyBackward m (s.first + index) (length - index) (s.first + total)
        fill m (s.first + index) n value

def insertMany (index n : Nat) (value : Bool) : Attempt (Holding S) Unit :=
  (tryInsertMany index n value).orPanic

def tryInsert (index : Nat) (value : Bool) : Attempt (Holding S) Unit := tryInsertMany index 1 value

def insert (index : Nat) (value : Bool) : Attempt (Holding S) Unit := (tryInsert index value).orPanic

def eraseRange (bounds : Bounds) : Attempt (Holding S) Unit := do
  let length := len (← get)
  let extent ← Attempt.ask fun _ => bounds.check length
  unless extent.size = 0 do
    inPlace do
      let s ← get
      Span.change fun m => do
        return (← copy m (s.first + extent.stop) (length - extent.stop) (s.first + extent.start)).1
    truncate (length - extent.size)

def erase (index : Nat) : Attempt (Holding S) Bool := do
  let length := len (← get)
  if index < length then
    let value ← Attempt.ask fun holding => (span holding).bitAt index
    eraseRange (Bounds.single index)
    return value
  else Attempt.fail (.outOfRange index length)

def tryExtendFrom (other : Span w) : Attempt (Holding S) Unit := do
  let length := len (← get)
  let total ← grownLen length other.len (Storage.maxBits S)
  Storage.resize total false
  inPlace (Span.writeBeside other fun m p q =>
    (copy m q other.len (p + length)).map fun (m, _) => (m, ()))

def extendFrom (other : Span w) : Attempt (Holding S) Unit := (tryExtendFrom other).orPanic

/-- Appends bits one by one, after making room for as many as are announced. -/
def extend (announced : Nat) (bits : List Bool) : Attempt (Holding S) Unit := do
  reserve announced
  bits.forM push

end PackedBits.BitVector
