import PackedBits.BitRef
import PackedBits.Span.Query
import PackedBits.Range.Fill
import PackedBits.Range.Move
import PackedBits.Range.Reverse
import PackedBits.Range.Rotate
import PackedBits.Range.Arrange

/-! Changes of a span in place. None changes the length, and every argument is tested before the
first word is written. -/
namespace PackedBits.Span
variable {w : Nat} [HasBits w]

def change (action : Buffers w → Option (Buffers w)) : Attempt (Span w) Unit :=
  write fun m => (action m).map (·, ())

def bitRef (s : Span w) (index : Nat) : Query (BitRef w) := do
  s.checkIndex index
  return (s.first + index).ref

def useRef {α : Type} (action : Buffers w → Option (α × Buffers w)) : Attempt (Span w) α :=
  write fun m => (action m).map fun (value, m) => (m, value)

def set (index : Nat) (value : Bool) : Attempt (Span w) Unit := do
  Attempt.ask (·.checkIndex index)
  let p := (← get).first
  change fun m => writeBit m (p + index) value

def reset (index : Nat) : Attempt (Span w) Unit := set index false

def flip (index : Nat) : Attempt (Span w) Unit := do
  let r ← Attempt.ask (·.bitRef index)
  change r.flip

def replace (index : Nat) (value : Bool) : Attempt (Span w) Bool := do
  let r ← Attempt.ask (·.bitRef index)
  useRef (r.replace value)

def swap (a b : Nat) : Attempt (Span w) Unit := do
  let r ← Attempt.ask (·.bitRef a)
  let s ← Attempt.ask (·.bitRef b)
  change (r.swap s)

def fillRange (bounds : Bounds) (value : Bool) : Attempt (Span w) Unit := do
  let s ← get
  let extent ← Attempt.ask fun _ => bounds.resolve s.len
  change fun m => fill m (s.first + extent.start) extent.size value

def flipRange (bounds : Bounds) : Attempt (Span w) Unit := do
  let s ← get
  let extent ← Attempt.ask fun _ => bounds.resolve s.len
  change fun m => PackedBits.flip m (s.first + extent.start) extent.size

def setAll : Attempt (Span w) Unit := fillRange Bounds.all true

def resetAll : Attempt (Span w) Unit := fillRange Bounds.all false

def flipAll : Attempt (Span w) Unit := flipRange Bounds.all

/-- Combines the span with the bits of another, as far as both reach, and returns how far. -/
def combine (other : Span w) (op : BitOp) : Attempt (Span w) Nat := do
  let common := min (← get).len other.len
  writeBeside other fun m p q => (transform m op p common q p).map fun (m, _) => (m, common)

def andWith (other : Span w) : Attempt (Span w) Unit := do
  let common ← combine other .and
  fillRange (Bounds.startingAt common) false

def orWith (other : Span w) : Attempt (Span w) Unit := discard (combine other .or)

def xorWith (other : Span w) : Attempt (Span w) Unit := discard (combine other .xor)

def andNotWith (other : Span w) : Attempt (Span w) Unit := discard (combine other .andNot)

def shiftLeft (n : Nat) : Attempt (Span w) Unit := do
  let s ← get
  if s.len ≤ n then resetAll
  else change fun m => do
    let (m, _) ← copyBackward m s.first (s.len - n) s.stop
    fill m s.first n false

def shiftRight (n : Nat) : Attempt (Span w) Unit := do
  let s ← get
  if s.len ≤ n then resetAll
  else change fun m => do
    let (m, _) ← copy m (s.first + n) (s.len - n) s.first
    fill m (s.stop - n) n false

def reverse : Attempt (Span w) Unit := do
  let s ← get
  change fun m => PackedBits.reverse m s.first s.len

/-- Brings bit `middle` to the front, and returns where the first bit went. -/
def rotate (middle : Nat) : Attempt (Span w) Nat := do
  let s ← get
  if s.len < middle then Attempt.panic (.rotationPoint middle s.len)
  else write fun m => do
    let (m, p) ← PackedBits.rotate m s.first middle s.len
    return (m, (p - s.first).toNat)

def rotateLeft (n : Nat) : Attempt (Span w) Unit := do
  let len := (← get).len
  if len = 0 then return ()
  else discard (rotate (n % len))

def rotateRight (n : Nat) : Attempt (Span w) Unit := do
  let len := (← get).len
  if len = 0 then return ()
  else discard (rotate (len - n % len))

def nextPermutation : Attempt (Span w) Bool := do
  let s ← get
  write fun m => PackedBits.nextPermutation m s.first s.len

def prevPermutation : Attempt (Span w) Bool := do
  let s ← get
  write fun m => PackedBits.prevPermutation m s.first s.len

def copyWithin (bounds : Bounds) (target : Nat) : Attempt (Span w) Unit := do
  let s ← get
  let extent ← Attempt.ask fun _ => bounds.resolve s.len
  if s.len - extent.size < target then Attempt.panic (.destination target s.len)
  else change fun m => do
    if target ≤ extent.start then
      return (← copy m (s.first + extent.start) extent.size (s.first + target)).1
    else
      return (← copyBackward m (s.first + extent.start) extent.size
        (s.first + target + extent.size)).1

/-- One pass over the set bits of a span of `len` bits from `start` on, clearing those that `keep`
turns down. -/
def retainFrom {τ : Type} (keep : Nat → τ → Bool × τ) (len start : Nat) (state : τ) :
    Attempt (Span w) τ := do
  if start < len then
    let s ← get
    let found ← Attempt.ask fun s => s.read fun m => find m (s.first + start) (len - start) true
    if found = len - start then return state
    else
      let (kept, state) := keep (start + found) state
      unless kept do
        change fun m => writeBit m (s.first + (start + found)) false
      retainFrom keep len (start + found + 1) state
  else return state
termination_by len - start

/-- Clears every set bit whose position `keep` turns down, asking in ascending order. The predicate
may carry a state, which is returned. -/
def retain {τ : Type} (keep : Nat → τ → Bool × τ) (state : τ) : Attempt (Span w) τ := do
  retainFrom keep (← get).len 0 state

def swapBits : Attempt (Span w × Span w) Unit := do
  let (s, other) ← get
  if s.len = other.len then
    writeBoth fun m p q => (swapRanges m p s.len q).map fun (m, _) => (m, ())
  else Attempt.panic (.unequalLengths s.len other.len)

end PackedBits.Span
