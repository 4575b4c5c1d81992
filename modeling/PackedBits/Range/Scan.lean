import PackedBits.Chunk

/-! Scanning a run of bits: the first and the last position that hold a value, and how many do.
Positions are counted from the start of the run, and the length of the run stands for "none". Going
up, the whole words of a run are taken in lanes as long as there are enough of them. -/
namespace PackedBits

def Cursor.head {w : Nat} (p : Cursor w) (n : Nat) : Nat :=
  if p.bit = 0 then 0 else (p.chunkFrom n 0).width

variable {μ : Type} {w : Nat} [Memory μ w]

@[specialize] def hits (m : μ) (p : Cursor w) (value : Bool) (chunk : Chunk) : Option (BitVec w) := do
  let word ← readBits m (p + chunk.offset) chunk.width
  return if value then word else word ^^^ maskTo w chunk.width

@[specialize] def firstHit (m : μ) (p : Cursor w) (value : Bool) (chunk : Chunk) :
    Option (Option Nat) := do
  let word ← hits m p value chunk
  return if word = 0#w then none else some (chunk.offset + trailingZeros word)

def lane : Nat := 4

@[specialize] def laneHit (m : μ) (p : Cursor w) (value : Bool) (offset : Nat) : Option Bool := do
  let marks ← p.sweepFrom (offset + lane * w) (fun marks chunk => do
    return marks ||| (← hits m p value chunk)) offset 0#w
  return marks != 0#w

/-- Passes the lanes without a hit, from one that begins at `offset` on. -/
@[specialize] def passLanes (m : μ) (p : Cursor w) (n : Nat) (value : Bool) (offset : Nat) :
    Option Nat :=
  have positive := Nat.mul_pos (show 0 < lane by decide) p.width_pos
  if offset + lane * w ≤ n then do
    if ← laneHit m p value offset then return offset
    else passLanes m p n value (offset + lane * w)
  else return offset
termination_by n - offset

@[specialize] def find (m : μ) (p : Cursor w) (n : Nat) (value : Bool) : Option Nat := do
  let head := p.head n
  match ← p.seekFrom head (firstHit m p value) 0 with
  | some found => return found
  | none =>
    let offset ← passLanes m p n value head
    return (← p.seekFrom n (firstHit m p value) offset).getD n

@[specialize] def findLast (m : μ) (p : Cursor w) (n : Nat) (value : Bool) : Option Nat := do
  let found ← p.seekBack n fun chunk => do
    let word ← hits m p value chunk
    return if word = 0#w then none else some (chunk.offset + (w - 1 - leadingZeros word))
  return found.getD n

@[specialize] def addOnes (m : μ) (p : Cursor w) (stop offset total : Nat) : Option Nat :=
  p.sweepFrom stop (fun total chunk => do
    return total + countOnes (← readBits m (p + chunk.offset) chunk.width)) offset total

/-- Adds the set bits of the lanes from `offset` on to a total, each lane as one sum, and tells where
they end. -/
@[specialize] def addLanes (m : μ) (p : Cursor w) (n offset total : Nat) : Option (Nat × Nat) :=
  have positive := Nat.mul_pos (show 0 < lane by decide) p.width_pos
  if offset + lane * w ≤ n then do
    let ones ← addOnes m p (offset + lane * w) offset 0
    addLanes m p n (offset + lane * w) (total + ones)
  else return (offset, total)
termination_by n - offset

/-- Counts the set bits up to the first word boundary, then in lanes of whole words, then word by
word in what is left. The clear ones are all the others. -/
@[specialize] def count (m : μ) (p : Cursor w) (n : Nat) (value : Bool) : Option Nat := do
  let head := p.head n
  let first ← addOnes m p head 0 0
  let (offset, total) ← addLanes m p n head first
  let ones ← addOnes m p n offset total
  return if value then ones else n - ones

end PackedBits
