import PackedBits.Range.Move

/-! Rotating a run of bits in place. While both sides are long, the shorter one is exchanged with
an equally long part of the longer one, which settles it; once the shorter side fits in a few
words it is parked outside, the longer side is moved over, and the parked bits are put back. -/
namespace PackedBits

/-- A memory beside a few words to park bits in. The parking words are buffer 0, and the buffers of
the memory count from 1. -/
structure Parking (μ : Type) (w : Nat) where
  memory : μ
  parked : Array (BitVec w)

def parkedWords : Nat := 4

section
variable {μ : Type} {w : Nat} [Memory μ w]

namespace Parking

def load : Parking μ w → Address → Option (BitVec w)
  | ⟨_, parked⟩, ⟨0, word⟩ => if 0 ≤ word then parked[word.toNat]? else none
  | ⟨memory, _⟩, ⟨buffer + 1, word⟩ => Memory.load memory ⟨buffer, word⟩

def store : Parking μ w → Address → BitVec w → Option (Parking μ w)
  | ⟨memory, parked⟩, ⟨0, place⟩, word =>
    if 0 ≤ place ∧ place.toNat < parked.size then
      some ⟨memory, parked.setIfInBounds place.toNat word⟩
    else none
  | ⟨memory, parked⟩, ⟨buffer + 1, place⟩, word => do
    return ⟨← Memory.store memory ⟨buffer, place⟩ word, parked⟩

instance : Memory (Parking μ w) w := ⟨load, store⟩

end Parking

def Cursor.besideParked (p : Cursor w) : Cursor w := { p with buffer := p.buffer + 1 }

def Cursor.parkedFirst (p : Cursor w) : Cursor w := ⟨0, 0, 0, p.width_pos⟩

/-- Rotates `left + right` bits at `p`, the shorter side going through parked words. -/
@[specialize] def rotateParked (m : μ) (p : Cursor w) (left right : Nat) : Option μ := do
  let aside := p.parkedFirst
  let first := p.besideParked
  let middle := first + left
  let m : Parking μ w := ⟨m, Array.replicate parkedWords 0#w⟩
  if left ≤ right then
    let (m, _) ← copy m first left aside
    let (m, _) ← copy m middle right first
    let (m, _) ← copy m aside left (first + right)
    return m.memory
  else
    let (m, _) ← copy m middle right aside
    let (m, _) ← copyBackward m first left (middle + right)
    let (m, _) ← copy m aside right first
    return m.memory

/-- Rotates by block exchanges until one side can be parked. Each exchange settles as many bits as
the shorter side has. -/
@[specialize] def rotateBlocks (m : μ) (p : Cursor w) (left right : Nat) : Option μ :=
  if left = 0 ∨ right = 0 then some m
  else if min left right ≤ parkedWords * w then rotateParked m p left right
  else if left ≤ right then do
    let (m, _) ← swapRanges m p left (p + left)
    rotateBlocks m (p + left) left (right - left)
  else do
    let (m, _) ← swapRanges m p right (p + left)
    rotateBlocks m (p + right) (left - right) right
termination_by left + right

@[specialize] def rotate (m : μ) (p : Cursor w) (middle n : Nat) : Option (μ × Cursor w) := do
  let m ← rotateBlocks m p middle (n - middle)
  return (m, p + (n - middle))

end

end PackedBits
