import PackedBits.Range.Scan
import PackedBits.Range.Reverse

/-! Stepping a run of bits through its arrangements in lexicographic order, the first bit most
significant. A run inside one word is read as a number with its first bit on top and stepped by
arithmetic; a longer run exchanges its pivot with the last unlike bit, both found by walking down
from the end, and reverses what follows. Stepping backward exchanges the roles of the two values.
Past the end of the order the run wraps around and the answer is false. -/
namespace PackedBits

def lowestWithWeight (w ones : Nat) : BitVec w := maskTo w ones

/-- The next number above `v` of the same weight that fits in `n` bits: the lowest block of set
bits gives up its top bit to the position above it, and the others return to the bottom. -/
def nextSameWeight {w : Nat} (v : BitVec w) (n : Nat) : Option (BitVec w) :=
  let ones := countOnes v
  if ones = 0 ∨ v = lowestWithWeight w ones <<< (n - ones) then none
  else
    let filled := v ||| (v - 1#w)
    let carried := filled + 1#w
    let low := (shiftRight? ((~~~filled &&& carried) - 1#w) (trailingZeros v + 1)).getD 0#w
    some (carried ||| low)

variable {μ : Type} {w : Nat} [Memory μ w]

/-- Steps `n` bits inside one word; `backward` steps their complement forward. -/
@[specialize] def arrangeWord (m : μ) (p : Cursor w) (n : Nat) (backward : Bool) :
    Option (μ × Bool) := do
  let flipped := splat w backward &&& maskTo w n
  let v := reverseLow (← readBits m p n) n ^^^ flipped
  let next := nextSameWeight v n
  let arranged := next.getD (lowestWithWeight w (countOnes v)) ^^^ flipped
  let m ← writeBits m p n (reverseLow arranged n)
  return (m, next.isSome)

/-- Walks down from the pair of places `i` and `i + 1`, the upper one, to the last pair whose lower
bit is `small` and whose upper one is not, and yields the lower place, or none at the start. -/
@[specialize] def findPivot (m : μ) (p : Cursor w) (small : Bool) : Nat → Option (Option Nat)
  | 0 => some none
  | i + 1 => do
    if (← readBit m (p + i)) = small then
      if (← readBit m (p + (i + 1))) = small then findPivot m p small i else return some i
    else findPivot m p small i

/-- Walks down from a place past the bits that are `small`. Below the run there is no place to go
to. -/
@[specialize] def skipSmall (m : μ) (p : Cursor w) (small : Bool) : Nat → Option Nat
  | 0 => do if (← readBit m p) = small then none else return 0
  | j + 1 => do
    if (← readBit m (p + (j + 1))) = small then skipSmall m p small j else return j + 1

/-- Steps a run of any length, bit by bit. Going forward the pivot is the last clear bit that a set
bit follows, going backward the last set bit that a clear bit follows. -/
@[specialize] def arrangeRun (m : μ) (p : Cursor w) (n : Nat) (backward : Bool) :
    Option (μ × Bool) := do
  match ← findPivot m p backward (n - 1) with
  | none => return (← reverse m p n, false)
  | some pivot =>
    let last ← skipSmall m p backward (n - 1)
    let m ← writeBit m (p + pivot) (!backward)
    let m ← writeBit m (p + last) backward
    return (← reverse m (p + (pivot + 1)) (n - (pivot + 1)), true)

@[specialize] def arrange (m : μ) (p : Cursor w) (n : Nat) (backward : Bool) : Option (μ × Bool) :=
  if n < 2 then some (m, false)
  else if p.bit + n ≤ w then arrangeWord m p n backward
  else arrangeRun m p n backward

@[specialize] def nextPermutation (m : μ) (p : Cursor w) (n : Nat) : Option (μ × Bool) :=
  arrange m p n false

@[specialize] def prevPermutation (m : μ) (p : Cursor w) (n : Nat) : Option (μ × Bool) :=
  arrange m p n true

end PackedBits
