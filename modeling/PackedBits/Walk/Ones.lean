import PackedBits.Span.Query
import PackedBits.Walk.Basic

/-! Walking over the positions of set bits from both ends. The number still to come is counted the
first time it is asked for and kept up from then on. -/
namespace PackedBits

/-- The set positions from `front` up to, not including, `back`; `left` is their number once it
has been counted. -/
structure OnesWalk (w : Nat) where
  source : Span w
  front : Nat
  back : Nat
  left : Option Nat

variable {w : Nat} [HasBits w]

def Span.ones (s : Span w) : OnesWalk w := ⟨s, 0, s.len, .none⟩

namespace OnesWalk

def exhaust (walk : OnesWalk w) : OnesWalk w := { walk with front := walk.back, left := some 0 }

def remaining {α : Type} (question : Buffers w → Cursor w → Nat → Option α) :
    Attempt (OnesWalk w) α :=
  Attempt.ask fun walk => walk.source.read fun m =>
    question m (walk.source.first + walk.front) (walk.back - walk.front)

def next : Attempt (OnesWalk w) (Option Nat) := do
  let walk ← get
  if walk.back ≤ walk.front then return none
  else
    let found ← remaining fun m p n => find m p n true
    if found = walk.back - walk.front then
      set walk.exhaust
      return none
    else
      set { walk with front := walk.front + found + 1, left := walk.left.map (· - 1) }
      return some (walk.front + found)

def nextBack : Attempt (OnesWalk w) (Option Nat) := do
  let walk ← get
  if walk.back ≤ walk.front then return none
  else
    let found ← remaining fun m p n => findLast m p n true
    if found = walk.back - walk.front then
      set { walk with back := walk.front, left := some 0 }
      return none
    else
      set { walk with back := walk.front + found, left := walk.left.map (· - 1) }
      return some (walk.front + found)

def length : Attempt (OnesWalk w) Nat := do
  let walk ← get
  if walk.back ≤ walk.front then return 0
  else
    match walk.left with
    | some left => return left
    | none =>
        let left ← remaining fun m p n => count m p n true
        set { walk with left := some left }
        return left

instance : TwoWayWalk (OnesWalk w) Nat where
  next := next
  hint := return SizeHint.exact (← length)
  nextBack := nextBack
  length := length

end OnesWalk

end PackedBits
