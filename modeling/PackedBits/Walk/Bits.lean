import PackedBits.BitRef
import PackedBits.Span.Query
import PackedBits.Walk.Basic

/-! Walking over every position of a span from both ends: the values, references to the bits, and
the values of a container that the walk has taken over. -/
namespace PackedBits

structure BitWalk (w : Nat) where
  source : Span w
  front : Cursor w
  back : Cursor w

/-- The bits between two cursors, each handed out once. -/
structure RefWalk (w : Nat) where
  front : Cursor w
  back : Cursor w

structure OwnedWalk (γ : Type) where
  container : γ
  front : Nat
  back : Nat

variable {w : Nat} [HasBits w]

def Span.walk (s : Span w) : BitWalk w := ⟨s, s.first, s.stop⟩

def Span.walkRefs (s : Span w) : RefWalk w := ⟨s.first, s.stop⟩

def OwnedWalk.of {γ : Type} [Container γ w] (container : γ) : OwnedWalk γ :=
  ⟨container, 0, (Container.span container).len⟩

namespace BitWalk

def length (walk : BitWalk w) : Nat := (walk.back - walk.front).toNat

def valueAt (p : Cursor w) : Attempt (BitWalk w) Bool :=
  Attempt.ask fun walk => walk.source.read fun m => readBit m p

def next : Attempt (BitWalk w) (Option Bool) := do
  let walk ← get
  if walk.front = walk.back then return none
  else
    let value ← valueAt walk.front
    set { walk with front := walk.front.next }
    return some value

def nextBack : Attempt (BitWalk w) (Option Bool) := do
  let walk ← get
  if walk.front = walk.back then return none
  else
    set { walk with back := walk.back.previous }
    return some (← valueAt walk.back.previous)

def nth (n : Nat) : Attempt (BitWalk w) (Option Bool) := do
  let walk ← get
  if walk.length ≤ n then
    set { walk with front := walk.back }
    return none
  else
    set { walk with front := walk.front + n }
    next

instance : TwoWayWalk (BitWalk w) Bool where
  next := next
  nth := nth
  hint := return SizeHint.exact (← get).length
  nextBack := nextBack
  length := return (← get).length

end BitWalk

namespace RefWalk

def length (walk : RefWalk w) : Nat := (walk.back - walk.front).toNat

def next : Attempt (RefWalk w) (Option (BitRef w)) := do
  let walk ← get
  if walk.front = walk.back then return none
  else
    set { walk with front := walk.front.next }
    return some walk.front.ref

def nextBack : Attempt (RefWalk w) (Option (BitRef w)) := do
  let walk ← get
  if walk.front = walk.back then return none
  else
    set { walk with back := walk.back.previous }
    return some walk.back.previous.ref

instance : TwoWayWalk (RefWalk w) (BitRef w) where
  next := next
  hint := return SizeHint.exact (← get).length
  nextBack := nextBack
  length := return (← get).length

end RefWalk

namespace OwnedWalk
variable {γ : Type} [Container γ w]

def length (walk : OwnedWalk γ) : Nat := walk.back - walk.front

def valueAt (index : Nat) : Attempt (OwnedWalk γ) Bool :=
  Attempt.ask fun walk => (Container.span walk.container).bitAt index

def next : Attempt (OwnedWalk γ) (Option Bool) := do
  let walk ← get
  if walk.front = walk.back then return none
  else
    let value ← valueAt walk.front
    set { walk with front := walk.front + 1 }
    return some value

def nextBack : Attempt (OwnedWalk γ) (Option Bool) := do
  let walk ← get
  if walk.front = walk.back then return none
  else
    set { walk with back := walk.back - 1 }
    return some (← valueAt (walk.back - 1))

instance : TwoWayWalk (OwnedWalk γ) Bool where
  next := next
  hint := return SizeHint.exact (← get).length
  nextBack := nextBack
  length := return (← get).length

end OwnedWalk

end PackedBits
