import PackedBits.Failure

/-! Walks. A walk yields items one at a time from the front, and a two-way walk also from the back;
the state it has reached is part of the answer. Skipping is stepping unless a walk has a shorter
way, and taking stops at the first missing item. -/
namespace PackedBits

structure SizeHint where
  lower : Nat
  upper : Option Nat
deriving DecidableEq, Repr

def SizeHint.exact (n : Nat) : SizeHint := ⟨n, some n⟩

namespace Walk
variable {ι α : Type}

/-- Discards `n` items and yields the one after them; nothing once an item is missing. -/
def skipping (next : Attempt ι (Option α)) : Nat → Attempt ι (Option α)
  | 0 => next
  | n + 1 => do
      match ← next with
      | none => return none
      | some _ => skipping next n

/-- The next `n` items, fewer when the walk ends before. -/
def taking (next : Attempt ι (Option α)) : Nat → Attempt ι (List α)
  | 0 => return []
  | n + 1 => do
      match ← next with
      | none => return []
      | some item => return item :: (← taking next n)

end Walk

class Walk (ι : Type) (α : outParam Type) where
  next : Attempt ι (Option α)
  nth : Nat → Attempt ι (Option α) := Walk.skipping next
  hint : Attempt ι SizeHint

class TwoWayWalk (ι : Type) (α : outParam Type) extends Walk ι α where
  nextBack : Attempt ι (Option α)
  nthBack : Nat → Attempt ι (Option α) := Walk.skipping nextBack
  length : Attempt ι Nat

namespace Walk
variable {ι α : Type}

def take [Walk ι α] (n : Nat) : Attempt ι (List α) := taking next n

/-- Runs an operation on a copy of the walk, which stays where it is. -/
def aside (attempt : Attempt ι α) : Attempt ι α := fun walk =>
  match attempt walk with
  | .ok value _ => .ok value walk
  | .error failure _ => .error failure walk

inductive Call where
  | next
  | nth (n : Nat)
  | take (n : Nat)
  | hint
deriving DecidableEq, Repr

inductive Reply (α : Type) where
  | item (item : Option α)
  | items (items : List α)
  | hint (hint : SizeHint)
  | size (n : Nat)

def call [Walk ι α] : Call → Attempt ι (Reply α)
  | .next => return .item (← next)
  | .nth n => return .item (← nth n)
  | .take n => return .items (← take n)
  | .hint => return .hint (← hint)

end Walk

namespace TwoWayWalk
variable {ι α : Type} [TwoWayWalk ι α]

def takeBack (n : Nat) : Attempt ι (List α) := Walk.taking nextBack n

def drain : Attempt ι (List α) := do
  Walk.take (← length)

def drainBack : Attempt ι (List α) := do
  takeBack (← length)

/-- What may be asked of a two-way walk; the last four are asked of a copy. -/
inductive Call where
  | front (call : Walk.Call)
  | nextBack
  | nthBack (n : Nat)
  | takeBack (n : Nat)
  | length
  | count
  | last
  | rest
  | restBack
deriving DecidableEq, Repr

def call : Call → Attempt ι (Walk.Reply α)
  | .front call => Walk.call call
  | .nextBack => return .item (← nextBack)
  | .nthBack n => return .item (← nthBack n)
  | .takeBack n => return .items (← takeBack n)
  | .length => return .size (← length)
  | .count => return .size (← Walk.aside drain).length
  | .last => return .item (← Walk.aside drain).getLast?
  | .rest => return .items (← Walk.aside drain)
  | .restBack => return .items (← Walk.aside drainBack)

end TwoWayWalk

end PackedBits
