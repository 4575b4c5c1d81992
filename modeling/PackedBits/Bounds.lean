import PackedBits.Word
import PackedBits.Failure

/-! Range arguments. A pair of bounds denotes a half-open run of positions inside a length. It is
resolved in two ways that accept the same pairs: one answers a misfit with a panic, testing the
order of the ends first, the other with an error, testing the end first. -/
namespace PackedBits

inductive Bound where
  | included (value : Nat)
  | excluded (value : Nat)
  | unbounded
deriving DecidableEq, Repr

structure Bounds where
  lower : Bound
  upper : Bound
deriving DecidableEq, Repr

structure Extent where
  start : Nat
  stop : Nat
deriving DecidableEq, Repr

def Extent.size (extent : Extent) : Nat := extent.stop - extent.start

namespace Bounds

def all : Bounds := ⟨.unbounded, .unbounded⟩

def startingAt (start : Nat) : Bounds := ⟨.included start, .unbounded⟩

def below (stop : Nat) : Bounds := ⟨.unbounded, .excluded stop⟩

def single (index : Nat) : Bounds := ⟨.included index, .included index⟩

/-- The extent of a pair of bounds in a run of `len` positions. An end that no size can name
panics on its own account. -/
def resolve (bounds : Bounds) (len : Nat) : Query Extent := do
  let start ← match bounds.lower with
    | .included value => pure value
    | .excluded value =>
        if value < maxSize then pure (value + 1) else throw (.panic .startOverflow)
    | .unbounded => pure 0
  let stop ← match bounds.upper with
    | .included value =>
        if value < maxSize then pure (value + 1) else throw (.panic .endOverflow)
    | .excluded value => pure value
    | .unbounded => pure len
  if stop < start then throw (.panic (.reversedRange start stop))
  else if len < stop then throw (.panic (.rangeEnd stop len))
  else return ⟨start, stop⟩

/-- The extent of a pair of bounds, a misfit being an error. An end past the largest size is taken
as the largest size, which no length reaches. -/
def check (bounds : Bounds) (len : Nat) : Query Extent :=
  let start := match bounds.lower with
    | .included value => value
    | .excluded value => min (value + 1) maxSize
    | .unbounded => 0
  let stop := match bounds.upper with
    | .included value => min (value + 1) maxSize
    | .excluded value => value
    | .unbounded => len
  if len < stop then throw (.error (.outOfRange stop len))
  else if stop < start then throw (.error (.outOfRange start len))
  else return ⟨start, stop⟩

end Bounds

end PackedBits
