import PackedBits.Span.Basic
import PackedBits.Bounds
import PackedBits.Range.Scan
import PackedBits.Range.Move
import PackedBits.Range.Combine
import PackedBits.Range.Search

/-! Questions about a span: single bits, counts, the nearest position that holds a value, the
occurrence of a pattern, comparison with a second span, and the bits as words. A question about
two spans takes the shorter one as padded with clear bits. -/
namespace PackedBits.Span
variable {w : Nat} [HasBits w]

def bitAt (s : Span w) (index : Nat) : Query Bool := s.read fun m => readBit m (s.first + index)

def test (s : Span w) (index : Nat) : Query Bool := do
  s.checkIndex index
  s.bitAt index

def test? (s : Span w) (index : Nat) : Query Bool :=
  if index < s.len then s.bitAt index else throw (.error (.outOfRange index s.len))

def bits (s : Span w) : Query (List Bool) :=
  (List.range s.len).mapM s.bitAt

def countOnes (s : Span w) : Query Nat := s.read fun m => count m s.first s.len true

def countZeros (s : Span w) : Query Nat := do
  return s.len - (← s.countOnes)

def countOnesIn (s : Span w) (bounds : Bounds) : Query Nat := do
  let extent ← bounds.resolve s.len
  s.read fun m => count m (s.first + extent.start) extent.size true

def rank (s : Span w) (index : Nat) : Query Nat := s.countOnesIn (Bounds.below index)

def density (s : Span w) : Query Float := do
  if s.isEmpty then return 0
  else return Float.ofNat (← s.countOnes) / Float.ofNat s.len

def findNext (s : Span w) (value : Bool) (start : Nat) : Query (Option Nat) := do
  if start < s.len then
    let found ← s.read fun m => find m (s.first + start) (s.len - start) value
    return if found = s.len - start then none else some (start + found)
  else return none

def findFirst (s : Span w) (value : Bool) : Query (Option Nat) := s.findNext value 0

def findFirstZero (s : Span w) : Query (Option Nat) := s.findFirst false

def findLast (s : Span w) (value : Bool) : Query (Option Nat) := do
  let found ← s.read fun m => PackedBits.findLast m s.first s.len value
  return if found = s.len then none else some found

def all (s : Span w) : Query Bool := do
  return (← s.findFirst false).isNone

def any (s : Span w) : Query Bool := do
  return (← s.findFirst true).isSome

def none (s : Span w) : Query Bool := do
  return !(← s.any)

/-- The first occurrence of a pattern from `start` on; an empty pattern occurs nowhere. -/
def searchFrom (s pattern : Span w) (start : Nat) : Query (Option Nat) := do
  if s.len < start then return Option.none
  else
    let found ← s.readBoth pattern fun m p q =>
      PackedBits.search m (p + start) (s.len - start) q pattern.len
    return if found = s.len - start then Option.none else some (start + found)

def search (s pattern : Span w) : Query (Option Nat) := s.searchFrom pattern 0

def bitsEq (s other : Span w) : Query Bool := do
  if s.len = other.len then s.readBoth other fun m p q => equal m p s.len q
  else return false

def isSubset (s other : Span w) : Query Bool := do
  let common := min s.len other.len
  let stray ← s.readBoth other fun m p q => anyOf m .andNot p common q
  if stray then return false
  else
    let found ← s.read fun m => find m (s.first + common) (s.len - common) true
    return found == s.len - common

def isSuperset (s other : Span w) : Query Bool := other.isSubset s

def intersects (s other : Span w) : Query Bool :=
  s.readBoth other fun m p q => anyOf m .and p (min s.len other.len) q

def isDisjoint (s other : Span w) : Query Bool := do
  return !(← s.intersects other)

/-- The bits packed into fresh words from bit 0 of the first, unused high bits clear. -/
def toWords (s : Span w) : Query (Array (BitVec w)) :=
  s.readBoth (zeroed s.len) fun m source target => do
    let (m, _) ← copy m source s.len target
    return m.words 1

end PackedBits.Span
