import PackedBits.Walk.Ones

/-! Selecting from a walk the items at the set positions of a span. -/
namespace PackedBits

/-- `index` is the number of items the source has been advanced past. -/
structure Selection (w : Nat) (ι : Type) where
  ones : OnesWalk w
  index : Nat
  source : ι

variable {w : Nat} [HasBits w] {ι α : Type}

def Span.select (s : Span w) (source : ι) : Selection w ι := ⟨s.ones, 0, source⟩

namespace Selection

def onOnes {β : Type} (attempt : Attempt (OnesWalk w) β) : Attempt (Selection w ι) β :=
  attempt.within ones fun selection ones => { selection with ones := ones }

def onSource {β : Type} (attempt : Attempt ι β) : Attempt (Selection w ι) β :=
  attempt.within source fun selection source => { selection with source := source }

/-- The item at the next set position. Once the positions or the source run out, the selection is
over for good. -/
def next [Walk ι α] : Attempt (Selection w ι) (Option α) := do
  match ← onOnes OnesWalk.next with
  | some position =>
      match ← onSource (Walk.nth (position - (← get).index)) with
      | some item =>
          modify fun selection => { selection with index := position + 1 }
          return some item
      | none =>
          modify fun selection => { selection with ones := selection.ones.exhaust }
          return none
  | none =>
      modify fun selection => { selection with ones := selection.ones.exhaust }
      return none

def hint [Walk ι α] : Attempt (Selection w ι) SizeHint := do
  let source ← onSource Walk.hint
  let limit ← onOnes OnesWalk.length
  return ⟨min source.lower limit, source.upper.map (min · limit)⟩

instance [Walk ι α] : Walk (Selection w ι) α where
  next := next
  hint := hint

end Selection

end PackedBits
