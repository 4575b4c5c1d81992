import PackedBits.BitVector.Build

/-! Vectors as sets of positions. The forms that change a vector grow it only where the result can
reach past its end; the others work on a copy. -/
namespace PackedBits.BitVector
variable {S : Type} {w : Nat} [HasBits w] [Storage S w]

def growTo (bits : Nat) : Attempt (Holding S) Unit := do
  if len (← get) < bits then resize bits false

def unionWith (other : Span w) : Attempt (Holding S) Unit := do
  growTo other.len
  inPlace (Span.orWith other)

def intersectionWith (other : Span w) : Attempt (Holding S) Unit := inPlace (Span.andWith other)

def differenceWith (other : Span w) : Attempt (Holding S) Unit := inPlace (Span.andNotWith other)

def symmetricDifferenceWith (other : Span w) : Attempt (Holding S) Unit := do
  growTo other.len
  inPlace (Span.xorWith other)

/-- Works on a vector beside a copy of another, which is given up afterwards. -/
def besideCopy (other : S) (change : Span w → Attempt (Holding S) Unit) :
    Attempt (Holding S) Unit := do
  let copy ← Holding.onProvider (clone other)
  try change (Container.span copy) finally Holding.onProvider (Storage.release copy)

def copied (storage : S) (change : Attempt (Holding S) Unit) : Attempt Provider S := do
  onOwned (← clone storage) change

def union (storage : S) (other : Span w) : Attempt Provider S := copied storage (unionWith other)

def intersection (storage : S) (other : Span w) : Attempt Provider S :=
  copied storage (intersectionWith other)

def difference (storage : S) (other : Span w) : Attempt Provider S :=
  copied storage (differenceWith other)

def symmetricDifference (storage : S) (other : Span w) : Attempt Provider S :=
  copied storage (symmetricDifferenceWith other)

def complement (storage : S) : Attempt Provider S := copied storage (inPlace Span.flipAll)

end PackedBits.BitVector
