import PackedBits.Span.Update

/-! Views: the first bits of words that belong to someone else, who gets them back. -/
namespace PackedBits

structure View (w : Nat) where
  words : Array (BitVec w)
  len : Nat
deriving DecidableEq, Repr

namespace View
variable {w : Nat}

def ofWords? (words : Array (BitVec w)) (bits : Nat) : Except Error (View w) :=
  let available := min (words.size * w) maxSize
  if available < bits then .error (.capacityExceeded bits available) else .ok ⟨words, bits⟩

def ofWords (words : Array (BitVec w)) : View w := ⟨words, words.size * w⟩

instance : Container (View w) w where
  span view := ⟨view.words, 0, view.len⟩
  putWords view words := { view with words := words }

end View

end PackedBits
