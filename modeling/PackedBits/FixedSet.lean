import PackedBits.Span.Update

/-! Sets of a fixed number of bits. The bits of the last word past the size stay clear, so the words
are a canonical form: equality and hashing may look at words alone, and the operators work word by
word and trim what inverting sets. -/
namespace PackedBits

structure FixedSet (w n : Nat) where
  words : Array (BitVec w)
deriving DecidableEq, Repr

namespace FixedSet
variable {w n : Nat}

instance : Container (FixedSet w n) w where
  span set := ⟨set.words, 0, n⟩
  putWords _ words := ⟨words⟩

def trim (set : FixedSet w n) : FixedSet w n :=
  if n % w = 0 then set
  else ⟨set.words.modify (set.words.size - 1) (· &&& maskTo w (n % w))⟩

def empty : FixedSet w n := ⟨Array.replicate (wordsFor w n) 0#w⟩

def ofWords (words : Array (BitVec w)) : FixedSet w n := trim ⟨words⟩

def after [HasBits w] (set : FixedSet w n) (change : Attempt (Span w) Unit) :
    Query (FixedSet w n) :=
  match inPlace change set with
  | .ok _ set => .ok set
  | .error failure _ => .error failure

def splat [HasBits w] (value : Bool) : Query (FixedSet w n) :=
  if value then empty.after Span.setAll else .ok empty

def zipWords (op : BitVec w → BitVec w → BitVec w) (a b : FixedSet w n) : FixedSet w n :=
  ⟨Array.zipWith op a.words b.words⟩

def and (a b : FixedSet w n) : FixedSet w n := zipWords (· &&& ·) a b

def or (a b : FixedSet w n) : FixedSet w n := zipWords (· ||| ·) a b

def xor (a b : FixedSet w n) : FixedSet w n := zipWords (· ^^^ ·) a b

def complement (set : FixedSet w n) : FixedSet w n := trim ⟨set.words.map (~~~·)⟩

def shiftLeft [HasBits w] (set : FixedSet w n) (amount : Nat) : Query (FixedSet w n) :=
  set.after (Span.shiftLeft amount)

def shiftRight [HasBits w] (set : FixedSet w n) (amount : Nat) : Query (FixedSet w n) :=
  set.after (Span.shiftRight amount)

end FixedSet

end PackedBits
