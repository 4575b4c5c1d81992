import PackedBits.BitVector.Edit

/-! Comparing vectors and feeding them to a hash. Vectors are ordered as their lists of bits, the
first position most significant and a clear bit below a set one; what is hashed is the length and
the words in use. -/
namespace PackedBits.BitVector

def compareBits : List Bool → List Bool → Ordering
  | [], [] => .eq
  | [], _ :: _ => .lt
  | _ :: _, [] => .gt
  | a :: as, b :: bs => (compare a b).then (compareBits as bs)

/-- The order of two vectors. Where the common part is equal the lengths decide. -/
def order {w : Nat} [HasBits w] (s other : Span w) : Query Ordering := do
  let same ← s.readBoth other fun m p q => equal m p (min s.len other.len) q
  if same then return compare s.len other.len
  else return compareBits (← s.bits) (← other.bits)

end PackedBits.BitVector

namespace PackedBits

def littleEndian (count value : Nat) : List (BitVec 8) :=
  (List.range count).map fun i => BitVec.ofNat 8 (value >>> (8 * i))

/-- What a sequence of words feeds to a hash: how many there are, then their bytes. -/
def hashWords {w : Nat} (words : Array (BitVec w)) : List (BitVec 8) :=
  littleEndian 8 words.size ++ words.toList.flatMap fun word => littleEndian (w / 8) word.toNat

def BitVector.hashInput {S : Type} {w : Nat} [Storage S w] (storage : S) : List (BitVec 8) :=
  littleEndian 8 (Storage.len storage) ++ hashWords (Storage.words storage)

end PackedBits
