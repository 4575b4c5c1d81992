/-! Storage words. A word is a bit vector of width `w`; bit `i` of it is the `i`-th position it
stores, lowest first. The masks select a run of positions inside one word, and the size functions
say which word and which bit of it a position of a long sequence falls on. -/
namespace PackedBits

/-- A word has at least one bit. The zero is named in full, for the class to be the same one with a
larger library in scope. -/
abbrev HasBits (w : Nat) : Prop := @NeZero Nat Zero.ofOfNat0 w

def maxSize : Nat := 1 <<< 64 - 1

def maxSigned : Nat := 1 <<< 63 - 1

def wordsFor (w bits : Nat) : Nat := (bits + (w - 1)) / w

def wordIndex (w position : Nat) : Nat := position / w

def bitIndex (w position : Nat) : Nat := position % w

variable {w : Nat}

def bitMask (w position : Nat) : BitVec w := 1#w <<< bitIndex w position

def maskFrom (w low : Nat) : BitVec w := BitVec.allOnes w <<< low

def maskTo (w high : Nat) : BitVec w := BitVec.allOnes w >>> (w - high)

def maskRange (w low high : Nat) : BitVec w := maskFrom w low &&& maskTo w high

def splat (w : Nat) (value : Bool) : BitVec w := if value then BitVec.allOnes w else 0#w

def countOnes (word : BitVec w) : Nat := word.cpop.toNat

def leadingZeros (word : BitVec w) : Nat := if word = 0#w then w else w - 1 - word.toNat.log2

def firstSetFrom (word : BitVec w) (i : Nat) : Nat :=
  if i < w then if word.getLsbD i then i else firstSetFrom word (i + 1)
  else w
termination_by w - i

def trailingZeros (word : BitVec w) : Nat := firstSetFrom word 0

def shiftLeft? (word : BitVec w) (n : Nat) : Option (BitVec w) :=
  if n < w then some (word <<< n) else none

def shiftRight? (word : BitVec w) (n : Nat) : Option (BitVec w) :=
  if n < w then some (word >>> n) else none

def reverseLow (word : BitVec w) (n : Nat) : BitVec w := word.reverse >>> (w - n)

inductive BitOp where
  | and
  | or
  | xor
  | andNot
deriving DecidableEq, Repr

def BitOp.apply (op : BitOp) (a b : BitVec w) : BitVec w :=
  match op with
  | .and => a &&& b
  | .or => a ||| b
  | .xor => a ^^^ b
  | .andNot => a &&& ~~~b

end PackedBits
