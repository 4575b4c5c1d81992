import PackedBits.Word

/-! Cursors. A cursor names one bit: a buffer, a word of that buffer and a bit of that word. Words
count from the first word of the buffer and may be negative, so a cursor may stand before or past
its buffer; only following it needs it to be inside. Movement carries between bit and word, and
the bit stays below the width by construction. -/
namespace PackedBits

structure Address where
  buffer : Nat
  word : Int
deriving DecidableEq, Repr

structure Cursor (w : Nat) where
  buffer : Nat
  word : Int
  bit : Nat
  bit_lt : bit < w
deriving DecidableEq, Repr

namespace Cursor
variable {w : Nat}

theorem width_pos (p : Cursor w) : 0 < w := Nat.zero_lt_of_lt p.bit_lt

def ofPosition [HasBits w] (buffer position : Nat) : Cursor w where
  buffer := buffer
  word := (position / w : Nat)
  bit := position % w
  bit_lt := Nat.mod_lt _ (Nat.pos_of_neZero w)

def address (p : Cursor w) : Address := ⟨p.buffer, p.word⟩

def nextAddress (p : Cursor w) : Address := ⟨p.buffer, p.word + 1⟩

def flush (p : Cursor w) : Cursor w := ⟨p.buffer, p.word, 0, p.width_pos⟩

def mask (p : Cursor w) : BitVec w := 1#w <<< p.bit

def position (p : Cursor w) : Int := p.word * w + p.bit

def forward (p : Cursor w) (n : Nat) : Cursor w where
  buffer := p.buffer
  word := p.word + ((p.bit + n) / w : Nat)
  bit := (p.bit + n) % w
  bit_lt := Nat.mod_lt _ p.width_pos

/-- Moves `n` bits towards the start. The bit is counted from the top of its word, which makes
stepping back a division of natural numbers again. -/
def backward (p : Cursor w) (n : Nat) : Cursor w where
  buffer := p.buffer
  word := p.word - ((n + (w - 1 - p.bit)) / w : Nat)
  bit := w - 1 - (n + (w - 1 - p.bit)) % w
  bit_lt := by have := p.width_pos; omega

/-- Moves by a signed number of bits, with the quotient rounded down. -/
def move (p : Cursor w) (n : Int) : Cursor w where
  buffer := p.buffer
  word := p.word + (p.bit + n) / w
  bit := ((p.bit + n) % w).toNat
  bit_lt := by
    have positive : (0 : Int) < w := Int.ofNat_lt.mpr p.width_pos
    have below := Int.emod_lt_of_pos (p.bit + n) positive
    have above := Int.emod_nonneg (p.bit + n) (Int.ne_of_gt positive)
    omega

def next (p : Cursor w) : Cursor w :=
  if last : p.bit = w - 1 then ⟨p.buffer, p.word + 1, 0, p.width_pos⟩
  else ⟨p.buffer, p.word, p.bit + 1, by have := p.bit_lt; omega⟩

def previous (p : Cursor w) : Cursor w :=
  if p.bit = 0 then ⟨p.buffer, p.word - 1, w - 1, Nat.sub_one_lt_of_lt p.width_pos⟩
  else ⟨p.buffer, p.word, p.bit - 1, by have := p.bit_lt; omega⟩

def distanceFrom (p origin : Cursor w) : Int :=
  (p.word - origin.word) * w + p.bit - origin.bit

instance : HAdd (Cursor w) Nat (Cursor w) := ⟨forward⟩
instance : HSub (Cursor w) Nat (Cursor w) := ⟨backward⟩
instance : HSub (Cursor w) (Cursor w) Int := ⟨distanceFrom⟩

instance : Ord (Cursor w) where
  compare p q :=
    ((compare p.buffer q.buffer).then (compare p.word q.word)).then (compare p.bit q.bit)

end Cursor

end PackedBits
