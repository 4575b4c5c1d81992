import PackedBits.Word
import PackedBits.Cursor

/-! Word memories. A memory holds words at addresses; loading or storing outside it yields `none`,
and so does every computation that tries to. The bulk operations are written against this
interface alone, so they run on arrays here and can be reasoned about on any memory, down to one
that holds nothing but the words an operation is entitled to. Single bits and runs of up to a
word of bits at any position are read and written through at most two words. -/
namespace PackedBits

class Memory (μ : Type) (w : outParam Nat) where
  load : μ → Address → Option (BitVec w)
  store : μ → Address → BitVec w → Option μ

structure Buffers (w : Nat) where
  buffers : Array (Array (BitVec w))

namespace Buffers
variable {w : Nat}

def load (m : Buffers w) (a : Address) : Option (BitVec w) :=
  if 0 ≤ a.word then m.buffers[a.buffer]?.bind (·[a.word.toNat]?) else none

def store (m : Buffers w) (a : Address) (word : BitVec w) : Option (Buffers w) :=
  if (m.load a).isSome then
    some ⟨m.buffers.modify a.buffer (·.setIfInBounds a.word.toNat word)⟩
  else none

def words (m : Buffers w) (buffer : Nat) : Array (BitVec w) := m.buffers.getD buffer #[]

instance : Memory (Buffers w) w := ⟨load, store⟩

end Buffers

variable {μ : Type} {w : Nat} [Memory μ w]

/-- Replaces the bits of a word that `mask` selects by those of `value`. -/
@[specialize] def blend (m : μ) (a : Address) (value mask : BitVec w) : Option μ := do
  let old ← Memory.load m a
  Memory.store m a ((value &&& mask) ||| (old &&& ~~~mask))

/-- Reads `n` bits at `p`, at least one and at most a word, into the low bits of a word. The word
after the cursor's is touched only when the run crosses into it. -/
@[specialize] def readBits (m : μ) (p : Cursor w) (n : Nat) : Option (BitVec w) := do
  let available := w - p.bit
  let low := (← Memory.load m p.address) >>> p.bit
  if n ≤ available then
    return (low.setWidth n).setWidth w
  else
    return low ||| (((← Memory.load m p.nextAddress).setWidth (n - available)).setWidth w <<< available)

/-- Writes the low `n` bits of `value`, at least one and at most a word, at `p`. -/
@[specialize] def writeBits (m : μ) (p : Cursor w) (n : Nat) (value : BitVec w) : Option μ := do
  let available := w - p.bit
  if n ≤ available then
    blend m p.address (value <<< p.bit) (maskRange w p.bit (p.bit + n))
  else
    let m ← blend m p.address (value <<< p.bit) (maskFrom w p.bit)
    blend m p.nextAddress (value >>> available) (maskTo w (n - available))

@[specialize] def readBit (m : μ) (p : Cursor w) : Option Bool := do
  return (← Memory.load m p.address) &&& p.mask != 0#w

@[specialize] def writeBit (m : μ) (p : Cursor w) (value : Bool) : Option μ := do
  let word ← Memory.load m p.address
  Memory.store m p.address (if value then word ||| p.mask else word &&& ~~~p.mask)

end PackedBits
