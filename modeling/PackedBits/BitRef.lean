import PackedBits.Memory

/-! References to single bits. A reference is a word's address and a mask that selects one bit of
it; every write is a masked change of the whole word, so references into one word may be used
side by side. -/
namespace PackedBits

structure BitRef (w : Nat) where
  address : Address
  mask : BitVec w
deriving DecidableEq, Repr

def Cursor.ref {w : Nat} (p : Cursor w) : BitRef w := ⟨p.address, p.mask⟩

namespace BitRef
variable {μ : Type} {w : Nat} [Memory μ w]

def get (r : BitRef w) (m : μ) : Option Bool := do
  return (← Memory.load m r.address) &&& r.mask != 0#w

def set (r : BitRef w) (value : Bool) (m : μ) : Option μ := do
  let word ← Memory.load m r.address
  Memory.store m r.address (if value then word ||| r.mask else word &&& ~~~r.mask)

def reset (r : BitRef w) (m : μ) : Option μ := r.set false m

def flip (r : BitRef w) (m : μ) : Option μ := do
  Memory.store m r.address ((← Memory.load m r.address) ^^^ r.mask)

def replace (r : BitRef w) (value : Bool) (m : μ) : Option (Bool × μ) := do
  return (← r.get m, ← r.set value m)

def andWith (r : BitRef w) (value : Bool) (m : μ) : Option μ :=
  if value then some m else r.reset m

def orWith (r : BitRef w) (value : Bool) (m : μ) : Option μ :=
  if value then r.set true m else some m

def xorWith (r : BitRef w) (value : Bool) (m : μ) : Option μ :=
  if value then r.flip m else some m

/-- Exchanges two referenced bits, which may lie in one word or be the same. -/
def swap (r s : BitRef w) (m : μ) : Option μ := do
  let a ← r.get m
  let b ← s.get m
  if a = b then return m
  else s.set a (← r.set b m)

inductive Call where
  | get
  | set (value : Bool)
  | reset
  | flip
  | replace (value : Bool)
  | andWith (value : Bool)
  | orWith (value : Bool)
  | xorWith (value : Bool)
deriving DecidableEq, Repr

def call (r : BitRef w) (m : μ) : Call → Option (Option Bool × μ)
  | .get => (r.get m).map (some ·, m)
  | .set value => (r.set value m).map (none, ·)
  | .reset => (r.reset m).map (none, ·)
  | .flip => (r.flip m).map (none, ·)
  | .replace value => (r.replace value m).map fun (old, m) => (some old, m)
  | .andWith value => (r.andWith value m).map (none, ·)
  | .orWith value => (r.orWith value m).map (none, ·)
  | .xorWith value => (r.xorWith value m).map (none, ·)

end BitRef

end PackedBits
