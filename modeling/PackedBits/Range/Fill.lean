import PackedBits.Range.Pieces

/-! Filling a run of bits with one value, and inverting it. -/
namespace PackedBits
variable {μ : Type} {w : Nat} [Memory μ w]

@[specialize] def fill (m : μ) (p : Cursor w) (n : Nat) (value : Bool) : Option μ :=
  if n = 0 then some m
  else
    maskedRun (fun m index mask => blend m (p.wordAddress index) (splat w value) mask)
      (eachIndex fun m index => Memory.store m (p.wordAddress index) (splat w value)) m p n

@[specialize] def invertMasked (p : Cursor w) (m : μ) (index : Nat) (mask : BitVec w) :
    Option μ := do
  let old ← Memory.load m (p.wordAddress index)
  Memory.store m (p.wordAddress index) (old ^^^ mask)

@[specialize] def invertWord (p : Cursor w) (m : μ) (index : Nat) : Option μ := do
  let old ← Memory.load m (p.wordAddress index)
  Memory.store m (p.wordAddress index) (~~~old)

@[specialize] def flip (m : μ) (p : Cursor w) (n : Nat) : Option μ :=
  if n = 0 then some m else maskedRun (invertMasked p) (eachIndex (invertWord p)) m p n

end PackedBits
