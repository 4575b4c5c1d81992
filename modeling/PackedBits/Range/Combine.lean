import PackedBits.Range.Pieces

/-! Two runs of bits taken together, pair by pair: combined into a third run, tested for a pair on
which an operation yields a set bit, and compared. -/
namespace PackedBits
variable {μ : Type} {w : Nat} [Memory μ w]

@[specialize] def readPair (m : μ) (first second : Cursor w) (chunk : Chunk) :
    Option (BitVec w × BitVec w) := do
  let a ← readBits m (first + chunk.offset) chunk.width
  let b ← readBits m (second + chunk.offset) chunk.width
  return (a, b)

@[specialize] def combineMasked (op : BitOp) (first second target : Cursor w) (m : μ) (index : Nat)
    (mask : BitVec w) : Option μ := do
  let a ← Memory.load m (first.wordAddress index)
  let b ← Memory.load m (second.wordAddress index)
  blend m (target.wordAddress index) (op.apply a b) mask

@[specialize] def combineWord (op : BitOp) (first second target : Cursor w) (m : μ) (index : Nat) :
    Option μ := do
  let a ← Memory.load m (first.wordAddress index)
  let b ← Memory.load m (second.wordAddress index)
  Memory.store m (target.wordAddress index) (op.apply a b)

@[specialize] def combineChunk (op : BitOp) (first second target : Cursor w) (m : μ)
    (chunk : Chunk) : Option μ := do
  let (a, b) ← readPair m first second chunk
  writeBits m (target + chunk.offset) chunk.width (op.apply a b)

@[specialize] def combineInto (op : BitOp) (first second target : Cursor w) (m : μ) (index : Nat) :
    Option μ := do
  let (a, b) ← readPair m first second ⟨index * w, w⟩
  Memory.store m (target.wordAddress index) (op.apply a b)

@[specialize] def transformAligned (m : μ) (op : BitOp) (first : Cursor w) (n : Nat)
    (second target : Cursor w) : Option μ :=
  maskedRun (combineMasked op first second target) (eachIndex (combineWord op first second target))
    m first n

@[specialize] def transformUnaligned (m : μ) (op : BitOp) (first : Cursor w) (n : Nat)
    (second target : Cursor w) : Option μ :=
  chunkedRun (combineChunk op first second target)
    (fun m offset =>
      eachIndex (combineInto op (first + offset) (second + offset) (target + offset)) m 0)
    m target n

/-- Writes `op` of every pair of bits to the run at `target`, lowest first, and returns its end.
The target may be one of the inputs, or start before one it overlaps. -/
@[specialize] def transform (m : μ) (op : BitOp) (first : Cursor w) (n : Nat)
    (second target : Cursor w) : Option (μ × Cursor w) :=
  if n = 0 then some (m, target)
  else do
    let combined :=
      if first.bit = target.bit ∧ second.bit = target.bit then
        transformAligned m op first n second target
      else transformUnaligned m op first n second target
    return (← combined, target + n)

@[specialize] def anyOf (m : μ) (op : BitOp) (first : Cursor w) (n : Nat) (second : Cursor w) :
    Option Bool := do
  let found ← first.seek n fun chunk => do
    let (a, b) ← readPair m first second chunk
    return if op.apply a b = 0#w then none else some ()
  return found.isSome

/-- Compares a chunk of two runs that begin at the same bit of their words: the words as they are
stored, under a mask. -/
@[specialize] def unlikeInPlace (m : μ) (first second : Cursor w) (chunk : Chunk) :
    Option (Option Unit) := do
  let p := first + chunk.offset
  let a ← Memory.load m p.address
  let b ← Memory.load m (second + chunk.offset).address
  return if (a ^^^ b) &&& maskRange w p.bit (p.bit + chunk.width) = 0#w then none else some ()

@[specialize] def unlikeShifted (m : μ) (first second : Cursor w) (chunk : Chunk) :
    Option (Option Unit) := do
  let (a, b) ← readPair m first second chunk
  return if a = b then none else some ()

@[specialize] def equal (m : μ) (first : Cursor w) (n : Nat) (second : Cursor w) : Option Bool := do
  let visit := if first.bit = second.bit then unlikeInPlace m else unlikeShifted m
  return (← first.seek n (visit first second)).isNone

end PackedBits
