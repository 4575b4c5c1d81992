import PackedBits.Range.Pieces

/-! Moving runs of bits, and exchanging them. Runs that begin at the same bit of their words are
moved as words, of which those at both ends are masked. Otherwise the pieces follow the word
boundaries of the destination, and every whole word of it is fed by two words of the source. A
forward copy may overlap a source that lies above its destination, a backward copy one that lies
below. -/
namespace PackedBits
variable {μ : Type} {w : Nat} [Memory μ w]

@[specialize] def moveMasked (source target : Cursor w) (m : μ) (index : Nat) (mask : BitVec w) :
    Option μ := do
  blend m (target.wordAddress index) (← Memory.load m (source.wordAddress index)) mask

@[specialize] def loadWords (source : Cursor w) (m : μ) (start count : Nat) :
    Option (Array (BitVec w)) :=
  eachIndex (fun words index => do
    return words.push (← Memory.load m (source.wordAddress index))) #[] start count

@[specialize] def storeWord (target : Cursor w) (words : Array (BitVec w)) (start : Nat) (m : μ)
    (i : Nat) : Option μ := do
  Memory.store m (target.wordAddress (start + i)) (← words[i]?)

/-- Moves whole words as if through a buffer of their own: all of them are read before the first is
written, so they may overlap in any way. -/
@[specialize] def moveWords (source target : Cursor w) (m : μ) (start count : Nat) : Option μ := do
  let words ← loadWords source m start count
  eachIndex (storeWord target words start) m 0 count

@[specialize] def moveChunk (source target : Cursor w) (m : μ) (chunk : Chunk) : Option μ := do
  let word ← readBits m (source + chunk.offset) chunk.width
  writeBits m (target + chunk.offset) chunk.width word

/-- Writes a whole word of a target that begins with one, from the two words of the source that it
comes from. The source does not begin with a word. -/
@[specialize] def feedWord (source target : Cursor w) (m : μ) (index : Nat) : Option μ := do
  let low := (← Memory.load m (source.wordAddress index)) >>> source.bit
  let high := (← Memory.load m (source.wordAddress (index + 1))) <<< (w - source.bit)
  Memory.store m (target.wordAddress index) (low ||| high)

@[specialize] def copyAligned (m : μ) (source : Cursor w) (n : Nat) (target : Cursor w) :
    Option μ :=
  maskedRun (moveMasked source target) (moveWords source target) m source n

@[specialize] def copyUnaligned (m : μ) (source : Cursor w) (n : Nat) (target : Cursor w) :
    Option μ :=
  chunkedRun (moveChunk source target)
    (fun m offset => eachIndex (feedWord (source + offset) (target + offset)) m 0) m target n

/-- Copies `n` bits, lowest first, and returns the end of the destination. -/
@[specialize] def copy (m : μ) (source : Cursor w) (n : Nat) (target : Cursor w) :
    Option (μ × Cursor w) :=
  if n = 0 then some (m, target)
  else do
    let copied := if source.bit = target.bit then copyAligned m source n target
      else copyUnaligned m source n target
    return (← copied, target + n)

@[specialize] def copyBackwardAligned (m : μ) (source : Cursor w) (n : Nat) (target : Cursor w) :
    Option μ :=
  maskedRunBack (moveMasked source target) (moveWords source target) m source n

@[specialize] def copyBackwardUnaligned (m : μ) (source : Cursor w) (n : Nat)
    (target stop : Cursor w) : Option μ :=
  chunkedRunBack (moveChunk source target)
    (fun m offset => eachIndexBack (feedWord (source + offset) (target + offset)) m 0) m stop n

/-- Copies `n` bits to the run that ends at `stop`, highest first, and returns its start. -/
@[specialize] def copyBackward (m : μ) (source : Cursor w) (n : Nat) (stop : Cursor w) :
    Option (μ × Cursor w) :=
  if n = 0 then some (m, stop)
  else do
    let target := stop - n
    let copied := if source.bit = target.bit then copyBackwardAligned m source n target
      else copyBackwardUnaligned m source n target stop
    return (← copied, target)

@[specialize] def swapMasked (first second : Cursor w) (m : μ) (index : Nat) (mask : BitVec w) :
    Option μ := do
  let a ← Memory.load m (first.wordAddress index)
  let b ← Memory.load m (second.wordAddress index)
  let m ← Memory.store m (first.wordAddress index) ((a &&& ~~~mask) ||| (b &&& mask))
  Memory.store m (second.wordAddress index) ((b &&& ~~~mask) ||| (a &&& mask))

@[specialize] def swapWord (first second : Cursor w) (m : μ) (index : Nat) : Option μ := do
  let a ← Memory.load m (first.wordAddress index)
  let b ← Memory.load m (second.wordAddress index)
  let m ← Memory.store m (first.wordAddress index) b
  Memory.store m (second.wordAddress index) a

@[specialize] def swapChunk (first second : Cursor w) (m : μ) (chunk : Chunk) : Option μ := do
  let a ← readBits m (first + chunk.offset) chunk.width
  let b ← readBits m (second + chunk.offset) chunk.width
  let m ← writeBits m (first + chunk.offset) chunk.width b
  writeBits m (second + chunk.offset) chunk.width a

@[specialize] def swapAligned (m : μ) (first : Cursor w) (n : Nat) (second : Cursor w) :
    Option μ :=
  maskedRun (swapMasked first second) (eachIndex (swapWord first second)) m first n

@[specialize] def swapUnaligned (m : μ) (first : Cursor w) (n : Nat) (second : Cursor w) :
    Option μ :=
  chunkedRun (swapChunk first second)
    (fun m offset => eachIndex (fun m k => swapChunk first second m ⟨offset + k * w, w⟩) m 0)
    m first n

/-- Exchanges two runs of `n` bits that do not overlap, and returns the end of the second. -/
@[specialize] def swapRanges (m : μ) (first : Cursor w) (n : Nat) (second : Cursor w) :
    Option (μ × Cursor w) :=
  if n = 0 then some (m, second)
  else do
    let swapped := if first.bit = second.bit then swapAligned m first n second
      else swapUnaligned m first n second
    return (← swapped, second + n)

end PackedBits
