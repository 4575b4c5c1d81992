import PackedBits.Chunk

/-! Runs in pieces: what is left of the first word, whole words, and the beginning of the last word.
Runs that begin at the same bit of their words are worked on in place, the pieces inside one word
under a mask. Runs that do not are cut at the word boundaries of one of them, and the pieces of the
others are put together from two words each. -/
namespace PackedBits

section
variable {σ : Type}

@[specialize] def eachIndex (step : σ → Nat → Option σ) (state : σ) (start : Nat) : Nat → Option σ
  | 0 => some state
  | count + 1 => do eachIndex step (← step state start) (start + 1) count

@[specialize] def eachIndexBack (step : σ → Nat → Option σ) (state : σ) (start : Nat) :
    Nat → Option σ
  | 0 => some state
  | count + 1 => do eachIndexBack step (← step state (start + count)) start count

end

variable {w : Nat}

def Cursor.wordAddress (p : Cursor w) (index : Nat) : Address := ⟨p.buffer, p.word + index⟩

/-- The first whole word from a cursor on, counted from its own word, and the number of whole words
up to `stop`. -/
def Cursor.wholeWords (p stop : Cursor w) : Nat × Nat :=
  let start := if p.bit = 0 then 0 else 1
  (start, (stop.word - (p.word + start)).toNat)

section Masked
variable {μ : Type} (part : μ → Nat → BitVec w → Option μ) (words : μ → Nat → Nat → Option μ)

@[specialize] def maskedHead (m : μ) (p : Cursor w) : Option μ :=
  if p.bit = 0 then some m else part m 0 (maskFrom w p.bit)

@[specialize] def maskedTail (m : μ) (index : Nat) (stop : Cursor w) : Option μ :=
  if stop.bit = 0 then some m else part m index (maskTo w stop.bit)

/-- Works on `n` bits at `p`, at least one: by `part` on those that a mask selects in the word of a
given index, and by `words` on a number of whole words from an index on. -/
@[specialize] def maskedRun (m : μ) (p : Cursor w) (n : Nat) : Option μ :=
  if p.bit + n ≤ w then part m 0 (maskRange w p.bit (p.bit + n))
  else do
    let stop := p + n
    let (start, count) := p.wholeWords stop
    let m ← maskedHead part m p
    let m ← words m start count
    maskedTail part m (start + count) stop

@[specialize] def maskedRunBack (m : μ) (p : Cursor w) (n : Nat) : Option μ :=
  if p.bit + n ≤ w then part m 0 (maskRange w p.bit (p.bit + n))
  else do
    let stop := p + n
    let (start, count) := p.wholeWords stop
    let m ← maskedTail part m (start + count) stop
    let m ← words m start count
    maskedHead part m p

end Masked

/-- How many of `n` bits stand before the first word boundary, unless they are a whole word. -/
def Cursor.headWidth (p : Cursor w) (n : Nat) : Nat := if p.bit = 0 then 0 else min n (w - p.bit)

/-- How many of the `n` bits before a cursor stand behind the last word boundary. -/
def Cursor.tailWidth (stop : Cursor w) (n : Nat) : Nat :=
  if stop.bit = 0 then 0 else min n stop.bit

section Chunked
variable {μ : Type} (piece : μ → Chunk → Option μ) (words : μ → Nat → Nat → Option μ)

@[specialize] def onChunk (m : μ) (chunk : Chunk) : Option μ :=
  if chunk.width = 0 then some m else piece m chunk

/-- Works on `n` bits at `p`: by `piece` up to the first word boundary and behind the last one, and
by `words` on a number of whole words from an offset on. -/
@[specialize] def chunkedRun (m : μ) (p : Cursor w) (n : Nat) : Option μ := do
  let head := p.headWidth n
  let count := (n - head) / w
  let m ← onChunk piece m ⟨0, head⟩
  let m ← words m head count
  onChunk piece m ⟨head + count * w, (n - head) % w⟩

@[specialize] def chunkedRunBack (m : μ) (stop : Cursor w) (n : Nat) : Option μ := do
  let tail := stop.tailWidth n
  let rest := (n - tail) % w
  let m ← onChunk piece m ⟨n - tail, tail⟩
  let m ← words m rest ((n - tail) / w)
  onChunk piece m ⟨0, rest⟩

end Chunked

end PackedBits
