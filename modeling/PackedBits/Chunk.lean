import PackedBits.Memory

/-! Chunks. A run of bits is cut at the word boundaries of one cursor, so that every chunk lies in
a single word there and can be handled as one. A sweep passes a state from chunk to chunk, a seek
stops at the first chunk that has an answer, and neither cuts a chunk before its turn. -/
namespace PackedBits

structure Chunk where
  offset : Nat
  width : Nat
deriving DecidableEq, Repr

namespace Cursor
variable {w : Nat} {σ α : Type}

/-- The chunk of `n` bits at a cursor that begins at `offset`. It ends with its word or with the
run. -/
def chunkFrom (p : Cursor w) (n offset : Nat) : Chunk :=
  ⟨offset, min (n - offset) (w - (p.bit + offset) % w)⟩

/-- The chunk of the first `stop` bits at a cursor that ends there. It begins with its word or with
the run. -/
def chunkBefore (p : Cursor w) (stop : Nat) : Chunk :=
  let width := min stop ((p.bit + (stop - 1)) % w + 1)
  ⟨stop - width, width⟩

theorem chunkFrom_width_pos (p : Cursor w) {n offset : Nat} (more : offset < n) :
    0 < (p.chunkFrom n offset).width := by
  have := Nat.mod_lt (p.bit + offset) p.width_pos
  simp only [chunkFrom]
  omega

theorem chunkBefore_offset_lt (p : Cursor w) {stop : Nat} (more : 0 < stop) :
    (p.chunkBefore stop).offset < stop := by
  simp only [chunkBefore]
  omega

@[specialize] def sweepFrom (p : Cursor w) (n : Nat) (step : σ → Chunk → Option σ) (offset : Nat)
    (state : σ) : Option σ :=
  if offset < n then do
    let chunk := p.chunkFrom n offset
    sweepFrom p n step (offset + chunk.width) (← step state chunk)
  else some state
termination_by n - offset
decreasing_by have := p.chunkFrom_width_pos ‹offset < n›; omega

@[specialize] def sweep (p : Cursor w) (n : Nat) (step : σ → Chunk → Option σ) (state : σ) :
    Option σ :=
  sweepFrom p n step 0 state

@[specialize] def seekFrom (p : Cursor w) (n : Nat) (visit : Chunk → Option (Option α))
    (offset : Nat) : Option (Option α) :=
  if offset < n then do
    let chunk := p.chunkFrom n offset
    match ← visit chunk with
    | some answer => return some answer
    | none => seekFrom p n visit (offset + chunk.width)
  else some none
termination_by n - offset
decreasing_by have := p.chunkFrom_width_pos ‹offset < n›; omega

@[specialize] def seek (p : Cursor w) (n : Nat) (visit : Chunk → Option (Option α)) :
    Option (Option α) :=
  seekFrom p n visit 0

@[specialize] def seekBack (p : Cursor w) (stop : Nat) (visit : Chunk → Option (Option α)) :
    Option (Option α) :=
  if 0 < stop then do
    let chunk := p.chunkBefore stop
    match ← visit chunk with
    | some answer => return some answer
    | none => seekBack p chunk.offset visit
  else some none
termination_by stop
decreasing_by exact p.chunkBefore_offset_lt ‹0 < stop›

end Cursor

end PackedBits
