import PackedBits.Chunk
import PackedBits.Failure

/-! Spans. A span is `len` bits from bit `start` of an array of words, the shape every container
takes when its bits are worked on. A container says which span holds its bits and takes the words
back afterwards; all reading and writing in place is defined once, on spans. -/
namespace PackedBits

structure Span (w : Nat) where
  words : Array (BitVec w)
  start : Nat
  len : Nat
deriving DecidableEq, Repr

class Container (γ : Type) (w : outParam Nat) where
  span : γ → Span w
  putWords : γ → Array (BitVec w) → γ

def inPlace {γ α : Type} {w : Nat} [Container γ w] (attempt : Attempt (Span w) α) : Attempt γ α :=
  attempt.within Container.span fun container span => Container.putWords container span.words

namespace Span
variable {w : Nat} [HasBits w] {α : Type}

instance : Container (Span w) w := ⟨id, fun span words => { span with words := words }⟩

/-- `len` clear bits from the first bit of words of their own. -/
def zeroed (len : Nat) : Span w := ⟨Array.replicate (wordsFor w len) 0#w, 0, len⟩

def isEmpty (s : Span w) : Bool := s.len == 0

def firstIn (s : Span w) (buffer : Nat) : Cursor w := Cursor.ofPosition buffer s.start

def first (s : Span w) : Cursor w := s.firstIn 0

def stop (s : Span w) : Cursor w := s.first + s.len

def buffers (s : Span w) : Buffers w := ⟨#[s.words]⟩

def read (s : Span w) (action : Buffers w → Option α) : Query α := .access (action s.buffers)

def readBoth (s other : Span w) (action : Buffers w → Cursor w → Cursor w → Option α) : Query α :=
  .access (action ⟨#[s.words, other.words]⟩ (s.firstIn 0) (other.firstIn 1))

def write (action : Buffers w → Option (Buffers w × α)) : Attempt (Span w) α := fun s =>
  match action s.buffers with
  | some (m, value) => .ok value { s with words := m.words 0 }
  | none => .error .wild s

def writeBeside (other : Span w)
    (action : Buffers w → Cursor w → Cursor w → Option (Buffers w × α)) : Attempt (Span w) α :=
  fun s =>
    match action ⟨#[s.words, other.words]⟩ (s.firstIn 0) (other.firstIn 1) with
    | some (m, value) => .ok value { s with words := m.words 0 }
    | none => .error .wild s

def writeBoth (action : Buffers w → Cursor w → Cursor w → Option (Buffers w × α)) :
    Attempt (Span w × Span w) α := fun (s, other) =>
  match action ⟨#[s.words, other.words]⟩ (s.firstIn 0) (other.firstIn 1) with
  | some (m, value) => .ok value ({ s with words := m.words 0 }, { other with words := m.words 1 })
  | none => .error .wild (s, other)

def checkIndex (s : Span w) (index : Nat) : Query Unit :=
  if index < s.len then .ok () else .error (.panic (.position index s.len))

end Span

end PackedBits
