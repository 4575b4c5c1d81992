/-! What can go wrong. An error is an answer to the caller of an operation that may be refused; a
panic answers a call that breaks the contract of an operation that may not. Failures of either
kind leave the state as far as the operation had come, so "nothing changed" is a statement about
an operation and not a matter of course. The third kind, an access outside a memory or a release
of a block that is not held, is none an operation lets happen. -/
namespace PackedBits

inductive Error where
  | capacityExceeded (requested max : Nat)
  | allocFailed (words : Nat)
  | outOfRange (index len : Nat)
  | invalidChar (char : Char) (position : Nat)
  | lengthMismatch (expected actual : Nat)
deriving DecidableEq, Repr

def Error.message : Error → String
  | .capacityExceeded requested max =>
      s!"requested {requested} bits but the storage holds at most {max} bits"
  | .allocFailed words => s!"failed to allocate {words} words"
  | .outOfRange index len => s!"bit position {index} out of range for length {len}"
  | .invalidChar char position => s!"invalid character '{char}' at position {position} in bit string"
  | .lengthMismatch expected actual => s!"expected {expected} bits, found {actual}"

inductive Panic where
  | refused (error : Error)
  | position (index len : Nat)
  | reversedRange (start stop : Nat)
  | rangeEnd (stop len : Nat)
  | startOverflow
  | endOverflow
  | rotationPoint (middle len : Nat)
  | destination (target len : Nat)
  | unequalLengths (left right : Nat)
deriving DecidableEq, Repr

def Panic.message : Panic → String
  | .refused error => error.message
  | .position index len => s!"bit position {index} out of range for length {len}"
  | .reversedRange start stop => s!"range starts at {start} but ends at {stop}"
  | .rangeEnd stop len => s!"range end {stop} out of range for length {len}"
  | .startOverflow => "range start overflows usize"
  | .endOverflow => "range end overflows usize"
  | .rotationPoint middle len => s!"rotation point {middle} out of range for length {len}"
  | .destination target len => s!"destination {target} out of range for length {len}"
  | .unequalLengths left right =>
      "assertion `left == right` failed: swapped containers differ in length\n"
        ++ s!"  left: {left}\n right: {right}"

inductive Failure where
  | error (error : Error)
  | panic (panic : Panic)
  | wild
deriving DecidableEq, Repr

abbrev Query (α : Type) := Except Failure α

/-- An operation on a state that may fail; the state it has reached stays either way. -/
abbrev Attempt (σ α : Type) := EStateM Failure σ α

namespace Attempt
variable {σ τ α : Type}

def fail (error : Error) : Attempt σ α := throw (.error error)

def panic (panic : Panic) : Attempt σ α := throw (.panic panic)

def ask (question : σ → Query α) : Attempt σ α := fun state =>
  match question state with
  | .ok value => .ok value state
  | .error failure => .error failure state

def orPanic (attempt : Attempt σ α) : Attempt σ α := fun state =>
  match attempt state with
  | .error (.error error) state => .error (.panic (.refused error)) state
  | other => other

/-- Carries on after a refusal as if nothing had been asked. -/
def unlessRefused (attempt : Attempt σ Unit) : Attempt σ Unit := fun state =>
  match attempt state with
  | .error (.error _) state => .ok () state
  | other => other

def within (part : σ → τ) (put : σ → τ → σ) (attempt : Attempt τ α) : Attempt σ α := fun state =>
  match attempt (part state) with
  | .ok value inner => .ok value (put state inner)
  | .error failure inner => .error failure (put state inner)

end Attempt

def Query.access {α : Type} : Option α → Query α
  | some value => .ok value
  | none => .error .wild

end PackedBits
