import PackedBits.BitVector.Build
import PackedBits.FixedSet
import PackedBits.Walk.Bits

/-! Bits as text, the highest position first. Written text is digits, led by `0b` on demand; read
text may have that lead and underscores between digits. It is read twice: its characters are checked
and the digits counted, then its bytes are stored from the highest position down. A second format
uses two characters of the caller's choice and nothing else. Positions in complaints count
characters of the whole text. -/
namespace PackedBits.Text
variable {w : Nat} [HasBits w]

def write (s : Span w) (on off : Char) : Query String :=
  match TwoWayWalk.drainBack s.walk with
  | .ok bits _ => .ok (String.ofList (bits.map fun bit => if bit then on else off))
  | .error failure _ => .error failure

def writeDigits (s : Span w) (lead : Bool) : Query String := do
  let digits ← write s '1' '0'
  return if lead then "0b" ++ digits else digits

def countFrom : Nat → List Char → Except Error Nat
  | _, [] => .ok 0
  | position, char :: rest =>
      if char = '0' ∨ char = '1' then (countFrom (position + 1) rest).map (· + 1)
      else if char = '_' then countFrom (position + 1) rest
      else .error (.invalidChar char position)

/-- A text without its lead and the number of characters that the lead has. -/
def unled (text : String) : String × Nat :=
  match text.toList with
  | '0' :: 'b' :: rest => (String.ofList rest, 2)
  | _ => (text, 0)

/-- Checks a text, which is given back without its lead and with the number of its digits. -/
def scan (text : String) : Except Error (String × Nat) := do
  let (digits, skipped) := unled text
  return (digits, ← countFrom skipped digits.toList)

def storeFrom : Nat → List UInt8 → Attempt (Span w) Unit
  | _, [] => return ()
  | top, byte :: rest =>
      if byte = '1'.toUInt8 then do
        Span.set (top - 1) true
        storeFrom (top - 1) rest
      else if byte = '0'.toUInt8 then storeFrom (top - 1) rest
      else storeFrom top rest

/-- Stores a checked text into a span of clear bits that is as long as its digits are many. -/
def store (digits : String) : Attempt (Span w) Unit := do
  storeFrom (← get).len digits.toByteArray.data.toList

/-- Sets the bits for which a text of so many characters has `on`, where any other character has to
be `off`. -/
def storeWith (on off : Char) (length : Nat) : Nat → List Char → Attempt (Span w) Unit
  | _, [] => return ()
  | position, char :: rest => do
      if char = on then Span.set (length - 1 - position) true
      else if char ≠ off then Attempt.fail (.invalidChar char position)
      storeWith on off length (position + 1) rest

def parseSet {n : Nat} (text : String) : Query (FixedSet w n) :=
  match scan text with
  | .error error => .error (.error error)
  | .ok (digits, count) =>
      if count = n then FixedSet.empty.after (store digits)
      else .error (.error (.lengthMismatch n count))

variable {S : Type} [Storage S w]

def parse (text : String) : Attempt Provider S :=
  match scan text with
  | .error error => Attempt.fail error
  | .ok (digits, count) => BitVector.build do
      BitVector.tryResize count false
      inPlace (store digits)

/-- A vector read from text in two characters. The room is made before the text is looked at. -/
def parseWith (text : String) (on off : Char) : Attempt Provider S :=
  BitVector.build do
    BitVector.tryResize text.length false
    inPlace (storeWith on off text.length 0 text.toList)

end PackedBits.Text
