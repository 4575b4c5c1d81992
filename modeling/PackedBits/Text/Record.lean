import PackedBits.Text.Digits
import PackedBits.View
import PackedBits.Storage.Plain
import PackedBits.Storage.SmallBuffer
import PackedBits.Storage.Tagged

/-! Containers described as records for a reader: on one line, or spread over several with one
field on each. -/
namespace PackedBits.Text

def record (spread : Bool) (name : String) (fields : List (String × String)) : String :=
  if spread then
    let lines := fields.map fun (field, value) => "    " ++ field ++ ": " ++ value ++ ",\n"
    name ++ " \x7b\n" ++ String.join lines ++ "\x7d"
  else
    let entries := fields.map fun (field, value) => field ++ ": " ++ value
    name ++ " \x7b " ++ ", ".intercalate entries ++ " \x7d"

def wordList {w : Nat} (words : Array (BitVec w)) : String :=
  "[" ++ ", ".intercalate (words.toList.map fun word => toString word.toNat) ++ "]"

section
variable {w : Nat} [HasBits w]

def describeBits (spread : Bool) (name : String) (s : Span w) : Query String := do
  return record spread name [("len", toString s.len), ("bits", ← writeDigits s false)]

def describeVector (spread : Bool) (s : Span w) : Query String := describeBits spread "BitVec" s

def describeView (spread : Bool) (view : View w) : Query String :=
  describeBits spread "BitView" (Container.span view)

def describeSet {n : Nat} (set : FixedSet w n) : Query String := do
  return "BitSet<" ++ toString n ++ ">(" ++ (← writeDigits (Container.span set) false) ++ ")"

end

class Described (S : Type) where
  describe : S → String

instance {w : Nat} : Described (Plain w) where
  describe s := record false "PlainStorage"
    [("len", toString s.len), ("cap", toString s.capacity), ("words", wordList s.liveWords)]

instance : Described SmallBuffer where
  describe s := record false "SboStorage"
    [("heap", toString s.onHeap), ("len", toString s.len), ("words", wordList s.words)]

instance : Described Tagged where
  describe s := record false "TaggedStorage"
    [("heap", toString s.onHeap), ("len", toString s.len), ("words", wordList s.words)]

end PackedBits.Text
