import PackedBits.Proofs.Span.Frame

/-! Every change in place, as data: how it is made on a span, beside a second one where it takes
one, and what it does to a list of bits. The two agree whatever the span is a part of, and a change
that panics has changed nothing. -/
namespace PackedBits

inductive Reply where
  | done
  | flag (value : Bool)
  | bit (value : Option Bool)
  | number (value : Nat)
  | numbers (values : List Nat)
deriving DecidableEq, Repr

inductive Change where
  | set (index : Nat) (value : Bool)
  | reset (index : Nat)
  | flip (index : Nat)
  | replace (index : Nat) (value : Bool)
  | swap (a b : Nat)
  | useRef (index : Nat) (call : BitRef.Call)
  | setAll
  | resetAll
  | flipAll
  | fillRange (bounds : Bounds) (value : Bool)
  | flipRange (bounds : Bounds)
  | combine (op : BitOp)
  | andWith
  | orWith
  | xorWith
  | andNotWith
  | shiftLeft (n : Nat)
  | shiftRight (n : Nat)
  | reverse
  | rotate (middle : Nat)
  | rotateLeft (n : Nat)
  | rotateRight (n : Nat)
  | nextPermutation
  | prevPermutation
  | copyWithin (bounds : Bounds) (target : Nat)
  | retain (keep : Nat → Bool)

section
variable {α : Type}

/-- The bits that a change leaves, beside its answer. -/
def Reply.beside (reply : α → Reply) (outcome : Query (α × List Bool)) :
    Query (Reply × List Bool) := (fun after => (reply after.1, after.2)) <$> outcome

def Change.onList (change : Change) (other bits : List Bool) : Query (Reply × List Bool) :=
  let plain (outcome : Query (Unit × List Bool)) : Query (Reply × List Bool) :=
    Reply.beside (fun _ => .done) outcome
  match change with
  | .set index value => plain (OnList.atBit index (fun _ => ((), value)) bits)
  | .reset index => plain (OnList.atBit index (fun _ => ((), false)) bits)
  | .flip index => plain (OnList.atBit index (fun bit => ((), !bit)) bits)
  | .replace index value => Reply.beside .flag (OnList.atBit index (fun bit => (bit, value)) bits)
  | .swap a b => plain (OnList.swap a b bits)
  | .useRef index call => Reply.beside .bit (OnList.atBit index call.onBit bits)
  | .setAll => plain (.ok ((), bits.map fun _ => true))
  | .resetAll => plain (.ok ((), bits.map fun _ => false))
  | .flipAll => plain (.ok ((), bits.map not))
  | .fillRange bounds value => plain (OnList.onRange bounds (fun _ => value) bits)
  | .flipRange bounds => plain (OnList.onRange bounds not bits)
  | .combine op =>
      Reply.beside .number (.ok (min bits.length other.length, OnList.combine op other bits))
  | .andWith => plain (.ok ((), OnList.andWith other bits))
  | .orWith => plain (.ok ((), OnList.combine .or other bits))
  | .xorWith => plain (.ok ((), OnList.combine .xor other bits))
  | .andNotWith => plain (.ok ((), OnList.combine .andNot other bits))
  | .shiftLeft n => plain (.ok ((), OnList.shiftLeft n bits))
  | .shiftRight n => plain (.ok ((), OnList.shiftRight n bits))
  | .reverse => plain (.ok ((), bits.reverse))
  | .rotate middle => Reply.beside .number (OnList.rotate middle bits)
  | .rotateLeft n => plain (.ok ((), OnList.turned (n % bits.length) bits))
  | .rotateRight n => plain (.ok ((), OnList.turned (bits.length - n % bits.length) bits))
  | .nextPermutation => Reply.beside .flag (.ok ((neighbour false bits).swap))
  | .prevPermutation => Reply.beside .flag (.ok ((neighbour true bits).swap))
  | .copyWithin bounds target => plain (OnList.copyWithin bounds target bits)
  | .retain keep =>
      Reply.beside .numbers (.ok (OnList.retain (fun i asked => (keep i, asked ++ [i])) 0 bits []))

end

section
variable {w : Nat} [HasBits w]

def Change.attempt (change : Change) (other : Span w) : Attempt (Span w) Reply :=
  let plain (attempt : Attempt (Span w) Unit) : Attempt (Span w) Reply :=
    (fun _ => .done) <$> attempt
  match change with
  | .set index value => plain (Span.set index value)
  | .reset index => plain (Span.reset index)
  | .flip index => plain (Span.flip index)
  | .replace index value => .flag <$> Span.replace index value
  | .swap a b => plain (Span.swap a b)
  | .useRef index call => .bit <$> (do
      let r ← Attempt.ask (·.bitRef index)
      Span.useRef fun m : Buffers w => r.call m call)
  | .setAll => plain Span.setAll
  | .resetAll => plain Span.resetAll
  | .flipAll => plain Span.flipAll
  | .fillRange bounds value => plain (Span.fillRange bounds value)
  | .flipRange bounds => plain (Span.flipRange bounds)
  | .combine op => .number <$> Span.combine other op
  | .andWith => plain (Span.andWith other)
  | .orWith => plain (Span.orWith other)
  | .xorWith => plain (Span.xorWith other)
  | .andNotWith => plain (Span.andNotWith other)
  | .shiftLeft n => plain (Span.shiftLeft n)
  | .shiftRight n => plain (Span.shiftRight n)
  | .reverse => plain Span.reverse
  | .rotate middle => .number <$> Span.rotate middle
  | .rotateLeft n => plain (Span.rotateLeft n)
  | .rotateRight n => plain (Span.rotateRight n)
  | .nextPermutation => .flag <$> Span.nextPermutation
  | .prevPermutation => .flag <$> Span.prevPermutation
  | .copyWithin bounds target => plain (Span.copyWithin bounds target)
  | .retain keep => .numbers <$> Span.retain (fun i asked => (keep i, asked ++ [i])) []

end

section
variable {w : Nat} [HasBits w] {s other : Span w}

theorem Change.attempt_does (change : Change) (held : s.Held) (heldOther : other.Held) :
    s.Does (change.attempt other) (change.onList other.toList s.toList) := by
  have length := Span.length_toList s
  have lengthOther := Span.length_toList other
  cases change with
  | set index value => exact (Span.set_does held index value).map _
  | reset index => exact (Span.set_does held index false).map _
  | flip index => exact (Span.flip_does held index).map _
  | replace index value => exact (Span.replace_does held index value).map _
  | swap a b => exact (Span.swap_does held a b).map _
  | useRef index call => exact (Span.call_does held index call).map _
  | setAll =>
      have filled := Span.fillRange_does held Bounds.all true
      rw [OnList.onRange_all] at filled
      exact filled.map _
  | resetAll =>
      have filled := Span.fillRange_does held Bounds.all false
      rw [OnList.onRange_all] at filled
      exact filled.map _
  | flipAll =>
      have flipped := Span.flipRange_does held Bounds.all
      rw [OnList.onRange_all] at flipped
      exact flipped.map _
  | fillRange bounds value => exact (Span.fillRange_does held bounds value).map _
  | flipRange bounds => exact (Span.flipRange_does held bounds).map _
  | combine op =>
      rw [onList, length, lengthOther]
      exact (Span.combine_does held heldOther op).map _
  | andWith => exact (Span.andWith_does held heldOther).map _
  | orWith => exact (Span.orWith_does held heldOther).map _
  | xorWith => exact (Span.xorWith_does held heldOther).map _
  | andNotWith => exact (Span.andNotWith_does held heldOther).map _
  | shiftLeft n => exact (Span.shiftLeft_does held n).map _
  | shiftRight n => exact (Span.shiftRight_does held n).map _
  | reverse => exact (Span.reverse_does held).map _
  | rotate middle => exact (Span.rotate_does held middle).map _
  | rotateLeft n =>
      rw [onList, length]
      exact (Span.rotateLeft_does held n).map _
  | rotateRight n =>
      rw [onList, length]
      exact (Span.rotateRight_does held n).map _
  | nextPermutation => exact (Span.nextPermutation_does held).map _
  | prevPermutation => exact (Span.prevPermutation_does held).map _
  | copyWithin bounds target => exact (Span.copyWithin_does held bounds target).map _
  | retain keep => exact (Span.retain_does _ held []).map _

theorem Change.attempt_framed (change : Change) (held : other.Held) :
    Span.Framed (change.attempt other) :=
  Span.Does.framed fun _ heldSpan => change.attempt_does heldSpan held

end

end PackedBits
