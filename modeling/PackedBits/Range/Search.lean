import PackedBits.Range.Scan
import PackedBits.Range.Combine

/-! Searching a run of bits for another. Candidates are the positions of the needle's first bit,
checked a word at a time against the needle's leading word. When that word matches and the rest
does not, the scan advances by the smallest period of the leading word: no shorter step can bring
the word over itself again. A needle of one value throughout is searched as a run of it. -/
namespace PackedBits
variable {μ : Type} {w : Nat} [Memory μ w]

def smallestPeriod (head : BitVec w) (n : Nat) : Nat :=
  ((List.range' 1 (n - 1)).find? fun step => head >>> step == head &&& maskTo w (n - step)).getD n

/-- The first run of `k` bits equal to `value` among the `n` bits at `p`, from position `i` on. -/
@[specialize] def findRun (m : μ) (p : Cursor w) (n : Nat) (value : Bool) (k i : Nat) :
    Option Nat :=
  if i < n then do
    let start := i + (← find m (p + i) (n - i) value)
    if n - start < k then return n
    else
      let length ← find m (p + start) k (!value)
      if length = k then return start
      else findRun m p n value k (start + length + 1)
  else return n
termination_by n - i

/-- The first position from `i` on at which the needle of `k` bits at `q` occurs, where `head` is
its leading word and `stop` is one past the last position at which it fits. -/
@[specialize] def findNeedle (m : μ) (p : Cursor w) (n : Nat) (q : Cursor w) (k stop : Nat)
    (lead : Bool) (head : BitVec w) (width period i : Nat) : Option Nat :=
  if i < stop then do
    let candidate := i + (← find m (p + i) (stop - i) lead)
    if candidate = stop then return n
    else
      let word ← readBits m (p + candidate) width
      if word = head then
        let rest ← equal m (q + width) (k - width) (p + (candidate + width))
        if rest then return candidate
        else findNeedle m p n q k stop lead head width period (candidate + 1 + (period - 1))
      else findNeedle m p n q k stop lead head width period (candidate + 1)
  else return n
termination_by stop - i

/-- The first position among the `n` bits at `p` at which the `k` bits at `q` occur. The answer is
`n` when there is none, when the needle is empty, and when it is longer than the haystack. -/
@[specialize] def search (m : μ) (p : Cursor w) (n : Nat) (q : Cursor w) (k : Nat) : Option Nat :=
  if k = 0 ∨ n < k then return n
  else do
    let lead ← readBit m q
    if k = 1 then find m p n lead
    else
      let unlike ← count m q k (!lead)
      if unlike = 0 then findRun m p n lead k 0
      else
        let width := min k w
        let head ← readBits m q width
        findNeedle m p n q k (n - (k - 1)) lead head width (smallestPeriod head width) 0

end PackedBits
