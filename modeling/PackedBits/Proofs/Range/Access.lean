import PackedBits.Proofs.Range.Fill
import PackedBits.Proofs.Range.Search
import PackedBits.Proofs.Range.Fence

/-! Which words the operations on runs touch. A call is given its ranges, and a word is one of the
call's when it holds a bit of one of them. Behind a fence around these words every call runs as it
does without, so it has touched no others; and a call with nothing to work on runs behind a fence
that admits nothing. That the ranges may overlap makes no difference to this. -/
namespace PackedBits

inductive Call (w : Nat)
  | find (p : Cursor w) (n : Nat) (value : Bool)
  | findLast (p : Cursor w) (n : Nat) (value : Bool)
  | count (p : Cursor w) (n : Nat) (value : Bool)
  | fill (p : Cursor w) (n : Nat) (value : Bool)
  | flip (p : Cursor w) (n : Nat)
  | copy (source : Cursor w) (n : Nat) (target : Cursor w)
  | copyBackward (source : Cursor w) (n : Nat) (stop : Cursor w)
  | swapRanges (first : Cursor w) (n : Nat) (second : Cursor w)
  | transform (op : BitOp) (first : Cursor w) (n : Nat) (second target : Cursor w)
  | equal (first : Cursor w) (n : Nat) (second : Cursor w)
  | anyOf (op : BitOp) (first : Cursor w) (n : Nat) (second : Cursor w)
  | reverse (p : Cursor w) (n : Nat)
  | rotate (p : Cursor w) (left right : Nat)
  | search (p : Cursor w) (n : Nat) (q : Cursor w) (k : Nat)
  | nextPermutation (p : Cursor w) (n : Nat)
  | prevPermutation (p : Cursor w) (n : Nat)

inductive Outcome (w : Nat)
  | done
  | number (n : Nat)
  | verdict (holds : Bool)
  | stop (p : Cursor w)

namespace Call
variable {w : Nat}

/-- The ranges that a call is given, each as its first bit and its length. -/
def ranges : Call w → List (Cursor w × Nat)
  | find p n _ | findLast p n _ | count p n _ | fill p n _ | flip p n | reverse p n
  | nextPermutation p n | prevPermutation p n => [(p, n)]
  | copy first n second | swapRanges first n second | equal first n second
  | anyOf _ first n second => [(first, n), (second, n)]
  | copyBackward source n stop => [(source, n), (stop - n, n)]
  | transform _ first n second target => [(first, n), (second, n), (target, n)]
  | rotate p left right => [(p, left + right)]
  | search p n q k => [(p, n), (q, k)]

/-- A word holds a bit of one of the ranges. -/
def touches (call : Call w) (a : Address) : Bool :=
  decide (∃ range ∈ call.ranges, ∃ i < range.2, (range.1 + i).address = a)

variable {μ : Type} [Memory μ w]

def run (m : μ) : Call w → Option (μ × Outcome w)
  | find p n value => do return (m, .number (← PackedBits.find m p n value))
  | findLast p n value => do return (m, .number (← PackedBits.findLast m p n value))
  | count p n value => do return (m, .number (← PackedBits.count m p n value))
  | fill p n value => do return (← PackedBits.fill m p n value, .done)
  | flip p n => do return (← PackedBits.flip m p n, .done)
  | copy source n target => do
    let (m, stop) ← PackedBits.copy m source n target
    return (m, .stop stop)
  | copyBackward source n stop => do
    let (m, start) ← PackedBits.copyBackward m source n stop
    return (m, .stop start)
  | swapRanges first n second => do
    let (m, stop) ← PackedBits.swapRanges m first n second
    return (m, .stop stop)
  | transform op first n second target => do
    let (m, stop) ← PackedBits.transform m op first n second target
    return (m, .stop stop)
  | equal first n second => do return (m, .verdict (← PackedBits.equal m first n second))
  | anyOf op first n second => do return (m, .verdict (← PackedBits.anyOf m op first n second))
  | reverse p n => do return (← PackedBits.reverse m p n, .done)
  | rotate p left right => do
    let (m, place) ← PackedBits.rotate m p left (left + right)
    return (m, .stop place)
  | search p n q k => do return (m, .number (← PackedBits.search m p n q k))
  | nextPermutation p n => do
    let (m, stepped) ← PackedBits.nextPermutation m p n
    return (m, .verdict stepped)
  | prevPermutation p n => do
    let (m, stepped) ← PackedBits.prevPermutation m p n
    return (m, .verdict stepped)

def Held (m : μ) (call : Call w) : Prop := ∀ range ∈ call.ranges, Holds m range.1 range.2

instance (m : μ) (call : Call w) : Decidable (call.Held m) :=
  inferInstanceAs (Decidable (∀ range ∈ call.ranges, Holds m range.1 range.2))

/-- One of the ranges has no bits. -/
def Vacant (call : Call w) : Prop := ∃ range ∈ call.ranges, range.2 = 0

theorem run_carries (admits : Address → Bool) (m : μ) (call : Call w) :
    Carries (Prod.map (PackedBits.fence admits) id) (call.run (PackedBits.fence admits m))
      (call.run m) := by
  have confined := fence_confines (μ := μ) admits
  cases call with
  | find p n value => exact (find_carries confined m ..).bind fun _ => .some (m, _)
  | findLast p n value => exact (findLast_carries confined m ..).bind fun _ => .some (m, _)
  | count p n value => exact (count_carries confined m ..).bind fun _ => .some (m, _)
  | fill p n value => exact (fill_carries confined m ..).bind fun m => .some (m, _)
  | flip p n => exact (flip_carries confined m ..).bind fun m => .some (m, _)
  | copy source n target => exact (copy_carries confined m ..).bind fun (m, _) => .some (m, _)
  | copyBackward source n stop =>
      exact (copyBackward_carries confined m ..).bind fun (m, _) => .some (m, _)
  | swapRanges first n second =>
      exact (swapRanges_carries confined m ..).bind fun (m, _) => .some (m, _)
  | transform op first n second target =>
      exact (transform_carries confined m ..).bind fun (m, _) => .some (m, _)
  | equal first n second => exact (equal_carries confined m ..).bind fun _ => .some (m, _)
  | anyOf op first n second => exact (anyOf_carries confined m ..).bind fun _ => .some (m, _)
  | reverse p n => exact (reverse_carries confined m ..).bind fun m => .some (m, _)
  | rotate p left right => exact (rotate_carries confined m ..).bind fun (m, _) => .some (m, _)
  | search p n q k => exact (search_carries confined m ..).bind fun _ => .some (m, _)
  | nextPermutation p n => exact (arrange_carries confined m ..).bind fun (m, _) => .some (m, _)
  | prevPermutation p n => exact (arrange_carries confined m ..).bind fun (m, _) => .some (m, _)

theorem run_vacant (m : μ) {call : Call w} (vacant : call.Vacant) :
    ∃ outcome, call.run m = some (m, outcome) := by
  cases call with
  | find p n value =>
      obtain rfl : n = 0 := by simpa [Vacant, ranges] using vacant
      obtain ⟨found, ran, -⟩ := find_spec m p 0 value (.nil m p)
      exact ⟨.number found, by simp [run, ran]⟩
  | findLast p n value =>
      obtain rfl : n = 0 := by simpa [Vacant, ranges] using vacant
      exact ⟨.number 0, by simp [run, PackedBits.findLast]⟩
  | count p n value =>
      obtain rfl : n = 0 := by simpa [Vacant, ranges] using vacant
      exact ⟨.number 0, by simp [run, count_eq value (.nil m p)]⟩
  | fill p n value =>
      obtain rfl : n = 0 := by simpa [Vacant, ranges] using vacant
      exact ⟨.done, by simp [run, PackedBits.fill]⟩
  | flip p n =>
      obtain rfl : n = 0 := by simpa [Vacant, ranges] using vacant
      exact ⟨.done, by simp [run, PackedBits.flip]⟩
  | copy source n target =>
      obtain rfl : n = 0 := by simpa [Vacant, ranges] using vacant
      exact ⟨.stop target, by simp [run, PackedBits.copy]⟩
  | copyBackward source n stop =>
      obtain rfl : n = 0 := by simpa [Vacant, ranges] using vacant
      exact ⟨.stop stop, by simp [run, PackedBits.copyBackward]⟩
  | swapRanges first n second =>
      obtain rfl : n = 0 := by simpa [Vacant, ranges] using vacant
      exact ⟨.stop second, by simp [run, PackedBits.swapRanges]⟩
  | transform op first n second target =>
      obtain rfl : n = 0 := by simpa [Vacant, ranges] using vacant
      exact ⟨.stop target, by simp [run, PackedBits.transform]⟩
  | equal first n second =>
      obtain rfl : n = 0 := by simpa [Vacant, ranges] using vacant
      exact ⟨.verdict true, by simp [run, PackedBits.equal]⟩
  | anyOf op first n second =>
      obtain rfl : n = 0 := by simpa [Vacant, ranges] using vacant
      exact ⟨.verdict false, by simp [run, PackedBits.anyOf]⟩
  | reverse p n =>
      obtain rfl : n = 0 := by simpa [Vacant, ranges] using vacant
      exact ⟨.done, by simp [run, PackedBits.reverse]⟩
  | rotate p left right =>
      obtain ⟨rfl, rfl⟩ : left = 0 ∧ right = 0 := by simpa [Vacant, ranges] using vacant
      exact ⟨.stop (p + 0), by simp [run, PackedBits.rotate, rotateBlocks]⟩
  | search p n q k =>
      have short : k = 0 ∨ n < k := by
        have : n = 0 ∨ k = 0 := by simpa [Vacant, ranges] using vacant
        omega
      exact ⟨.number n, by simp [run, PackedBits.search, short]⟩
  | nextPermutation p n =>
      obtain rfl : n = 0 := by simpa [Vacant, ranges] using vacant
      exact ⟨.verdict false, by simp [run, PackedBits.nextPermutation, arrange]⟩
  | prevPermutation p n =>
      obtain rfl : n = 0 := by simpa [Vacant, ranges] using vacant
      exact ⟨.verdict false, by simp [run, PackedBits.prevPermutation, arrange]⟩

variable [LawfulMemory μ w]

theorem run_answers {m : μ} {call : Call w} (held : call.Held m) :
    ∃ m' outcome, call.run m = some (m', outcome) := by
  have given (p : Cursor w) (n : Nat) (range : (p, n) ∈ call.ranges) : Holds m p n := held _ range
  cases call with
  | find p n value =>
      obtain ⟨found, ran, -⟩ := find_spec m p n value (given p n (by simp [ranges]))
      exact ⟨m, .number found, by simp [run, ran]⟩
  | findLast p n value =>
      obtain ⟨found, ran, -⟩ := findLast_spec m p n value (given p n (by simp [ranges]))
      exact ⟨m, .number found, by simp [run, ran]⟩
  | count p n value =>
      have ran := count_eq value (given p n (by simp [ranges]))
      exact ⟨m, .number _, by rw [run, ran]; rfl⟩
  | fill p n value =>
      obtain ⟨m', ran, -⟩ := fill_overwritten m p n value (given p n (by simp [ranges]))
      exact ⟨m', .done, by simp [run, ran]⟩
  | flip p n =>
      obtain ⟨m', ran, -⟩ := flip_overwritten m p n (given p n (by simp [ranges]))
      exact ⟨m', .done, by simp [run, ran]⟩
  | copy source n target =>
      obtain ⟨m', ran, -⟩ := copy_altered m source n target (given source n (by simp [ranges]))
        (given target n (by simp [ranges]))
      exact ⟨m', .stop (target + n), by simp [run, ran]⟩
  | copyBackward source n stop =>
      obtain ⟨m', ran, -⟩ := copy_backward_altered m source n stop
        (given source n (by simp [ranges])) (given (stop - n) n (by simp [ranges]))
      exact ⟨m', .stop (stop - n), by simp [run, ran]⟩
  | swapRanges first n second =>
      obtain ⟨m', ran, -⟩ := swap_ranges_altered m first n second
        (given first n (by simp [ranges])) (given second n (by simp [ranges]))
      exact ⟨m', .stop (second + n), by simp [run, ran]⟩
  | transform op first n second target =>
      obtain ⟨m', ran, -⟩ := transform_altered m op first n second target
        (given first n (by simp [ranges])) (given second n (by simp [ranges]))
        (given target n (by simp [ranges]))
      exact ⟨m', .stop (target + n), by simp [run, ran]⟩
  | equal first n second =>
      have ran := equal_eq (given first n (by simp [ranges])) (given second n (by simp [ranges]))
      exact ⟨m, .verdict _, by rw [run, ran]; rfl⟩
  | anyOf op first n second =>
      have ran := anyOf_eq op (given first n (by simp [ranges])) (given second n (by simp [ranges]))
      exact ⟨m, .verdict _, by rw [run, ran]; rfl⟩
  | reverse p n =>
      obtain ⟨m', ran, -⟩ := reverse_overwritten m p n (given p n (by simp [ranges]))
      exact ⟨m', .done, by simp [run, ran]⟩
  | rotate p left right =>
      obtain ⟨m', ran, -⟩ := rotate_overwritten m p (Nat.le_add_right left right)
        (given p (left + right) (by simp [ranges]))
      exact ⟨m', .stop (p + (left + right - left)), by simp [run, ran]⟩
  | search p n q k =>
      obtain ⟨found, ran, -⟩ :=
        search_located (given p n (by simp [ranges])) (given q k (by simp [ranges]))
      exact ⟨m, .number found, by simp [run, ran]⟩
  | nextPermutation p n =>
      obtain ⟨m', -, stepped, ran, -⟩ :=
        arrange_overwritten m p n false (given p n (by simp [ranges]))
      exact ⟨m', .verdict stepped, by simp [run, PackedBits.nextPermutation, ran]⟩
  | prevPermutation p n =>
      obtain ⟨m', -, stepped, ran, -⟩ :=
        arrange_overwritten m p n true (given p n (by simp [ranges]))
      exact ⟨m', .verdict stepped, by simp [run, PackedBits.prevPermutation, ran]⟩

omit [LawfulMemory μ w] in
theorem Held.fence {m : μ} {call : Call w} (held : call.Held m) :
    call.Held (PackedBits.fence call.touches m) := fun range given =>
  (held range given).fence fun i below => decide_eq_true ⟨range, given, i, below, rfl⟩

end Call

variable {w : Nat} {μ : Type} [Memory μ w] [LawfulMemory μ w]

/-- Every word that a call loads or stores holds a bit of one of its ranges: with these words and no
others it has the outcome that it has with all of them, and leaves the same memory. Parked bits
never take more words than there are to park them in, else there would be no outcome. When a range
is empty there need not be any words. -/
theorem calls_keep_to_the_words_of_their_ranges (call : Call w) (m : μ) :
    (call.Held m → ∃ m' outcome, call.run m = some (m', outcome) ∧
      call.run (fence call.touches m) = some (fence call.touches m', outcome)) ∧
    (call.Vacant → ∃ outcome, call.run m = some (m, outcome) ∧
      call.run (fence (fun _ => false) m) = some (fence (fun _ => false) m, outcome)) := by
  constructor
  · intro held
    obtain ⟨f, outcome, ran⟩ := Call.run_answers held.fence
    obtain ⟨⟨m', _⟩, unfenced, lifted⟩ := (call.run_carries call.touches m).result _ ran
    obtain ⟨rfl, rfl⟩ := Prod.mk.inj lifted
    exact ⟨m', _, unfenced, ran⟩
  · intro vacant
    obtain ⟨outcome, ran⟩ := Call.run_vacant (fence (fun _ => false) m) vacant
    obtain ⟨⟨m', _⟩, unfenced, lifted⟩ := (call.run_carries (fun _ => false) m).result _ ran
    obtain ⟨same, rfl⟩ := Prod.mk.inj lifted
    obtain rfl : m' = m := congrArg Fenced.memory same
    exact ⟨_, unfenced, ran⟩

/-- Sources that end with a word, moved as words where they fit and shifted where they do not, and
a needle without bits that is nowhere. -/
theorem calls_keep_to_their_words_up_to_a_boundary :
    let m : Buffers 8 := ⟨#[#[0xA5#8, 0x3C#8, 0xFF#8], #[0#8, 0#8, 0#8]]⟩
    let shifted : Call 8 := .copy ⟨0, 0, 3, by decide⟩ 13 ⟨1, 0, 6, by decide⟩
    let moved : Call 8 := .copy ⟨0, 0, 3, by decide⟩ 13 ⟨1, 0, 3, by decide⟩
    let searched : Call 8 := .search ⟨0, 0, 3, by decide⟩ 13 ⟨7, 0, 0, by decide⟩ 0
    (∀ copied ∈ [shifted, moved], copied.Held m ∧ copied.touches ⟨0, 2⟩ = false ∧
      ∃ m' outcome, copied.run m = some (m', outcome) ∧
        copied.run (fence copied.touches m) = some (fence copied.touches m', outcome)) ∧
      moved.touches ⟨1, 2⟩ = false ∧
      searched.Vacant ∧ ∃ outcome, searched.run m = some (m, outcome) ∧
        searched.run (fence (fun _ => false) m) = some (fence (fun _ => false) m, outcome) := by
  intro m shifted moved searched
  have vacant : searched.Vacant := ⟨_, List.mem_cons_of_mem _ List.mem_cons_self, rfl⟩
  have held : ∀ copied ∈ [shifted, moved], copied.Held m ∧ copied.touches ⟨0, 2⟩ = false := by
    decide
  refine ⟨fun copied given => ?_, by decide, vacant,
    (calls_keep_to_the_words_of_their_ranges searched m).2 vacant⟩
  obtain ⟨readable, past⟩ := held copied given
  exact ⟨readable, past, (calls_keep_to_the_words_of_their_ranges copied m).1 readable⟩

end PackedBits
