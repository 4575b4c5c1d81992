import PackedBits.Proofs.Range.Arrange
import PackedBits.Proofs.Range.Compare

/-! What questions about runs of bits answer. Comparing two runs tells of all their pairs of bits at
once, and scanning one run finds the place nearest to either end that holds a value. Such an answer
is settled by the bits of the runs alone: it is the same for the same bits in another memory, at
other places of the words or in words of another width, whatever stands around them. -/
namespace PackedBits
variable {μ ν : Type} {w v : Nat} [Memory μ w] [Memory ν v]

theorem bitsAt_eq_of_runBits {m : μ} {m' : ν} {p : Cursor w} {p' : Cursor v} {n : Nat}
    (same : runBits m' p' n = runBits m p n) {i : Nat} (below : i < n) :
    bitsAt m' p' i = bitsAt m p i :=
  List.map_inj_left.mp same i (List.mem_range.mpr below)

theorem xor_onBits_eq_false {a b : Bool} : BitOp.xor.onBits a b = false ↔ a = b := by
  cases a <;> cases b <;> decide

section
variable {m : μ} {m' : ν} {first second : Cursor w} {first' second' : Cursor v} {n : Nat}

theorem equal_congr (heldFirst : Holds m first n) (heldSecond : Holds m second n)
    (heldFirst' : Holds m' first' n) (heldSecond' : Holds m' second' n)
    (sameFirst : runBits m' first' n = runBits m first n)
    (sameSecond : runBits m' second' n = runBits m second n) :
    equal m' first' n second' = equal m first n second := by
  rw [equal_eq heldFirst' heldSecond', equal_eq heldFirst heldSecond]
  refine congrArg some (decide_eq_decide.mpr (forall₂_congr fun i below => ?_))
  rw [bitsAt_eq_of_runBits sameFirst below, bitsAt_eq_of_runBits sameSecond below]

theorem anyOf_congr (op : BitOp) (heldFirst : Holds m first n) (heldSecond : Holds m second n)
    (heldFirst' : Holds m' first' n) (heldSecond' : Holds m' second' n)
    (sameFirst : runBits m' first' n = runBits m first n)
    (sameSecond : runBits m' second' n = runBits m second n) :
    anyOf m' op first' n second' = anyOf m op first n second := by
  rw [anyOf_eq op heldFirst' heldSecond', anyOf_eq op heldFirst heldSecond]
  refine congrArg some (decide_eq_decide.mpr ?_)
  refine exists_congr fun i => and_congr_right fun below => ?_
  rw [bitsAt_eq_of_runBits sameFirst below, bitsAt_eq_of_runBits sameSecond below]

theorem equal_eq_not_anyOf_xor (heldFirst : Holds m first n) (heldSecond : Holds m second n) :
    equal m first n second = (anyOf m .xor first n second).map (!·) := by
  rw [equal_eq heldFirst heldSecond, anyOf_eq .xor heldFirst heldSecond, Option.map_some,
    ← decide_not]
  refine congrArg some (decide_eq_decide.mpr ?_)
  rw [not_exists]
  refine forall_congr' fun i => ?_
  rw [not_and, Bool.not_eq_true, xor_onBits_eq_false]

end

/-- Two runs, however they lie, are equal exactly if they agree at every place, and an operation
yields a set bit on some pair exactly if the test for it says so. Nothing but the bits of the two
runs counts. -/
theorem comparisons_decide_pairs (m : μ) (first second : Cursor w) (n : Nat)
    (heldFirst : Holds m first n) (heldSecond : Holds m second n) :
    equal m first n second = some (decide (∀ i < n, bitsAt m first i = bitsAt m second i)) ∧
    (∀ op : BitOp, anyOf m op first n second =
      some (decide (∃ i < n, op.onBits (bitsAt m first i) (bitsAt m second i) = true))) ∧
    equal m first n second = (anyOf m .xor first n second).map (!·) ∧
    ∀ {ν : Type} {v : Nat} [Memory ν v] (m' : ν) (first' second' : Cursor v),
      Holds m' first' n → Holds m' second' n →
      runBits m' first' n = runBits m first n → runBits m' second' n = runBits m second n →
      equal m' first' n second' = equal m first n second ∧
        ∀ op : BitOp, anyOf m' op first' n second' = anyOf m op first n second := by
  refine ⟨equal_eq heldFirst heldSecond, fun op => anyOf_eq op heldFirst heldSecond,
    equal_eq_not_anyOf_xor heldFirst heldSecond, ?_⟩
  intro ν v _ m' first' second' heldFirst' heldSecond' sameFirst sameSecond
  exact ⟨equal_congr heldFirst heldSecond heldFirst' heldSecond' sameFirst sameSecond, fun op =>
    anyOf_congr op heldFirst heldSecond heldFirst' heldSecond' sameFirst sameSecond⟩

/-- Twelve bits and those four places on, which overlap them and are the same; one place further the
two runs part. The same twelve bits twice in wider words, in the same place of two of them that have
nothing else in common. -/
theorem comparisons_decide_pairs_that_overlap :
    let m : Buffers 8 := ⟨#[#[0x9D#8, 0x99#8, 0x51#8]]⟩
    let first : Cursor 8 := ⟨0, 0, 3, by decide⟩
    let second : Cursor 8 := ⟨0, 0, 7, by decide⟩
    let m' : Buffers 16 := ⟨#[#[0x0CCC#16], #[0xCCCF#16]]⟩
    let first' : Cursor 16 := ⟨0, 0, 2, by decide⟩
    let second' : Cursor 16 := ⟨1, 0, 2, by decide⟩
    (Holds m first 13 ∧ Holds m second 13 ∧ equal m first 13 second = some false ∧
      anyOf m .andNot first 13 second = some true) ∧
    Holds m first 12 ∧ Holds m second 12 ∧ equal m first 12 second = some true ∧
      anyOf m .xor first 12 second = some false ∧
      Holds m' first' 12 ∧ Holds m' second' 12 ∧ equal m' first' 12 second' = some true := by
  intro m first second m' first' second'
  have longFirst : Holds m first 13 := by decide
  have longSecond : Holds m second 13 := by decide
  have heldFirst : Holds m first 12 := by decide
  have heldSecond : Holds m second 12 := by decide
  have heldFirst' : Holds m' first' 12 := by decide
  have heldSecond' : Holds m' second' 12 := by decide
  obtain ⟨unlike, stray, -⟩ := comparisons_decide_pairs m first second 13 longFirst longSecond
  obtain ⟨alike, none, -, elsewhere⟩ :=
    comparisons_decide_pairs m first second 12 heldFirst heldSecond
  have true_here : equal m first 12 second = some true := alike.trans (by decide)
  have same := elsewhere m' first' second' heldFirst' heldSecond' (by decide) (by decide)
  exact ⟨⟨longFirst, longSecond, unlike.trans (by decide), (stray .andNot).trans (by decide)⟩,
    heldFirst, heldSecond, true_here, (none .xor).trans (by decide), heldFirst', heldSecond',
    same.1.trans true_here⟩

theorem not_eq_of_eq_not {a b value : Bool} (clear : a = !value) (set : b = value) : a ≠ b := by
  rw [clear, set]
  cases value <;> decide

section
variable {bits bits' : Nat → Bool} {value : Bool} {n found found' : Nat}

theorem First.congr (first : First bits value n found) (same : ∀ i < n, bits' i = bits i) :
    First bits' value n found where
  within := first.within
  before i below := (same i (Nat.lt_of_lt_of_le below first.within)).trans (first.before i below)
  hit below := (same found below).trans (first.hit below)

theorem Last.congr (last : Last bits value n found) (same : ∀ i < n, bits' i = bits i) :
    Last bits' value n found where
  within := last.within
  hit below := (same found below).trans (last.hit below)
  after i above below := (same i below).trans (last.after i above below)
  none ended i below := (same i below).trans (last.none ended i below)

theorem First.le (first : First bits value n found) {i : Nat} (holds : bits i = value) :
    found ≤ i := by
  apply Nat.le_of_not_lt
  intro early
  exact not_eq_of_eq_not (first.before i early) holds rfl

theorem Last.ge (last : Last bits value n found) {i : Nat} (below : i < n)
    (holds : bits i = value) : i ≤ found ∧ found < n := by
  constructor
  · apply Nat.le_of_not_lt
    intro late
    exact not_eq_of_eq_not (last.after i late below) holds rfl
  · apply Nat.lt_of_le_of_ne last.within
    intro ended
    exact not_eq_of_eq_not (last.none ended i below) holds rfl

theorem First.ne_iff (first : First bits value n found) :
    found ≠ n ↔ ∃ i < n, bits i = value := by
  constructor
  · intro apart
    have below : found < n := Nat.lt_of_le_of_ne first.within apart
    exact ⟨found, below, first.hit below⟩
  · rintro ⟨i, below, holds⟩
    exact Nat.ne_of_lt (Nat.lt_of_le_of_lt (first.le holds) below)

theorem Last.ne_iff (last : Last bits value n found) :
    found ≠ n ↔ ∃ i < n, bits i = value := by
  constructor
  · intro apart
    have below : found < n := Nat.lt_of_le_of_ne last.within apart
    exact ⟨found, below, last.hit below⟩
  · rintro ⟨i, below, holds⟩
    exact Nat.ne_of_lt (last.ge below holds).2

theorem First.unique (first : First bits value n found) (first' : First bits value n found') :
    found = found' := by
  rcases Nat.lt_trichotomy found found' with early | same | late
  · have below := Nat.lt_of_lt_of_le early first'.within
    exact absurd (first'.le (first.hit below)) (Nat.not_le_of_lt early)
  · exact same
  · have below := Nat.lt_of_lt_of_le late first.within
    exact absurd (first.le (first'.hit below)) (Nat.not_le_of_lt late)

theorem Last.unique (last : Last bits value n found) (last' : Last bits value n found') :
    found = found' := by
  by_cases exist : ∃ i < n, bits i = value
  · have below := Nat.lt_of_le_of_ne last.within (last.ne_iff.mpr exist)
    have below' := Nat.lt_of_le_of_ne last'.within (last'.ne_iff.mpr exist)
    exact Nat.le_antisymm (last'.ge below (last.hit below)).1 (last.ge below' (last'.hit below')).1
  · have ended := Decidable.not_not.mp fun apart => exist (last.ne_iff.mp apart)
    have ended' := Decidable.not_not.mp fun apart => exist (last'.ne_iff.mp apart)
    rw [ended, ended']

end

/-- Scanning from the front finds the least place of a run that holds the value, scanning from the
back the greatest one, and both answer with the length of the run exactly if there is none. Nothing
but the bits of the run counts. -/
theorem scans_find_the_outermost_places (m : μ) (p : Cursor w) (n : Nat) (value : Bool)
    (held : Holds m p n) :
    ∃ least greatest, find m p n value = some least ∧ findLast m p n value = some greatest ∧
      First (bitsAt m p) value n least ∧ Last (bitsAt m p) value n greatest ∧
      (least ≠ n ↔ ∃ i < n, bitsAt m p i = value) ∧
      (greatest ≠ n ↔ ∃ i < n, bitsAt m p i = value) ∧
      ∀ {ν : Type} {v : Nat} [Memory ν v] (m' : ν) (p' : Cursor v), Holds m' p' n →
        runBits m' p' n = runBits m p n →
        find m' p' n value = some least ∧ findLast m' p' n value = some greatest := by
  obtain ⟨least, found, first⟩ := find_spec m p n value held
  obtain ⟨greatest, foundLast, last⟩ := findLast_spec m p n value held
  refine ⟨least, greatest, found, foundLast, first, last, first.ne_iff, last.ne_iff, ?_⟩
  intro ν v _ m' p' held' same
  obtain ⟨least', found', first'⟩ := find_spec m' p' n value held'
  obtain ⟨greatest', foundLast', last'⟩ := findLast_spec m' p' n value held'
  have bits (i : Nat) (below : i < n) : bitsAt m' p' i = bitsAt m p i :=
    bitsAt_eq_of_runBits same below
  rw [found', foundLast', first'.unique (first.congr bits), last'.unique (last.congr bits)]
  exact ⟨rfl, rfl⟩

/-- Forty-two bits over six bytes, set only at the end of the first byte and at the start of the
last one; set bits stand right before the run and right behind it. -/
theorem scans_find_the_outermost_places_at_boundaries :
    let m : Buffers 8 := ⟨#[#[0x84#8, 0x00#8, 0x00#8, 0x00#8, 0x00#8, 0x21#8]]⟩
    let p : Cursor 8 := ⟨0, 0, 3, by decide⟩
    Holds m p 42 ∧ find m p 42 true = some 4 ∧ findLast m p 42 true = some 37 ∧
      Holds m p 4 ∧ find m p 4 true = some 4 ∧ findLast m p 4 true = some 4 := by
  intro m p
  have held : Holds m p 42 := by decide
  have short : Holds m p 4 := by decide
  have first : First (bitsAt m p) true 42 4 := ⟨by decide, by decide, by decide⟩
  have behind : ∀ i < 42, 37 < i → bitsAt m p i = !true := by decide
  have last : Last (bitsAt m p) true 42 37 :=
    ⟨by decide, by decide, fun i above below => behind i below above, by decide⟩
  obtain ⟨least, greatest, found, foundLast, isFirst, isLast, -⟩ :=
    scans_find_the_outermost_places m p 42 true held
  obtain ⟨least', greatest', found', foundLast', -, -, some, some', -⟩ :=
    scans_find_the_outermost_places m p 4 true short
  have clear : ¬ ∃ i < 4, bitsAt m p i = true := by decide
  obtain rfl := isFirst.unique first
  obtain rfl := isLast.unique last
  obtain rfl : least' = 4 := Decidable.not_not.mp fun apart => clear (some.mp apart)
  obtain rfl : greatest' = 4 := Decidable.not_not.mp fun apart => clear (some'.mp apart)
  exact ⟨held, found, foundLast, short, found', foundLast'⟩

end PackedBits
