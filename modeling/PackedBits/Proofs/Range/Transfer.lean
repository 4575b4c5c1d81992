import PackedBits.Proofs.Range.Arrange
import PackedBits.Proofs.Range.Frame

/-! Runs written from other runs. Moving, exchanging and combining may be asked for runs of one
buffer, and then the order in which the words are written decides what is read. Each of them states
how its runs may lie: a copy in ascending order does not start inside its source, one in descending
order does not end inside it, two runs that are exchanged share no bit, and a combination goes to an
input itself or starts before any input that it overlaps. Then the result is the one that reading
every bit before the first is written would give, whatever the offsets in the words. -/
namespace PackedBits
variable {μ : Type} {w : Nat} [Memory μ w]

section
variable {source target stop input : Cursor w} {n : Nat}

/-- A cursor stands inside a run of `n` bits: behind its first bit and before its end. -/
abbrev Cursor.Inside (p first : Cursor w) (n : Nat) : Prop :=
  p.buffer = first.buffer ∧ first.position < p.position ∧ p.position < first.position + n

theorem Cursor.not_inside_iff {p first : Cursor w} : ¬ p.Inside first n ↔
    first.buffer ≠ p.buffer ∨ p.position ≤ first.position ∨ first.position + n ≤ p.position := by
  constructor
  · intro outside
    by_cases same : first.buffer = p.buffer
    · right
      rcases Int.lt_or_le first.position p.position with above | lower
      · right
        apply Int.not_lt.mp
        intro below
        exact outside ⟨same.symm, above, below⟩
      · exact .inl lower
    · exact .inl same
  · rintro order ⟨same, above, below⟩
    rcases order with apart | lower | higher
    · exact apart same.symm
    · exact Int.not_lt.mpr lower above
    · exact Int.not_lt.mpr higher below

theorem ascending_iff : Ascending source target n ↔ ¬ target.Inside source n :=
  Cursor.not_inside_iff.symm

theorem descending_iff : Descending source (stop - n) n ↔ ¬ stop.Inside source n := by
  rw [Cursor.not_inside_iff, Descending, Cursor.position_backward, Cursor.buffer_backward,
    Int.sub_add_cancel, ← Int.add_le_iff_le_sub, @or_comm (stop.position ≤ source.position)]

/-- How a run that is written may lie to one that is read: it is that run, shares no bit with it, or
starts before it. -/
inductive Aliasing (input target : Cursor w) (n : Nat) : Prop where
  | same (equal : target = input)
  | apart (disjoint : Apart input target n)
  | before (buffer : target.buffer = input.buffer) (lower : target.position < input.position)

theorem Aliasing.ascending (aliasing : Aliasing input target n) : Ascending input target n := by
  cases aliasing with
  | same equal => exact .inr (.inl (Int.le_of_eq (congrArg Cursor.position equal)))
  | apart disjoint =>
      rcases disjoint with buffers | higher | lower
      · exact .inl buffers
      · exact .inr (.inr higher)
      · exact .inr (.inl (Int.le_trans (Int.le_add_of_nonneg_right (Int.natCast_nonneg n)) lower))
  | before _ lower => exact .inr (.inl (Int.le_of_lt lower))

end

section
variable [LawfulMemory μ w]

/-- A forward copy to anywhere but the inside of its source moves the bits of the source as they
were, changes no others and answers with the end of the target. -/
theorem forward_copies_are_exact (m : μ) (source target : Cursor w) (n : Nat)
    (readable : Holds m source n) (writable : Holds m target n)
    (outside : ¬ target.Inside source n) :
    ∃ m', copy m source n target = some (m', target + n) ∧
      runBits m' target n = runBits m source n ∧ Altered m m' (target.Covers n) := by
  obtain ⟨m', ran, became⟩ :=
    copy_overwritten m source n target readable writable (ascending_iff.mpr outside)
  exact ⟨m', ran, became.runBits, became.altered writable⟩

/-- Two bits and thirteen moved down by three, where each byte of the target is fed by two that it
overlaps, and by eight, where bytes are moved as they are between two masked ends. -/
theorem forward_copies_are_exact_below_their_source :
    let m : Buffers 8 := ⟨#[#[0x0F#8, 0xB2#8, 0x5A#8, 0xC3#8]]⟩
    let source : Cursor 8 := ⟨0, 1, 6, by decide⟩
    let bits := [false, true, false, true, false, true, true, false, true, false, true, true, false]
    ∀ distance ∈ [3, 8], ∀ n ∈ [2, 13],
      let target := source - distance
      Holds m source n ∧ Holds m target n ∧ ¬ target.Inside source n ∧
        ∃ m', copy m source n target = some (m', target + n) ∧
          runBits m' target n = bits.take n ∧
          bit? m' 0 (target.position - 1) = bit? m 0 (target.position - 1) ∧
          bit? m' 0 (target.position + n) = bit? m 0 (target.position + n) := by
  intro m source bits
  have lie : ∀ distance ∈ [3, 8], ∀ n ∈ [2, 13], Holds m source n ∧ Holds m (source - distance) n ∧
      ¬ (source - distance).Inside source n := by decide
  have values : ∀ n ∈ [2, 13], runBits m source n = bits.take n := by decide
  intro distance moved n length target
  obtain ⟨readable, writable, outside⟩ := lie distance moved n length
  obtain ⟨m', ran, same, altered⟩ :=
    forward_copies_are_exact m source target n readable writable outside
  refine ⟨readable, writable, outside, m', ran, same.trans (values n length), ?_, ?_⟩
  · exact altered.kept 0 _ fun ⟨_, low, _⟩ => by omega
  · exact altered.kept 0 _ fun ⟨_, _, high⟩ => by omega

/-- A backward copy that ends anywhere but inside its source moves the bits of the source as they
were, changes no others and answers with the start of the target. -/
theorem backward_copies_are_exact (m : μ) (source stop : Cursor w) (n : Nat)
    (readable : Holds m source n) (writable : Holds m (stop - n) n)
    (outside : ¬ stop.Inside source n) :
    ∃ m', copyBackward m source n stop = some (m', stop - n) ∧
      runBits m' (stop - n) n = runBits m source n ∧ Altered m m' ((stop - n).Covers n) := by
  obtain ⟨m', ran, became⟩ :=
    copy_backward_overwritten m source n (stop - n) readable writable (descending_iff.mpr outside)
  rw [Cursor.backward_forward] at ran
  exact ⟨m', ran, became.runBits, became.altered writable⟩

/-- Two bits and thirteen moved up by as many, from the last byte to the first. -/
theorem backward_copies_are_exact_above_their_source :
    let m : Buffers 8 := ⟨#[#[0xB2#8, 0x5A#8, 0xC3#8, 0x0F#8]]⟩
    let source : Cursor 8 := ⟨0, 0, 6, by decide⟩
    let bits := [false, true, false, true, false, true, true, false, true, false, true, true, false]
    ∀ distance ∈ [3, 8], ∀ n ∈ [2, 13],
      let stop := source + n + distance
      Holds m source n ∧ Holds m (stop - n) n ∧ ¬ stop.Inside source n ∧
        ∃ m', copyBackward m source n stop = some (m', stop - n) ∧
          runBits m' (stop - n) n = bits.take n ∧
          bit? m' 0 ((stop - n).position - 1) = bit? m 0 ((stop - n).position - 1) ∧
          bit? m' 0 ((stop - n).position + n) = bit? m 0 ((stop - n).position + n) := by
  intro m source bits
  have lie : ∀ distance ∈ [3, 8], ∀ n ∈ [2, 13], Holds m source n ∧
      Holds m (source + n + distance - n) n ∧ ¬ (source + n + distance).Inside source n := by decide
  have values : ∀ n ∈ [2, 13], runBits m source n = bits.take n := by decide
  intro distance moved n length stop
  obtain ⟨readable, writable, outside⟩ := lie distance moved n length
  obtain ⟨m', ran, same, altered⟩ :=
    backward_copies_are_exact m source stop n readable writable outside
  refine ⟨readable, writable, outside, m', ran, same.trans (values n length), ?_, ?_⟩
  · exact altered.kept 0 _ fun ⟨_, low, _⟩ => by omega
  · exact altered.kept 0 _ fun ⟨_, _, high⟩ => by omega

end

namespace Exchanged
variable {m m₁ m₂ : μ} {p q : Cursor w} {n : Nat}

theorem bitsAt_first (exchanged : Exchanged m m₁ p q n) {i : Nat} (below : i < n) :
    bitsAt m₁ p i = bitsAt m q i := by
  rw [bitsAt, exchanged.first below, Option.getD_some]

theorem bitsAt_second (apart : Apart p q n) (exchanged : Exchanged m m₁ p q n) {i : Nat}
    (below : i < n) : bitsAt m₁ q i = bitsAt m p i := by
  rw [bitsAt, second apart exchanged below, Option.getD_some]

theorem runBits_first (exchanged : Exchanged m m₁ p q n) : runBits m₁ p n = runBits m q n := by
  apply List.map_congr_left
  intro i member
  exact exchanged.bitsAt_first (List.mem_range.mp member)

theorem runBits_second (apart : Apart p q n) (exchanged : Exchanged m m₁ p q n) :
    runBits m₁ q n = runBits m p n := by
  apply List.map_congr_left
  intro i member
  exact bitsAt_second apart exchanged (List.mem_range.mp member)

theorem restored (apart : Apart p q n) (heldP : Holds m p n) (heldQ : Holds m q n)
    (there : Exchanged m m₁ p q n) (back : Exchanged m₁ m₂ p q n) : Restored m m₂ := by
  intro buffer position
  by_cases inP : p.Covers n buffer position
  · have below : (position - p.position).toNat < n := by
      obtain ⟨-, low, high⟩ := inP
      omega
    rw [back, if_pos inP, bitsAt_second apart there below, heldP.bit_covered inP]
  · by_cases inQ : q.Covers n buffer position
    · have below : (position - q.position).toNat < n := by
        obtain ⟨-, low, high⟩ := inQ
        omega
      rw [back, if_neg inP, if_pos inQ, there.bitsAt_first below, heldQ.bit_covered inQ]
    · -- Outside of both neither exchange has written.
      rw [back, if_neg inP, if_neg inQ, there, if_neg inP, if_neg inQ]

end Exchanged

section
variable [LawfulMemory μ w]

/-- Exchanging two runs that share no bit gives each the bits of the other, changes no others and
answers with the end of the second; exchanging them again restores every bit there is. -/
theorem exchanges_swap_and_restore (m : μ) (first second : Cursor w) (n : Nat)
    (heldFirst : Holds m first n) (heldSecond : Holds m second n)
    (apart : Apart first second n) :
    ∃ m', swapRanges m first n second = some (m', second + n) ∧
      runBits m' first n = runBits m second n ∧ runBits m' second n = runBits m first n ∧
      Altered m m' (fun buffer position =>
        first.Covers n buffer position ∨ second.Covers n buffer position) ∧
      ∃ m'', swapRanges m' first n second = some (m'', second + n) ∧ Restored m m'' := by
  obtain ⟨m', ran, there⟩ := swap_ranges_exchanged m first n second heldFirst heldSecond apart
  have altered := there.altered heldFirst heldSecond
  obtain ⟨m'', ran', back⟩ := swap_ranges_exchanged m' first n second (altered.holds heldFirst)
    (altered.holds heldSecond) apart
  exact ⟨m', ran, there.runBits_first, there.runBits_second apart, altered, m'', ran',
    there.restored apart heldFirst heldSecond back⟩

/-- Two bits and eight exchanged with those that begin eight places further on, at the same bit of
the next byte, or nine, at another. Of eight bits either way, one byte holds some of both runs. -/
theorem exchanges_swap_and_restore_next_to_each_other :
    let m : Buffers 8 := ⟨#[#[0xA7#8, 0x5A#8, 0x3C#8]]⟩
    let first : Cursor 8 := ⟨0, 0, 3, by decide⟩
    let bits := [false, false, true, false, true, false, true, false, true, true, false, true,
      false, false, false, true, true]
    ∀ distance ∈ [8, 9], ∀ n ∈ [2, 8],
      let second := first + distance
      Holds m first n ∧ Holds m second n ∧ Apart first second n ∧
        ∃ m', swapRanges m first n second = some (m', second + n) ∧
          runBits m' first n = (bits.drop distance).take n ∧ runBits m' second n = bits.take n ∧
          bit? m' 0 2 = bit? m 0 2 ∧ bit? m' 0 20 = bit? m 0 20 ∧
          ∃ m'', swapRanges m' first n second = some (m'', second + n) ∧ Restored m m'' := by
  intro m first bits
  have held : ∀ distance ∈ [8, 9], ∀ n ∈ [2, 8], Holds m first n ∧ Holds m (first + distance) n ∧
      first.position + n ≤ (first + distance).position := by decide
  have values : ∀ distance ∈ [8, 9], ∀ n ∈ [2, 8], runBits m first n = bits.take n ∧
      runBits m (first + distance) n = (bits.drop distance).take n := by decide
  have outside : ∀ distance ∈ [8, 9], ∀ n ∈ [2, 8], ∀ position ∈ [2, 20],
      ¬ (first.Covers n 0 position ∨ (first + distance).Covers n 0 position) := by decide
  intro distance further n length second
  obtain ⟨heldFirst, heldSecond, above⟩ := held distance further n length
  obtain ⟨ofFirst, ofSecond⟩ := values distance further n length
  have apart : Apart first second n := .inr (.inl above)
  obtain ⟨m', ran, here, there, altered, again⟩ :=
    exchanges_swap_and_restore m first second n heldFirst heldSecond apart
  refine ⟨heldFirst, heldSecond, apart, m', ran, here.trans ofSecond, there.trans ofFirst, ?_, ?_,
    again⟩
  · exact altered.kept 0 2 (outside distance further n length 2 (by decide))
  · exact altered.kept 0 20 (outside distance further n length 20 (by decide))

end

theorem map_onBits (op : BitOp) (m : μ) (first second : Cursor w) (n : Nat) :
    (List.range n).map (fun i => op.onBits (bitsAt m first i) (bitsAt m second i)) =
      List.zipWith op.onBits (runBits m first n) (runBits m second n) := by
  rw [runBits, runBits, List.zipWith_map, List.zipWith_self]

section
variable [LawfulMemory μ w]

/-- Every bit of the target becomes the operation of the bits that the two inputs had at its place,
no others change, and the answer is the end of the target; it may be one of the inputs, or both. -/
theorem combinations_are_pointwise (m : μ) (op : BitOp) (first second target : Cursor w) (n : Nat)
    (readableFirst : Holds m first n) (readableSecond : Holds m second n)
    (writable : Holds m target n) (aliasFirst : Aliasing first target n)
    (aliasSecond : Aliasing second target n) :
    ∃ m', transform m op first n second target = some (m', target + n) ∧
      runBits m' target n = List.zipWith op.onBits (runBits m first n) (runBits m second n) ∧
      Altered m m' (target.Covers n) := by
  obtain ⟨m', ran, became⟩ := transform_overwritten m op first n second target readableFirst
    readableSecond writable aliasFirst.ascending aliasSecond.ascending
  exact ⟨m', ran, became.runBits.trans (map_onBits op m first second n), became.altered writable⟩

/-- Two bits and eleven without those that stand three places further on, read from two bytes, or
eight, at the same bit of the next byte; both in place. -/
theorem combinations_are_pointwise_over_an_input :
    let m : Buffers 8 := ⟨#[#[0xA7#8, 0x5A#8, 0x3C#8]]⟩
    let first : Cursor 8 := ⟨0, 0, 1, by decide⟩
    let bits := [true, true, false, false, true, false, true, false, true, false, true, true, false,
      true, false, false, false, true, true]
    ∀ distance ∈ [3, 8], ∀ n ∈ [2, 11],
      let second := first + distance
      Holds m first n ∧ Holds m second n ∧ Aliasing first first n ∧ Aliasing second first n ∧
        ∃ m', transform m .andNot first n second first = some (m', first + n) ∧
          runBits m' first n = List.zipWith (· && !·) (bits.take n) ((bits.drop distance).take n) ∧
          bit? m' 0 0 = bit? m 0 0 ∧ bit? m' 0 12 = bit? m 0 12 := by
  intro m first bits
  have lie : ∀ distance ∈ [3, 8], ∀ n ∈ [2, 11], Holds m first n ∧ Holds m (first + distance) n ∧
      first.position < (first + distance).position ∧ ¬ first.Covers n 0 12 := by decide
  have values : ∀ distance ∈ [3, 8], ∀ n ∈ [2, 11], runBits m first n = bits.take n ∧
      runBits m (first + distance) n = (bits.drop distance).take n := by decide
  intro distance further n length second
  obtain ⟨readableFirst, readableSecond, lower, past⟩ := lie distance further n length
  obtain ⟨ofFirst, ofSecond⟩ := values distance further n length
  have aliasFirst : Aliasing first first n := .same rfl
  have aliasSecond : Aliasing second first n := .before rfl lower
  obtain ⟨m', ran, combined, altered⟩ := combinations_are_pointwise m .andNot first second first n
    readableFirst readableSecond readableFirst aliasFirst aliasSecond
  refine ⟨readableFirst, readableSecond, aliasFirst, aliasSecond, m', ran, ?_, ?_, ?_⟩
  · rw [combined, ofFirst, ofSecond]
    rfl
  · exact altered.kept 0 0 fun ⟨_, low, _⟩ => absurd low (by decide)
  · exact altered.kept 0 12 past

end

end PackedBits
