import PackedBits.Proofs.Range.Arrange
import PackedBits.Proofs.Range.Fence

/-! Runs of up to a word of bits as a lens into a memory. Reading takes the bits at the positions of a
run and writing replaces them and no others, so what was written is read again, what was read can be
written back without a change, and of two writes the last one counts. Both need the word in which
the run begins, and the next one exactly when the run goes past its end: that they need a word is
told by a fence that does not admit it. -/
namespace PackedBits
variable {μ : Type} {w : Nat} [Memory μ w]

section
variable {m m₁ m₂ : μ} {p : Cursor w} {n : Nat} {first second : Nat → Bool}

theorem Overwritten.again (before : Overwritten m m₁ p n first)
    (after : Overwritten m₁ m₂ p n second) : Overwritten m m₂ p n second := by
  intro buffer position
  rw [after]
  split
  case isTrue => rfl
  case isFalse outside => rw [before, if_neg outside]

theorem Overwritten.restored (written : Overwritten m m₁ p n (PackedBits.bitsAt m p))
    (held : Holds m p n) : Restored m m₁ := by
  intro buffer position
  rw [written]
  exact (Overwritten.self held buffer position).symm

theorem readBits_written {value : BitVec w} (nonempty : 0 < n) (small : n ≤ w)
    (held : Holds m p n) (written : Overwritten m m₁ p n value.getLsbD) :
    readBits m₁ p n = some (value &&& maskTo w n) := by
  obtain ⟨word, read, bits⟩ := readBits_eq m₁ p n nonempty small ((written.altered held).holds held)
  suffices same : word = value &&& maskTo w n by rw [read, same]
  refine BitVec.eq_of_getLsbD_eq fun i below => ?_
  rw [bits, BitVec.getLsbD_and, getLsbD_maskTo, decide_eq_true below, Bool.and_true, Bool.and_comm]
  by_cases inside : i < n
  · exact congrArg (· && _) (written.bitsAt inside)
  · simp [inside]

end

/-- The word in which a run begins is held, and the next one if the run goes past its end. -/
def Provided (m : μ) (p : Cursor w) (n : Nat) : Prop :=
  (Memory.load m p.address).isSome ∧ (w < p.bit + n → (Memory.load m p.nextAddress).isSome)

theorem readBits_isSome (m : μ) (p : Cursor w) (n : Nat) :
    (readBits m p n).isSome ↔ Provided m p n := by
  have here := p.bit_lt
  unfold Provided
  cases low : Memory.load m p.address with
  | none => simp [readBits, low]
  | some word =>
      by_cases inside : n ≤ w - p.bit
      · simp [readBits, low, inside, show ¬ w < p.bit + n by omega]
      · cases high : Memory.load m p.nextAddress <;>
          simp [readBits, low, high, inside, show w < p.bit + n by omega]

theorem Holds.provided_fence {m : μ} {p : Cursor w} {n : Nat} (held : Holds m p n)
    (nonempty : 0 < n) (small : n ≤ w) (admits : Address → Bool) :
    Provided (PackedBits.fence admits m) p n ↔
      admits p.address ∧ (w < p.bit + n → admits p.nextAddress) := by
  obtain ⟨first, second⟩ := held.load nonempty small
  have admitted {a : Address} (found : (Memory.load m a).isSome) :
      (Memory.load (PackedBits.fence admits m) a).isSome ↔ admits a := by
    rw [load_fence]
    split <;> simp_all
  rw [Provided, admitted first]
  exact and_congr_right fun _ => forall_congr' fun cross => admitted (second cross)

variable [LawfulMemory μ w]

theorem blend_isSome (m : μ) (a : Address) (value mask : BitVec w) :
    (blend m a value mask).isSome = (Memory.load m a).isSome := by
  cases held : Memory.load m a with
  | none => simp [blend, held]
  | some old => simp [blend, held, LawfulMemory.store_isSome]

theorem writeBits_isSome (m : μ) (p : Cursor w) (n : Nat) (value : BitVec w) :
    (writeBits m p n value).isSome ↔ Provided m p n := by
  have here := p.bit_lt
  unfold Provided
  by_cases inside : n ≤ w - p.bit
  · simp [writeBits, inside, blend_isSome, show ¬ w < p.bit + n by omega]
  · have cross : w < p.bit + n := by omega
    cases low : Memory.load m p.address with
    | none => simp [writeBits, inside, blend, low]
    | some word =>
        -- The first blend keeps the next word, so the second one finds it if it was there.
        obtain ⟨m₁, written, keeps, -⟩ := blend_eq m p.address (value <<< p.bit)
          (maskFrom w p.bit) (Option.isSome_of_eq_some low)
        simp [writeBits, inside, written, blend_isSome, keeps, cross]

/-- Reading `n` bits at a cursor gives the word with the bits of the run below `n` and none above. After
writing a word there the run has the low `n` bits of it, whatever the word has above them, and every
other bit is as before. So what was written is read again, writing back what was read changes
nothing, and of two writes the last one counts. Behind a fence both have a result exactly where it
admits the word of the cursor and, if the offset in the word and `n` come to more than the width,
the word after it. -/
theorem bits_of_a_run_are_a_lens (m : μ) (p : Cursor w) (n : Nat) (nonempty : 0 < n)
    (small : n ≤ w) (held : Holds m p n) :
    (∃ word, readBits m p n = some word ∧
      (∀ i, word.getLsbD i = (decide (i < n) && bitsAt m p i)) ∧
      ∃ m', writeBits m p n word = some m' ∧ Restored m m') ∧
    (∀ value, ∃ m', writeBits m p n value = some m' ∧ Overwritten m m' p n value.getLsbD ∧
      readBits m' p n = some (value &&& maskTo w n) ∧
      ∀ last, ∃ m'', writeBits m' p n last = some m'' ∧ Overwritten m m'' p n last.getLsbD) ∧
    ∀ admits : Address → Bool,
      ((readBits (fence admits m) p n).isSome ↔
        admits p.address ∧ (w < p.bit + n → admits p.nextAddress)) ∧
      ∀ value, (writeBits (fence admits m) p n value).isSome ↔
        admits p.address ∧ (w < p.bit + n → admits p.nextAddress) := by
  refine ⟨?_, fun value => ?_, fun admits => ?_⟩
  · obtain ⟨word, read, bits⟩ := readBits_eq m p n nonempty small held
    obtain ⟨m', ran, written⟩ := writeBits_overwritten m p n word nonempty small held
    have own : Overwritten m m' p n (bitsAt m p) := written.congr fun i below => by
      rw [bits, decide_eq_true below, Bool.true_and]
      rfl
    exact ⟨word, read, bits, m', ran, own.restored held⟩
  · obtain ⟨m', ran, written⟩ := writeBits_overwritten m p n value nonempty small held
    refine ⟨m', ran, written, readBits_written nonempty small held written, fun last => ?_⟩
    have still : Holds m' p n := (written.altered held).holds held
    obtain ⟨m'', again, overwritten⟩ := writeBits_overwritten m' p n last nonempty small still
    exact ⟨m'', again, written.again overwritten⟩
  · have words := held.provided_fence nonempty small admits
    exact ⟨(readBits_isSome _ p n).trans words, fun value => (writeBits_isSome _ p n value).trans words⟩

/-- A whole word of bits over the end of a byte, five of its bits below the end and three above. -/
theorem bits_of_a_run_are_a_lens_over_a_boundary :
    let m : Buffers 8 := ⟨#[#[0xA7#8, 0x5A#8, 0x3C#8]]⟩
    let p : Cursor 8 := ⟨0, 0, 3, by decide⟩
    0 < 8 ∧ Holds m p 8 ∧ readBits m p 8 = some 0x54#8 ∧
      (∃ m', writeBits m p 8 0x54#8 = some m' ∧ Restored m m') ∧
      (∃ m', writeBits m p 8 0x93#8 = some m' ∧ readBits m' p 8 = some 0x93#8 ∧
        bit? m' 0 2 = bit? m 0 2 ∧ bit? m' 0 11 = bit? m 0 11) ∧
      (readBits (fence (fun a => a = ⟨0, 0⟩) m) p 8).isSome = false := by
  intro m p
  have held : Holds m p 8 := by decide
  obtain ⟨⟨word, read, -, back⟩, writes, footprint⟩ :=
    bits_of_a_run_are_a_lens m p 8 (by decide) (by decide) held
  have value : readBits m p 8 = some 0x54#8 := by decide
  obtain rfl : word = 0x54#8 := Option.some.inj (read.symm.trans value)
  obtain ⟨m', ran, written, again, -⟩ := writes 0x93#8
  have kept := (written.altered held).kept
  refine ⟨by decide, held, value, back, ⟨m', ran, again, ?_, ?_⟩, ?_⟩
  · exact kept 0 2 (by decide)
  · exact kept 0 11 (by decide)
  · have needs := (footprint fun a => decide (a = ⟨0, 0⟩)).1
    rw [Bool.eq_false_iff]
    exact fun found => absurd ((needs.mp found).2 (by decide)) (by decide)

end PackedBits
