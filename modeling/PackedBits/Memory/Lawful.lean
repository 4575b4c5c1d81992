import PackedBits.Memory
import PackedBits.Word.Lemmas

/-! Lawful memories, and what runs of bits mean in them. A lawful memory returns what was stored,
keeps everything else and accepts stores exactly where it can be loaded from. Its meaning is one
bit, or none, per position of a buffer. Main statements: a read of up to a word of bits collects
the bits at its positions, and a write replaces those and no others; both succeed as soon as
every position of the run is held, whatever else the memory holds. -/
namespace PackedBits

class LawfulMemory (μ : Type) (w : outParam Nat) [Memory μ w] : Prop where
  store_isSome (m : μ) (a : Address) (word : BitVec w) :
    (Memory.store m a word).isSome = (Memory.load m a).isSome
  load_store {m m' : μ} {a : Address} {word : BitVec w}
    (stored : Memory.store m a word = some m') (b : Address) :
    Memory.load m' b = if b = a then some word else Memory.load m b

theorem Buffers.load_modify {w : Nat} (m : Buffers w) (a b : Address) (word : BitVec w)
    (positive : 0 ≤ a.word) (found : (m.load a).isSome) :
    Buffers.load ⟨m.buffers.modify a.buffer (·.setIfInBounds a.word.toNat word)⟩ b =
      if b = a then some word else m.load b := by
  obtain ⟨ab, aw⟩ := a
  obtain ⟨bb, bw⟩ := b
  simp only [Buffers.load] at found ⊢
  simp only [Address.mk.injEq] at *
  rw [if_pos positive] at found
  by_cases inside : 0 ≤ bw
  · simp only [if_pos inside, Array.getElem?_modify]
    by_cases same : ab = bb
    · subst same
      cases held : m.buffers[ab]? with
      | none => simp [held] at found
      | some words =>
          simp [held] at found
          by_cases place : bw = aw
          · subst place; simp [found]
          · have apart : aw.toNat ≠ bw.toNat := by omega
            simp [place, apart]
    · have other : ¬ (bb = ab ∧ bw = aw) := fun h => same h.1.symm
      simp [same, other]
  · have other : ¬ (bb = ab ∧ bw = aw) := fun h => inside (h.2 ▸ positive)
    simp [if_neg inside, other]

instance {w : Nat} : LawfulMemory (Buffers w) w where
  store_isSome m a word := by
    show (Buffers.store m a word).isSome = (Buffers.load m a).isSome
    unfold Buffers.store
    split <;> simp_all
  load_store {m m' a word} stored b := by
    change Buffers.store m a word = some m' at stored
    show Buffers.load m' b = if b = a then some word else Buffers.load m b
    unfold Buffers.store at stored
    split at stored
    case isFalse => cases stored
    case isTrue found =>
        cases stored
        refine Buffers.load_modify m a b word ?_ found
        unfold Buffers.load at found
        split at found
        · assumption
        · cases found

variable {μ : Type} {w : Nat} [Memory μ w]

def bit? (m : μ) (buffer : Nat) (position : Int) : Option Bool :=
  (Memory.load m ⟨buffer, position / w⟩).map (·.getLsbD (position % w).toNat)

def Holds (m : μ) (p : Cursor w) (n : Nat) : Prop :=
  ∀ i < n, (bit? m p.buffer (p.position + i)).isSome

instance (m : μ) (p : Cursor w) (n : Nat) : Decidable (Holds m p n) :=
  inferInstanceAs (Decidable (∀ i < n, (bit? m p.buffer (p.position + i)).isSome))

abbrev Cursor.Covers (p : Cursor w) (n : Nat) (buffer : Nat) (position : Int) : Prop :=
  buffer = p.buffer ∧ p.position ≤ position ∧ position < p.position + n

/-- The `n` bits at `p` have become `new`, and nothing else has changed. -/
def Overwritten (m m' : μ) (p : Cursor w) (n : Nat) (new : Nat → Bool) : Prop :=
  ∀ buffer position, bit? m' buffer position =
    if p.Covers n buffer position then some (new (position - p.position).toNat)
    else bit? m buffer position

theorem Cursor.locate (p : Cursor w) (position : Int) :
    (position / w = p.word ↔ p.position - p.bit ≤ position ∧
      position < p.position - p.bit + w) ∧
    (position / w = p.word + 1 ↔ p.position - p.bit + w ≤ position ∧
      position < p.position - p.bit + 2 * w) ∧
    (position % w).toNat = position - position / w * w := by
  have positive : (0 : Int) < w := Int.ofNat_lt.mpr p.width_pos
  -- The width is a variable, so quotient and remainder are given to omega by hand.
  have split := Int.mul_ediv_add_emod position w
  have above := Int.emod_nonneg position (Int.ne_of_gt positive)
  have order : (w : Int) * (position / w) = position / w * w := Int.mul_comm _ _
  have first := Int.mul_comm (w : Int) p.word
  have second := Int.mul_comm (w : Int) (p.word + 1)
  rw [Int.add_mul] at second
  unfold Cursor.position
  have below := Int.emod_lt_of_pos position positive
  refine ⟨⟨?_, ?_⟩, ⟨?_, ?_⟩, by omega⟩
  · intro here
    rw [here] at split
    omega
  · rintro ⟨low, high⟩
    refine Int.le_antisymm (Int.le_of_lt_add_one ?_) ?_
    · exact Int.ediv_lt_of_lt_mul positive (by rw [Int.add_mul]; omega)
    · exact Int.le_ediv_of_mul_le positive (by omega)
  · intro here
    rw [here] at split
    omega
  · rintro ⟨low, high⟩
    refine Int.le_antisymm (Int.le_of_lt_add_one ?_) ?_
    · exact Int.ediv_lt_of_lt_mul positive (by rw [Int.add_mul, Int.add_mul]; omega)
    · exact Int.le_ediv_of_mul_le positive (by rw [Int.add_mul]; omega)

theorem Cursor.bit?_here (m : μ) (p : Cursor w) (i : Nat) (inside : p.bit + i < w) :
    bit? m p.buffer (p.position + i) = (Memory.load m p.address).map (·.getLsbD (p.bit + i)) := by
  obtain ⟨here, -, offset⟩ := p.locate (p.position + i)
  have word := here.mpr ⟨by omega, by omega⟩
  rw [word] at offset
  have bit : ((p.position + i) % w).toNat = p.bit + i := by unfold Cursor.position at *; omega
  rw [bit?, word, bit, Cursor.address]

theorem Cursor.bit?_after (m : μ) (p : Cursor w) (i : Nat) (past : w ≤ p.bit + i)
    (inside : p.bit + i < 2 * w) :
    bit? m p.buffer (p.position + i) =
      (Memory.load m p.nextAddress).map (·.getLsbD (p.bit + i - w)) := by
  obtain ⟨-, here, offset⟩ := p.locate (p.position + i)
  have word := here.mpr ⟨by omega, by omega⟩
  rw [word] at offset
  have bit : ((p.position + i) % w).toNat = p.bit + i - w := by
    unfold Cursor.position at *
    rw [Int.add_mul] at offset
    omega
  rw [bit?, word, bit, Cursor.nextAddress]

theorem Holds.load {m : μ} {p : Cursor w} {n : Nat} (held : Holds m p n) (nonempty : 0 < n)
    (small : n ≤ w) : (Memory.load m p.address).isSome ∧
      (w < p.bit + n → (Memory.load m p.nextAddress).isSome) := by
  constructor
  · have first := held 0 nonempty
    rw [p.bit?_here m 0 (by have := p.bit_lt; omega)] at first
    simpa using first
  · intro cross
    have last := held (n - 1) (by omega)
    rw [p.bit?_after m (n - 1) (by omega) (by have := p.bit_lt; omega)] at last
    simpa using last

/-- Reading up to a word of held bits succeeds, and bit `i` of the result is the bit at the `i`-th
position of the run; above them the result is clear. -/
theorem readBits_eq (m : μ) (p : Cursor w) (n : Nat) (nonempty : 0 < n) (small : n ≤ w)
    (held : Holds m p n) : ∃ word, readBits m p n = some word ∧
      ∀ i, word.getLsbD i = (decide (i < n) && (bit? m p.buffer (p.position + i)).getD false) := by
  obtain ⟨first, second⟩ := held.load nonempty small
  obtain ⟨low, isLow⟩ := Option.isSome_iff_exists.mp first
  have here := p.bit_lt
  by_cases cross : n ≤ w - p.bit
  · refine ⟨((low >>> p.bit).setWidth n).setWidth w, by simp [readBits, isLow, cross], fun i => ?_⟩
    by_cases inside : i < n
    · rw [p.bit?_here m i (by omega), isLow]
      simp [inside, show i < w by omega]
    · simp [inside]
  · obtain ⟨high, isHigh⟩ := Option.isSome_iff_exists.mp (second (by omega))
    refine ⟨(low >>> p.bit) ||| ((high.setWidth (n - (w - p.bit))).setWidth w <<< (w - p.bit)),
      by simp [readBits, isLow, isHigh, cross], fun i => ?_⟩
    rw [BitVec.getLsbD_or, BitVec.getLsbD_ushiftRight, BitVec.getLsbD_shiftLeft,
      BitVec.getLsbD_setWidth, BitVec.getLsbD_setWidth]
    -- The result joins the top of one word with the bottom of the next.
    by_cases before : p.bit + i < w
    · rw [p.bit?_here m i before, isLow]
      simp [show i < n by omega, show i < w - p.bit by omega]
    · rw [BitVec.getLsbD_of_ge low _ (by omega)]
      by_cases inside : i < n
      · rw [p.bit?_after m i (by omega) (by omega), isHigh]
        have place : i - (w - p.bit) = p.bit + i - w := by omega
        simp [inside, place, show i < w by omega, show ¬ i < w - p.bit by omega,
          show p.bit + i - w < n - (w - p.bit) by omega, show p.bit + i - w < w by omega]
      · simp [inside, show ¬ i - (w - p.bit) < n - (w - p.bit) by omega]

variable [LawfulMemory μ w]

/-- Blending replaces the selected bits of one word and holds what was held. -/
theorem blend_eq (m : μ) (a : Address) (value mask : BitVec w)
    (held : (Memory.load m a).isSome) : ∃ m', blend m a value mask = some m' ∧
      (∀ b, (Memory.load m' b).isSome = (Memory.load m b).isSome) ∧
      ∀ buffer position, bit? m' buffer position =
        if (⟨buffer, position / w⟩ : Address) = a ∧ mask.getLsbD (position % w).toNat then
          some (value.getLsbD (position % w).toNat)
        else bit? m buffer position := by
  obtain ⟨old, isOld⟩ := Option.isSome_iff_exists.mp held
  have ready := LawfulMemory.store_isSome m a ((value &&& mask) ||| (old &&& ~~~mask))
  rw [isOld] at ready
  obtain ⟨m', stored⟩ := Option.isSome_iff_exists.mp ready
  refine ⟨m', by simp [blend, isOld, stored], fun b => ?_, fun buffer position => ?_⟩
  · rw [LawfulMemory.load_store stored]
    by_cases same : b = a
    · simp [same, isOld]
    · simp [same]
  simp only [bit?, LawfulMemory.load_store stored]
  by_cases same : (⟨buffer, position / w⟩ : Address) = a
  · subst same
    generalize (position % w).toNat = place
    simp only [if_pos, isOld, Option.map_some, true_and, BitVec.getLsbD_or, BitVec.getLsbD_and,
      BitVec.getLsbD_not]
    cases mask.getLsbD place with
    | true => simp
    | false =>
        by_cases width : place < w
        · simp only [width, Bool.and_false, Bool.false_or, Bool.not_false, Bool.and_true,
            decide_true, Bool.false_eq_true, if_false]
        · simp [BitVec.getLsbD_of_ge old _ (Nat.le_of_not_lt width)]
  · simp [same]

theorem writeBits_here (m : μ) (p : Cursor w) (n : Nat) (value : BitVec w)
    (inside : n ≤ w - p.bit) (first : (Memory.load m p.address).isSome) :
    ∃ m', writeBits m p n value = some m' ∧ Overwritten m m' p n value.getLsbD := by
  have here := p.bit_lt
  have origin : p.position = p.word * w + p.bit := rfl
  obtain ⟨m', written, -, bits⟩ := blend_eq m p.address (value <<< p.bit)
    (maskRange w p.bit (p.bit + n)) first
  refine ⟨m', by simp [writeBits, inside, written], fun buffer position => ?_⟩
  rw [bits]
  obtain ⟨word, -, offset⟩ := p.locate position
  by_cases same : buffer = p.buffer ∧ position / w = p.word
  · obtain ⟨rfl, inFirst⟩ := same
    have range := word.mp inFirst
    rw [inFirst] at offset
    rw [inFirst]
    generalize (position % w).toNat = place at offset
    have shift : (position - p.position).toNat = place - p.bit := by omega
    have run : (p.position ≤ position ∧ position < p.position + n) ↔
        (p.bit ≤ place ∧ place < p.bit + n) := by omega
    have width : place < w := by omega
    simp only [Cursor.Covers, run, shift, Cursor.address, true_and, getLsbD_maskRange, width,
      decide_true, Bool.and_true, Bool.and_eq_true, decide_eq_true_eq, BitVec.getLsbD_shiftLeft]
    by_cases inside : p.bit ≤ place ∧ place < p.bit + n
    · simp [inside, show ¬ place < p.bit by omega]
    · simp [inside]
  · rw [if_neg, if_neg]
    · rintro ⟨sameBuffer, low, high⟩
      exact same ⟨sameBuffer, word.mpr ⟨by omega, by omega⟩⟩
    · rintro ⟨sameAddress, -⟩
      simp only [Cursor.address, Address.mk.injEq] at sameAddress
      exact same sameAddress

theorem writeBits_across (m : μ) (p : Cursor w) (n : Nat) (value : BitVec w) (small : n ≤ w)
    (cross : ¬ n ≤ w - p.bit) (first : (Memory.load m p.address).isSome)
    (second : (Memory.load m p.nextAddress).isSome) :
    ∃ m', writeBits m p n value = some m' ∧ Overwritten m m' p n value.getLsbD := by
  have here := p.bit_lt
  have origin : p.position = p.word * w + p.bit := rfl
  obtain ⟨m₁, written₁, keeps, bits₁⟩ := blend_eq m p.address (value <<< p.bit)
    (maskFrom w p.bit) first
  obtain ⟨m', written, -, bits⟩ := blend_eq m₁ p.nextAddress (value >>> (w - p.bit))
    (maskTo w (n - (w - p.bit))) (by rw [keeps]; exact second)
  refine ⟨m', by simp [writeBits, cross, written₁, written], fun buffer position => ?_⟩
  rw [bits, bits₁]
  obtain ⟨word, next, offset⟩ := p.locate position
  simp only [Cursor.address, Cursor.nextAddress, Address.mk.injEq]
  by_cases sameBuffer : buffer = p.buffer
  · subst sameBuffer
    -- A position is in the first word, in the next one, or in neither.
    by_cases inFirst : position / w = p.word
    · have range := word.mp inFirst
      rw [inFirst] at offset
      rw [inFirst]
      generalize (position % w).toNat = place at offset
      have shift : (position - p.position).toNat = place - p.bit := by omega
      have run : (p.position ≤ position ∧ position < p.position + n) ↔ p.bit ≤ place := by omega
      have width : place < w := by omega
      have apart : ¬ p.word = p.word + 1 := by omega
      simp only [Cursor.Covers, run, shift, true_and, getLsbD_maskFrom, width, decide_true, apart,
        false_and, if_false, Bool.and_true, decide_eq_true_eq, BitVec.getLsbD_shiftLeft]
      by_cases inside : p.bit ≤ place
      · simp [inside, show ¬ place < p.bit by omega]
      · simp [inside]
    · by_cases inNext : position / w = p.word + 1
      · have range := next.mp inNext
        rw [inNext, Int.add_mul] at offset
        rw [inNext]
        generalize (position % w).toNat = place at offset
        have shift : (position - p.position).toNat = w - p.bit + place := by omega
        have run : (p.position ≤ position ∧ position < p.position + n) ↔
            place < n - (w - p.bit) := by omega
        have width : place < w := by omega
        have apart : ¬ p.word + 1 = p.word := by omega
        simp only [Cursor.Covers, run, shift, true_and, getLsbD_maskTo, width, decide_true, apart,
          false_and, if_false, Bool.and_true, decide_eq_true_eq, BitVec.getLsbD_ushiftRight]
      · rw [if_neg (fun both => inNext both.1.2), if_neg (fun both => inFirst both.1.2), if_neg]
        rintro ⟨-, low, high⟩
        by_cases before : position < p.position - p.bit + w
        · exact inFirst (word.mpr ⟨by omega, by omega⟩)
        · exact inNext (next.mpr ⟨by omega, by omega⟩)
  · rw [if_neg (fun both => sameBuffer both.1.1), if_neg (fun both => sameBuffer both.1.1),
      if_neg (fun both => sameBuffer both.1)]

/-- Writing up to a word of bits over held ones succeeds. The bits of the run become those of the
value, whatever it has above them, and no other bit changes. -/
theorem writeBits_overwritten (m : μ) (p : Cursor w) (n : Nat) (value : BitVec w) (nonempty : 0 < n)
    (small : n ≤ w) (held : Holds m p n) :
    ∃ m', writeBits m p n value = some m' ∧ Overwritten m m' p n value.getLsbD := by
  obtain ⟨first, second⟩ := held.load nonempty small
  have here := p.bit_lt
  by_cases inside : n ≤ w - p.bit
  · exact writeBits_here m p n value inside first
  · exact writeBits_across m p n value small inside first (second (by omega))

end PackedBits
