import PackedBits.Memory.Lawful
import PackedBits.Cursor.Lemmas

/-! What a change of memory did. An overwrite says which bits a run holds now and that all others
are as they were; an alteration says only which bits may differ. Overwrites of neighbouring runs
join into one, whichever came first, and alterations compose. -/
namespace PackedBits

variable {μ : Type} {w : Nat} [Memory μ w]

/-- Nothing outside `inside` has changed, and no position was gained or lost. -/
structure Altered (m m' : μ) (inside : Nat → Int → Prop) : Prop where
  held : ∀ buffer position, (bit? m' buffer position).isSome = (bit? m buffer position).isSome
  kept : ∀ buffer position, ¬ inside buffer position →
    bit? m' buffer position = bit? m buffer position

namespace Altered
variable {m m₁ m₂ : μ} {inside wider : Nat → Int → Prop}

theorem refl (m : μ) (inside : Nat → Int → Prop) : Altered m m inside :=
  ⟨fun _ _ => rfl, fun _ _ _ => rfl⟩

theorem trans (first : Altered m m₁ inside) (second : Altered m₁ m₂ inside) :
    Altered m m₂ inside where
  held buffer position := (second.held buffer position).trans (first.held buffer position)
  kept buffer position outside :=
    (second.kept buffer position outside).trans (first.kept buffer position outside)

theorem mono (altered : Altered m m₁ inside)
    (within : ∀ buffer position, inside buffer position → wider buffer position) :
    Altered m m₁ wider where
  held := altered.held
  kept buffer position outside :=
    altered.kept buffer position fun covered => outside (within buffer position covered)

theorem holds (altered : Altered m m₁ inside) {p : Cursor w} {n : Nat} (held : Holds m p n) :
    Holds m₁ p n := by
  intro i below
  rw [altered.held]
  exact held i below

end Altered

def bitsAt (m : μ) (p : Cursor w) (i : Nat) : Bool := (bit? m p.buffer (p.position + i)).getD false

theorem bitsAt_forward (m : μ) (p : Cursor w) (offset i : Nat) :
    bitsAt m (p + offset) i = bitsAt m p (offset + i) := by
  simp only [bitsAt, Cursor.buffer_forward, Cursor.position_forward]
  rw [Int.natCast_add, ← Int.add_assoc]

theorem Altered.bitsAt {m m' : μ} {inside : Nat → Int → Prop} (altered : Altered m m' inside)
    {p : Cursor w} {i : Nat} (outside : ¬ inside p.buffer (p.position + i)) :
    bitsAt m' p i = bitsAt m p i := by
  simp only [PackedBits.bitsAt]
  rw [altered.kept _ _ outside]

/-- Every bit of one memory is as it is in the other, inside of any run and outside. -/
def Restored (m m' : μ) : Prop :=
  ∀ buffer position, bit? m' buffer position = bit? m buffer position

theorem Restored.bitsAt {m m' : μ} (restored : Restored m m') (p : Cursor w) (i : Nat) :
    bitsAt m' p i = bitsAt m p i := by
  rw [PackedBits.bitsAt, restored, PackedBits.bitsAt]

theorem Restored.holds {m m' : μ} (restored : Restored m m') {p : Cursor w} {n : Nat}
    (held : Holds m p n) : Holds m' p n := by
  intro i below
  rw [restored]
  exact held i below

theorem Restored.overwritten {m m₁ m₂ : μ} (restored : Restored m m₁) {p : Cursor w} {n : Nat}
    {new : Nat → Bool} (written : Overwritten m₁ m₂ p n new) : Overwritten m m₂ p n new := by
  intro buffer position
  rw [written, restored]

theorem Holds.part {m : μ} {p : Cursor w} {n : Nat} (held : Holds m p n) {offset k : Nat}
    (within : offset + k ≤ n) : Holds m (p + offset) k := by
  intro i below
  have inside := held (offset + i) (by omega)
  rw [Cursor.position_forward, Cursor.buffer_forward]
  rwa [Int.natCast_add, ← Int.add_assoc] at inside

theorem Holds.lower {m : μ} {p : Cursor w} {n k : Nat} (held : Holds m p n) (within : k ≤ n) :
    Holds m p k := fun i below => held i (Nat.lt_of_lt_of_le below within)

theorem Holds.nil (m : μ) (p : Cursor w) : Holds m p 0 :=
  fun i below => absurd below (Nat.not_lt_zero i)

@[simp] theorem Cursor.forward_zero (p : Cursor w) : p + 0 = p :=
  Cursor.ext_position rfl (by simp)

theorem Cursor.forward_forward (p : Cursor w) (a b : Nat) : p + a + b = p + (a + b) := by
  refine Cursor.ext_position rfl ?_
  simp only [Cursor.position_forward]
  omega

theorem Cursor.forward_backward (p : Cursor w) {a b : Nat} (within : b ≤ a) :
    p + a - b = p + (a - b) := by
  refine Cursor.ext_position rfl ?_
  simp only [Cursor.position_backward, Cursor.position_forward]
  omega

theorem Cursor.backward_forward (p : Cursor w) (n : Nat) : p - n + n = p := by
  apply Cursor.ext_position
  · rfl
  · rw [Cursor.position_forward, Cursor.position_backward, Int.sub_add_cancel]

theorem Cursor.forward_sub (p : Cursor w) (a : Nat) : ((p + a : Cursor w) - p : Int) = a := by
  rw [Cursor.distanceFrom_eq, Cursor.position_forward]
  omega

namespace Overwritten
variable {m m₁ m₂ : μ} {p : Cursor w} {n k : Nat} {new first second : Nat → Bool}

theorem nil (m : μ) (p : Cursor w) (new : Nat → Bool) : Overwritten m m p 0 new := by
  intro buffer position
  rw [if_neg]
  rintro ⟨-, low, high⟩
  omega

theorem altered (written : Overwritten m m₁ p n new) (held : Holds m p n) :
    Altered m m₁ (p.Covers n) where
  held buffer position := by
    rw [written]
    split
    case isTrue covered =>
      obtain ⟨rfl, low, high⟩ := covered
      have inside := held (position - p.position).toNat (by omega)
      rw [show p.position + ((position - p.position).toNat : Int) = position by omega] at inside
      rw [inside]
      rfl
    case isFalse => rfl
  kept buffer position outside := by rw [written, if_neg outside]

theorem congr (written : Overwritten m m₁ p n first) (same : ∀ i < n, first i = second i) :
    Overwritten m m₁ p n second := by
  intro buffer position
  rw [written]
  split
  case isTrue covered => rw [same _ (by obtain ⟨-, low, high⟩ := covered; omega)]
  case isFalse => rfl

theorem append (lower : Overwritten m m₁ p n new)
    (upper : Overwritten m₁ m₂ (p + n) k fun i => new (n + i)) :
    Overwritten m m₂ p (n + k) new := by
  intro buffer position
  rw [upper, lower]
  simp only [Cursor.Covers, Cursor.buffer_forward, Cursor.position_forward]
  -- The two runs share no position, so at each one at most one of the writes counts.
  by_cases above : buffer = p.buffer ∧ p.position + n ≤ position ∧ position < p.position + n + k
  · rw [if_pos above, if_pos ⟨above.1, by omega, by omega⟩]
    rw [show n + (position - (p.position + n)).toNat = (position - p.position).toNat by omega]
  · rw [if_neg above]
    by_cases below : buffer = p.buffer ∧ p.position ≤ position ∧ position < p.position + n
    · rw [if_pos below, if_pos ⟨below.1, by omega, by omega⟩]
    · rw [if_neg below, if_neg]
      rintro ⟨here, low, high⟩
      by_cases side : position < p.position + n
      · exact below ⟨here, low, side⟩
      · exact above ⟨here, by omega, by omega⟩

theorem prepend (upper : Overwritten m m₁ (p + n) k fun i => new (n + i))
    (lower : Overwritten m₁ m₂ p n new) :
    Overwritten m m₂ p (n + k) new := by
  intro buffer position
  rw [lower, upper]
  simp only [Cursor.Covers, Cursor.buffer_forward, Cursor.position_forward]
  by_cases below : buffer = p.buffer ∧ p.position ≤ position ∧ position < p.position + n
  · rw [if_pos below, if_pos ⟨below.1, by omega, by omega⟩]
  · rw [if_neg below]
    by_cases above : buffer = p.buffer ∧ p.position + n ≤ position ∧ position < p.position + n + k
    · rw [if_pos above, if_pos ⟨above.1, by omega, by omega⟩]
      rw [show n + (position - (p.position + n)).toNat = (position - p.position).toNat by omega]
    · rw [if_neg above, if_neg]
      rintro ⟨here, low, high⟩
      by_cases side : position < p.position + n
      · exact below ⟨here, low, side⟩
      · exact above ⟨here, by omega, by omega⟩

end Overwritten

omit [Memory μ w] in
theorem Cursor.covers_part {p : Cursor w} {n offset k : Nat} (within : offset + k ≤ n)
    {buffer : Nat} {position : Int} (covered : (p + offset).Covers k buffer position) :
    p.Covers n buffer position := by
  simp only [Cursor.Covers, Cursor.buffer_forward, Cursor.position_forward] at covered ⊢
  exact ⟨covered.1, by omega, by omega⟩

omit [Memory μ w] in
theorem getLsbD_mask (p : Cursor w) (i : Nat) : p.mask.getLsbD i = decide (i = p.bit) := by
  have := p.bit_lt
  simp only [Cursor.mask, BitVec.getLsbD_shiftLeft, BitVec.getLsbD_one]
  by_cases here : i = p.bit
  · subst here
    simp [p.bit_lt, p.width_pos]
  · by_cases below : i < p.bit
    · simp [below, here]
    · have : i - p.bit ≠ 0 := by omega
      simp [this, here]

theorem readBit_eq (m : μ) (p : Cursor w) (held : Holds m p 1) :
    readBit m p = bit? m p.buffer p.position := by
  have here := p.bit?_here m 0 p.bit_lt
  rw [Int.natCast_zero, Int.add_zero, Nat.add_zero] at here
  rw [here]
  have found := (held.load Nat.one_pos (Nat.succ_le_of_lt p.width_pos)).1
  obtain ⟨word, loaded⟩ := Option.isSome_iff_exists.mp found
  -- Masking a word with one bit gives zero exactly when that bit is clear.
  have tested : (word &&& p.mask != 0#w) = word.getLsbD p.bit := by
    cases set : word.getLsbD p.bit with
    | true =>
        refine bne_iff_ne.mpr fun clear => ?_
        have bit := congrArg (·.getLsbD p.bit) clear
        simp [getLsbD_mask, set] at bit
    | false =>
        have clear : word &&& p.mask = 0#w := by
          refine BitVec.eq_of_getLsbD_eq fun i _ => ?_
          by_cases same : i = p.bit
          · simp [getLsbD_mask, same, set]
          · simp [getLsbD_mask, same]
        simp [clear]
  simp [readBit, loaded, tested]

variable [LawfulMemory μ w]

theorem store_run_overwritten {m : μ} {p : Cursor w} {n : Nat} {old word : BitVec w}
    (loaded : Memory.load m p.address = some old) (inside : p.bit + n ≤ w)
    (same : ∀ i < w, ¬ (p.bit ≤ i ∧ i < p.bit + n) → word.getLsbD i = old.getLsbD i) :
    ∃ m', Memory.store m p.address word = some m' ∧
      Overwritten m m' p n fun i => word.getLsbD (p.bit + i) := by
  have ready := LawfulMemory.store_isSome m p.address word
  rw [loaded] at ready
  obtain ⟨m', stored⟩ := Option.isSome_iff_exists.mp ready
  refine ⟨m', stored, fun buffer position => ?_⟩
  obtain ⟨inWord, -, offset⟩ := p.locate position
  simp only [bit?, LawfulMemory.load_store stored, Cursor.address, Address.mk.injEq, Cursor.Covers]
  by_cases here : buffer = p.buffer ∧ position / w = p.word
  · obtain ⟨rfl, word_eq⟩ := here
    have range := inWord.mp word_eq
    rw [word_eq] at offset ⊢
    have origin : p.position = p.word * w + p.bit := rfl
    rw [if_pos ⟨rfl, rfl⟩]
    -- The word has changed in the run: its other positions read the word that was there.
    by_cases covered : p.position ≤ position ∧ position < p.position + n
    · rw [if_pos ⟨rfl, covered⟩,
        show (position % w).toNat = p.bit + (position - p.position).toNat by omega]
      rfl
    · rw [if_neg (fun both => covered both.2),
        show Memory.load m ⟨p.buffer, p.word⟩ = some old from loaded]
      simp only [Option.map_some]
      rw [same _ (by omega) (by omega)]
  · rw [if_neg here, if_neg]
    rintro ⟨sameBuffer, low, high⟩
    exact here ⟨sameBuffer, inWord.mpr ⟨by omega, by omega⟩⟩

theorem store_overwritten {m : μ} {p : Cursor w} {old word : BitVec w}
    (loaded : Memory.load m p.address = some old)
    (same : ∀ i, i ≠ p.bit → word.getLsbD i = old.getLsbD i) :
    ∃ m', Memory.store m p.address word = some m' ∧
      Overwritten m m' p 1 fun _ => word.getLsbD p.bit := by
  have inside : p.bit + 1 ≤ w := p.bit_lt
  obtain ⟨m', stored, became⟩ := store_run_overwritten loaded inside
    fun i _ outside => same i (by omega)
  refine ⟨m', stored, became.congr fun i below => ?_⟩
  rw [Nat.lt_one_iff.mp below, Nat.add_zero]

theorem writeBit_overwritten (m : μ) (p : Cursor w) (value : Bool) (held : Holds m p 1) :
    ∃ m', writeBit m p value = some m' ∧ Overwritten m m' p 1 fun _ => value := by
  have found := (held.load Nat.one_pos (Nat.succ_le_of_lt p.width_pos)).1
  obtain ⟨old, loaded⟩ := Option.isSome_iff_exists.mp found
  have here := p.bit_lt
  have same (i : Nat) (other : i ≠ p.bit) :
      (if value then old ||| p.mask else old &&& ~~~p.mask).getLsbD i = old.getLsbD i := by
    cases value <;> simp [getLsbD_mask, other]
    exact BitVec.lt_of_getLsbD
  obtain ⟨m', stored, written⟩ := store_overwritten loaded same
  · refine ⟨m', by simp [writeBit, loaded, stored], written.congr fun i below => ?_⟩
    cases value <;> simp [getLsbD_mask, here]

end PackedBits
