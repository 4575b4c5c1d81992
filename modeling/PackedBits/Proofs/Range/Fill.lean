import PackedBits.Range.Fill
import PackedBits.Proofs.Range.Arrange

/-! What filling and inverting a run do. Both apply one function to bits: to those of a word that a
mask selects, or to all of a word. The pieces of a run follow one another without gap or overlap, so
the function is applied to every bit of the run once and to no other. From this come the laws that
such a change has with itself, done again and done in two parts. -/
namespace PackedBits
variable {μ : Type} {w : Nat} [Memory μ w]

/-- Changing bits of one word of a run applies `f` to them: to those that a mask selects, or to
all. -/
structure Applies (f : Bool → Bool) (p : Cursor w) (part : μ → Nat → BitVec w → Option μ)
    (each : μ → Nat → Option μ) : Prop where
  part {m : μ} {index : Nat} {old : BitVec w}
    (loaded : Memory.load m (p.wordAddress index) = some old) (mask : BitVec w) :
    ∃ word, part m index mask = Memory.store m (p.wordAddress index) word ∧
      ∀ i < w, word.getLsbD i = if mask.getLsbD i then f (old.getLsbD i) else old.getLsbD i
  each {m : μ} {index : Nat} {old : BitVec w}
    (loaded : Memory.load m (p.wordAddress index) = some old) :
    ∃ word, each m index = Memory.store m (p.wordAddress index) word ∧
      ∀ i < w, word.getLsbD i = f (old.getLsbD i)

theorem fill_applies (p : Cursor w) (value : Bool) : Applies (fun _ => value) p
    (fun (m : μ) index mask => blend m (p.wordAddress index) (splat w value) mask)
    (fun m index => Memory.store m (p.wordAddress index) (splat w value)) where
  part loaded mask := by
    refine ⟨_, by rw [blend, loaded]; rfl, fun i below => ?_⟩
    simp only [BitVec.getLsbD_or, BitVec.getLsbD_and, BitVec.getLsbD_not, getLsbD_splat, below,
      decide_true, Bool.and_true, Bool.true_and]
    cases mask.getLsbD i <;> simp
  each _ := ⟨_, rfl, fun i below => by rw [getLsbD_splat, decide_eq_true below, Bool.and_true]⟩

theorem flip_applies (p : Cursor w) :
    Applies not p (invertMasked p : μ → Nat → BitVec w → Option μ) (invertWord p) where
  part loaded mask := by
    refine ⟨_, by rw [invertMasked, loaded]; rfl, fun i _ => ?_⟩
    rw [BitVec.getLsbD_xor]
    cases mask.getLsbD i <;> simp
  each loaded := by
    refine ⟨_, by rw [invertWord, loaded]; rfl, fun i below => ?_⟩
    rw [BitVec.getLsbD_not, decide_eq_true below, Bool.true_and]

/-- Every bit of a run has become what `f` makes of it. -/
abbrev Mapped (f : Bool → Bool) (m m' : μ) (p : Cursor w) (n : Nat) : Prop :=
  Overwritten m m' p n fun i => f (bitsAt m p i)

section
variable [LawfulMemory μ w] {f : Bool → Bool} {part : μ → Nat → BitVec w → Option μ}
  {each : μ → Nat → Option μ} {m : μ} {p : Cursor w} {n : Nat}

theorem Applies.part_rewritten (applies : Applies f p part each) {chunk : Chunk} {index : Nat}
    {mask : BitVec w} (masked : Masked p n chunk index mask) (held : Holds m p n) :
    ∃ m', part m index mask = some m' ∧
      Rewritten (fun m i => f (bitsAt m p i)) p chunk.offset chunk.width m m' := by
  obtain ⟨old, loaded, bits⟩ := masked.loaded rfl held
  obtain ⟨word, same, changed⟩ := applies.part loaded mask
  rw [same]
  apply masked.store (fun i => f (bitsAt m p i)) rfl loaded
  · intro i below clear
    rw [changed i below, clear, if_neg Bool.false_ne_true]
  · intro i below
    rw [changed _ (masked.inWord below), if_pos (masked.selected below), bits i below]

theorem Applies.each_rewritten (applies : Applies f p part each) {offset count i : Nat}
    (whole : Whole p n offset count) (below : i < count) (held : Holds m p n) :
    ∃ m', each m ((p.bit + offset) / w + i) = some m' ∧
      Rewritten (fun m i => f (bitsAt m p i)) p (offset + i * w) w m m' := by
  obtain ⟨old, loaded, bits⟩ := (whole.masked below).loaded rfl held
  obtain ⟨word, same, changed⟩ := applies.each loaded
  rw [same]
  apply whole.store (fun i => f (bitsAt m p i)) below rfl held
  intro j inWord
  have bit := bits j inWord
  rw [whole.bit below, Nat.zero_add] at bit
  rw [changed j inWord, bit]

theorem Applies.run (applies : Applies f p part each) (held : Holds m p n) :
    ∃ m', (if n = 0 then some m else maskedRun part (eachIndex each) m p n) = some m' ∧
      Mapped f m m' p n := by
  by_cases none : n = 0
  · subst none
    exact ⟨m, if_pos rfl, .nil m p _⟩
  rw [if_neg none]
  have progress : Progress (Holds · p n) (Rewritten (fun m i => f (bitsAt m p i)) p) n
      fun offset m₁ => Mapped f m m₁ p offset :=
    Rewritten.progress held (fun altered => altered.holds held) fun altered above _ =>
      congrArg f (altered.bitsAt (by rintro ⟨-, low, high⟩; omega))
  refine progress.maskedRun applies.part_rewritten (fun whole before => ?_)
    (Nat.pos_of_ne_zero none) (.nil m p _)
  exact progress.eachIndex whole (applies.each_rewritten whole) before

end

section
variable {f : Bool → Bool} {m m₁ m₂ : μ} {p : Cursor w} {n a b : Nat}

theorem Mapped.runBits (mapped : Mapped f m m₁ p n) :
    PackedBits.runBits m₁ p n = (PackedBits.runBits m p n).map f := by
  rw [Overwritten.runBits mapped, PackedBits.runBits, List.map_map]
  rfl

theorem Mapped.again (first : Mapped f m m₁ p n) (second : Mapped f m₁ m₂ p n) :
    Mapped (f ∘ f) m m₂ p n := by
  intro buffer position
  rw [second]
  split
  case isTrue covered =>
    obtain ⟨-, low, high⟩ := covered
    simp only [Function.comp_apply]
    rw [first.bitsAt (by omega)]
  case isFalse outside => rw [first, if_neg outside]

theorem Mapped.join (lower : Mapped f m m₁ p a) (held : Holds m p a)
    (upper : Mapped f m₁ m₂ (p + a) b) : Mapped f m m₂ p (a + b) := by
  apply Overwritten.append lower
  apply upper.congr
  intro i _
  -- The lower part ends where the upper one begins.
  rw [bitsAt_forward, (lower.altered held).bitsAt (by rintro ⟨-, low, high⟩; omega)]

theorem Mapped.restored {g : Bool → Bool} (first : Mapped f m m₁ p n) (second : Mapped g m m₂ p n)
    (same : ∀ bit, g bit = f bit) : Restored m₁ m₂ := by
  intro buffer position
  rw [first, second]
  simp only [same]

/-- An operation applies `f` to the bits of every run that is held. -/
structure Maps (f : Bool → Bool) (change : μ → Cursor w → Nat → Option μ) : Prop where
  run {m : μ} {p : Cursor w} {n : Nat} (held : Holds m p n) :
    ∃ m', change m p n = some m' ∧ Mapped f m m' p n

/-- What such an operation comes to, and what its second run and a run in two parts do. -/
theorem Maps.laws {change : μ → Cursor w → Nat → Option μ} (maps : Maps f change)
    (held : Holds m p n) :
    ∃ m', change m p n = some m' ∧ PackedBits.runBits m' p n = (PackedBits.runBits m p n).map f ∧
      Altered m m' (p.Covers n) ∧ Mapped f m m' p n ∧
      (∃ m'', change m' p n = some m'' ∧ Mapped (f ∘ f) m m'' p n) ∧
      ∀ a b, a + b = n →
        ∃ m₁ m₂, change m p a = some m₁ ∧ change m₁ (p + a) b = some m₂ ∧ Restored m' m₂ := by
  obtain ⟨m', ran, mapped⟩ := maps.run held
  have altered := mapped.altered held
  obtain ⟨m'', again, twice⟩ := maps.run (altered.holds held)
  refine ⟨m', ran, mapped.runBits, altered, mapped, ⟨m'', again, mapped.again twice⟩, ?_⟩
  rintro a b rfl
  have heldLower : Holds m p a := held.lower (Nat.le_add_right a b)
  have heldUpper : Holds m (p + a) b := held.part (Nat.le_refl (a + b))
  obtain ⟨m₁, ranLower, lower⟩ := maps.run heldLower
  obtain ⟨m₂, ranUpper, upper⟩ := maps.run ((lower.altered heldLower).holds heldUpper)
  have joined := lower.join heldLower upper
  exact ⟨m₁, m₂, ranLower, ranUpper, mapped.restored joined fun _ => rfl⟩

end

variable [LawfulMemory μ w]

theorem fill_maps (value : Bool) :
    Maps (fun _ => value) fun (m : μ) p n => fill m p n value := ⟨(fill_applies _ value).run⟩

theorem flip_maps : Maps not (flip : μ → Cursor w → Nat → Option μ) := ⟨(flip_applies _).run⟩

theorem fill_overwritten (m : μ) (p : Cursor w) (n : Nat) (value : Bool) (held : Holds m p n) :
    ∃ m', fill m p n value = some m' ∧ Overwritten m m' p n fun _ => value :=
  (fill_maps value).run held

theorem flip_overwritten (m : μ) (p : Cursor w) (n : Nat) (held : Holds m p n) :
    ∃ m', flip m p n = some m' ∧ Overwritten m m' p n fun i => !bitsAt m p i :=
  flip_maps.run held

/-- Filling a run sets every bit of it to the value and inverting it inverts every bit of it; neither
changes a bit outside. A second filling changes nothing and a second inversion brings back every bit
there was, and done on the two parts of a run, the lower one first, both leave the memory that one
call over the whole run leaves. -/
theorem filling_and_inverting_are_exact (m : μ) (p : Cursor w) (n : Nat) (held : Holds m p n) :
    (∀ value, ∃ m', fill m p n value = some m' ∧ runBits m' p n = List.replicate n value ∧
      Altered m m' (p.Covers n) ∧
      (∃ m'', fill m' p n value = some m'' ∧ Restored m' m'') ∧
      ∀ a b, a + b = n → ∃ m₁ m₂, fill m p a value = some m₁ ∧
        fill m₁ (p + a) b value = some m₂ ∧ Restored m' m₂) ∧
    ∃ m', flip m p n = some m' ∧ runBits m' p n = (runBits m p n).map not ∧
      Altered m m' (p.Covers n) ∧
      (∃ m'', flip m' p n = some m'' ∧ Restored m m'') ∧
      ∀ a b, a + b = n → ∃ m₁ m₂, flip m p a = some m₁ ∧ flip m₁ (p + a) b = some m₂ ∧
        Restored m' m₂ := by
  constructor
  · intro value
    obtain ⟨m', ran, bits, altered, mapped, ⟨m'', again, twice⟩, parts⟩ :=
      (fill_maps value).laws held
    have filled : runBits m' p n = List.replicate n value := by
      rw [bits, List.map_const', length_runBits]
    have kept : Restored m' m'' := mapped.restored twice fun _ => rfl
    exact ⟨m', ran, filled, altered, ⟨m'', again, kept⟩, parts⟩
  · obtain ⟨m', ran, bits, altered, -, ⟨m'', again, twice⟩, parts⟩ := flip_maps.laws held
    have same : runBits m'' p n = runBits m p n := by
      rw [twice.runBits, show not ∘ not = id from funext Bool.not_not, List.map_id]
    have back : Restored m m'' := (twice.altered held).restored held same
    exact ⟨m', ran, bits, altered, ⟨m'', again, back⟩, parts⟩

/-- Fourteen bits from the sixth bit of a byte on, what is left of it, a whole byte and the beginning
of a third, and the same cut inside the second byte. -/
theorem filling_and_inverting_are_exact_over_three_words :
    let m : Buffers 8 := ⟨#[#[0xA7#8, 0x5A#8, 0x3C#8]]⟩
    let p : Cursor 8 := ⟨0, 0, 5, by decide⟩
    Holds m p 14 ∧
      (∃ m', fill m p 14 true = some m' ∧ runBits m' p 14 = List.replicate 14 true ∧
        bit? m' 0 4 = bit? m 0 4 ∧ bit? m' 0 19 = bit? m 0 19) ∧
      ∃ m', flip m p 14 = some m' ∧
        runBits m' p 14 = [false, true, false, true, false, true, false, false, true, false, true,
          true, true, false] ∧
        (∃ m'', flip m' p 14 = some m'' ∧ Restored m m'') ∧
        ∃ m₁ m₂, flip m p 6 = some m₁ ∧ flip m₁ (p + 6) 8 = some m₂ ∧ Restored m' m₂ := by
  intro m p
  have held : Holds m p 14 := by decide
  obtain ⟨fills, m', ran, bits, -, twice, parts⟩ := filling_and_inverting_are_exact m p 14 held
  obtain ⟨filled, ranFill, bitsFill, altered, -, -⟩ := fills true
  refine ⟨held, ⟨filled, ranFill, bitsFill, ?_, ?_⟩, m', ran, ?_, twice, parts 6 8 (by decide)⟩
  · exact altered.kept 0 4 (by decide)
  · exact altered.kept 0 19 (by decide)
  · rw [bits]
    decide

end PackedBits
