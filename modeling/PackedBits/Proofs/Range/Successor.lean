import PackedBits.Proofs.Range.Arrange

/-! The lexicographic neighbour. Lists of bits are compared by their first bits, and by what comes
behind these when they are alike. All arrangements of some bits stand between the one with all
small bits in front and the one with all big bits in front; any other one has a last small bit that
a big one follows, and the step there gives the least of the arrangements further on. Whether the
step was taken by arithmetic in one word or bit by bit over several makes no difference. -/
namespace PackedBits

instance asymm_clear_set : Std.Asymm fun a b : Bool => a < b := ⟨by decide⟩

/-- The lexicographic order, turned around when set bits are the small ones. -/
def Precedes : Bool → List Bool → List Bool → Prop
  | false, a, b => a < b
  | true, a, b => b < a

/-- What a step in an order makes of an arrangement and what it answers. The answer tells whether an
arrangement stands further on. The new arrangement is the nearest one of these, and where there is
none the first one of all. -/
structure LeadsTo (precedes : List Bool → List Bool → Prop) (bits new : List Bool)
    (further : Bool) : Prop where
  arrangement : new.Perm bits
  answer : further = true ↔ ∃ other : List Bool, other.Perm bits ∧ precedes bits other
  next : further = true → precedes bits new ∧
    ∀ other : List Bool, other.Perm bits → precedes bits other → ¬ precedes other new
  first : further = false → ∀ other : List Bool, other.Perm bits → ¬ precedes other new

section
variable {small : Bool}

theorem precedes_cons {x y : Bool} {a b : List Bool} : Precedes small (x :: a) (y :: b) ↔
    (x = small ∧ y = !small) ∨ (x = y ∧ Precedes small a b) := by
  have clear_set : ∀ a b : Bool, a < b ↔ a = false ∧ b = true := by decide
  cases small with
  | false => rw [Precedes, Precedes, List.cons_lt_cons_iff, clear_set, Bool.not_false]
  | true =>
      rw [Precedes, Precedes, List.cons_lt_cons_iff, clear_set, Bool.not_true,
        @And.comm (y = false), @eq_comm Bool y x]

theorem precedes_flip {a b : List Bool} : Precedes (!small) a b ↔ Precedes small b a := by
  cases small <;> exact Iff.rfl

theorem precedes_irrefl (a : List Bool) : ¬ Precedes small a a := by
  cases small <;> exact List.lt_irrefl a

theorem not_precedes_first {other : List Bool} {smalls bigs : Nat}
    (perm : other.Perm (List.replicate smalls small ++ List.replicate bigs (!small))) :
    ¬ Precedes small other (List.replicate smalls small ++ List.replicate bigs (!small)) := by
  induction smalls generalizing other with
  | zero =>
      rw [List.replicate_zero, List.nil_append] at perm ⊢
      rw [List.perm_replicate.mp perm]
      exact precedes_irrefl _
  | succ smalls ih =>
      rw [List.replicate_succ, List.cons_append] at perm ⊢
      cases other with
      | nil => exact absurd perm.length_eq (Nat.succ_ne_zero _).symm
      | cons bit rest =>
          rw [precedes_cons]
          rintro (⟨-, big⟩ | ⟨rfl, before⟩)
          · exact (Bool.eq_not_self small).mp big
          · exact ih ((List.perm_cons bit).mp perm) before

theorem not_last_precedes {other : List Bool} {bigs smalls : Nat}
    (perm : other.Perm (List.replicate bigs (!small) ++ List.replicate smalls small)) :
    ¬ Precedes small (List.replicate bigs (!small) ++ List.replicate smalls small) other := by
  have turned : List.replicate smalls small = List.replicate smalls (!!small) := by
    rw [Bool.not_not]
  rw [turned] at perm ⊢
  rw [← precedes_flip]
  exact not_precedes_first perm

theorem arranged_cases (small : Bool) (bits : List Bool) :
    (∃ bigs smalls, bits = List.replicate bigs (!small) ++ List.replicate smalls small) ∨
      ∃ front bigs smalls, bits =
        front ++ small :: (List.replicate (bigs + 1) (!small) ++ List.replicate smalls small) := by
  induction bits with
  | nil => exact .inl ⟨0, 0, rfl⟩
  | cons bit rest ih =>
      rcases ih with ⟨bigs, smalls, rfl⟩ | ⟨front, bigs, smalls, rfl⟩
      · by_cases big : bit = !small
        · exact .inl ⟨bigs + 1, smalls, by rw [big, List.replicate_succ, List.cons_append]⟩
        · rw [Bool.not_eq_not] at big
          cases bigs with
          | zero => exact .inl ⟨0, smalls + 1, by rw [big, List.replicate_succ]; rfl⟩
          | succ bigs => exact .inr ⟨[], bigs, smalls, by rw [big, List.nil_append]⟩
      · exact .inr ⟨bit :: front, bigs, smalls, rfl⟩

/-- A step behind a bit is a step of the whole: the arrangements that begin with another bit come
before the old one or after the new one. -/
theorem LeadsTo.cons {bits new : List Bool} (leads : LeadsTo (Precedes small) bits new true)
    (bit : Bool) : LeadsTo (Precedes small) (bit :: bits) (bit :: new) true := by
  have perm := leads.arrangement.cons bit
  obtain ⟨after, nearest⟩ := leads.next rfl
  have after' : Precedes small (bit :: bits) (bit :: new) := precedes_cons.mpr (.inr ⟨rfl, after⟩)
  refine ⟨perm, ⟨fun _ => ⟨_, perm, after'⟩, fun _ => rfl⟩, fun _ => ⟨after', ?_⟩, nofun⟩
  intro other perm' before between
  cases other with
  | nil => exact absurd perm'.length_eq (Nat.succ_ne_zero _).symm
  | cons first rest =>
      rcases precedes_cons.mp before with ⟨rfl, rfl⟩ | ⟨rfl, before'⟩
      · rcases precedes_cons.mp between with ⟨same, -⟩ | ⟨same, -⟩
        · exact (Bool.not_eq_self bit).mp same
        · exact (Bool.not_eq_self bit).mp same
      · rcases precedes_cons.mp between with ⟨rfl, same⟩ | ⟨-, between'⟩
        · exact (Bool.eq_not_self bit).mp same
        · exact nearest rest ((List.perm_cons bit).mp perm') before' between'

/-- At a small bit with all the big ones behind it: none of the arrangements that begin with it is
further on, and the first of the others is the new one. -/
theorem leadsTo_of_pivot (bigs smalls : Nat) :
    LeadsTo (Precedes small)
      (small :: (List.replicate (bigs + 1) (!small) ++ List.replicate smalls small))
      ((!small) :: (List.replicate (smalls + 1) small ++ List.replicate bigs (!small))) true := by
  have perm : ((!small) :: (List.replicate (smalls + 1) small ++
      List.replicate bigs (!small))).Perm
        (small :: (List.replicate (bigs + 1) (!small) ++ List.replicate smalls small)) := by
    rw [List.replicate_succ, List.replicate_succ, List.cons_append, List.cons_append]
    exact (List.Perm.swap small (!small) _).trans ((List.perm_append_comm.cons (!small)).cons small)
  have after : Precedes small
      (small :: (List.replicate (bigs + 1) (!small) ++ List.replicate smalls small))
      ((!small) :: (List.replicate (smalls + 1) small ++ List.replicate bigs (!small))) :=
    precedes_cons.mpr (.inl ⟨rfl, rfl⟩)
  refine ⟨perm, ⟨fun _ => ⟨_, perm, after⟩, fun _ => rfl⟩, fun _ => ⟨after, ?_⟩, nofun⟩
  intro other perm' before between
  cases other with
  | nil => exact absurd perm'.length_eq (Nat.succ_ne_zero _).symm
  | cons first rest =>
      rcases precedes_cons.mp before with ⟨-, rfl⟩ | ⟨rfl, before'⟩
      · rcases precedes_cons.mp between with ⟨same, -⟩ | ⟨-, between'⟩
        · exact (Bool.not_eq_self small).mp same
        · exact not_precedes_first ((List.perm_cons _).mp (perm'.trans perm.symm)) between'
      · exact not_last_precedes ((List.perm_cons _).mp perm') before'

theorem leadsTo_of_last (bigs smalls : Nat) :
    LeadsTo (Precedes small) (List.replicate bigs (!small) ++ List.replicate smalls small)
      (List.replicate smalls small ++ List.replicate bigs (!small)) false where
  arrangement := List.perm_append_comm
  answer := ⟨nofun, fun ⟨_, perm, before⟩ => absurd before (not_last_precedes perm)⟩
  next := nofun
  first _ _ perm := not_precedes_first (perm.trans List.perm_append_comm)

theorem neighbour_leadsTo (small : Bool) (bits : List Bool) :
    LeadsTo (Precedes small) bits (neighbour small bits).1 (neighbour small bits).2 := by
  rcases arranged_cases small bits with ⟨bigs, smalls, rfl⟩ | ⟨front, bigs, smalls, rfl⟩
  · rw [neighbour_wraps]
    exact leadsTo_of_last bigs smalls
  · rw [neighbour_steps]
    induction front with
    | nil => exact leadsTo_of_pivot bigs smalls
    | cons bit front ih => exact ih.cons bit

end

section
variable {μ : Type} {w : Nat} [Memory μ w] {m : μ} {p : Cursor w} {n : Nat}

def Steps (precedes : List Bool → List Bool → Prop) (m : μ) (p : Cursor w) (n : Nat)
    (ran : Option (μ × Bool)) : Prop :=
  ∃ m' further, ran = some (m', further) ∧
    LeadsTo precedes (runBits m p n) (runBits m' p n) further ∧ Altered m m' (p.Covers n)

theorem Arranges.steps {backward : Bool} {ran : Option (μ × Bool)}
    (arranges : Arranges m p n backward ran) (held : Holds m p n) :
    Steps (Precedes backward) m p n ran := by
  obtain ⟨m', done, became, altered⟩ := arranges.takes held
  refine ⟨m', _, done, ?_, altered⟩
  rw [became]
  exact neighbour_leadsTo backward (runBits m p n)

end

/-- The first bit being the most significant one, stepping forward leads to the least greater
arrangement, or from the greatest to the least and answers so; stepping backward mirrors this. The
arithmetic on one word and the walk over several both do it, at any length that they can take. -/
theorem permutations_step_to_neighbours {μ : Type} {w : Nat} [Memory μ w] [LawfulMemory μ w]
    (m : μ) (p : Cursor w) (n : Nat) (held : Holds m p n) :
    Steps (fun a b => a < b) m p n (nextPermutation m p n) ∧
    Steps (fun a b => b < a) m p n (prevPermutation m p n) ∧
    (0 < n → n ≤ w → Steps (fun a b => a < b) m p n (arrangeWord m p n false) ∧
      Steps (fun a b => b < a) m p n (arrangeWord m p n true)) ∧
    (0 < n → Steps (fun a b => a < b) m p n (arrangeRun m p n false) ∧
      Steps (fun a b => b < a) m p n (arrangeRun m p n true)) :=
  ⟨(arrange_overwritten m p n false held).steps held,
    (arrange_overwritten m p n true held).steps held,
    fun nonempty small => ⟨(arrange_word_overwritten m p n false nonempty small held).steps held,
      (arrange_word_overwritten m p n true nonempty small held).steps held⟩,
    fun nonempty => ⟨(arrange_run_overwritten m p n false nonempty held).steps held,
      (arrange_run_overwritten m p n true nonempty held).steps held⟩⟩

/-- Six bits from the fifth bit of a byte on; of the arrangements behind theirs none comes before the
one that they are stepped to. -/
theorem permutations_step_to_neighbours_across_two_words :
    let m : Buffers 8 := ⟨#[#[0x40#8, 0x03#8]]⟩
    let p : Cursor 8 := ⟨0, 0, 5, by decide⟩
    Holds m p 6 ∧ runBits m p 6 = [false, true, false, true, true, false] ∧
      ∃ m', nextPermutation m p 6 = some (m', true) ∧ runBits m p 6 < runBits m' p 6 ∧
        ¬ [false, true, true, false, false, true] < runBits m' p 6 := by
  intro m p
  have held : Holds m p 6 := by decide
  have perm : [false, true, true, false, false, true].Perm (runBits m p 6) := by decide
  have after : runBits m p 6 < [false, true, true, false, false, true] := by decide
  obtain ⟨⟨m', further, ran, leads, -⟩, -⟩ := permutations_step_to_neighbours m p 6 held
  obtain rfl : further = true := leads.answer.mpr ⟨_, perm, after⟩
  obtain ⟨greater, least⟩ := leads.next rfl
  exact ⟨held, by decide, m', ran, greater, least _ perm after⟩

end PackedBits
