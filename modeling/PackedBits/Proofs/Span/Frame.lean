import PackedBits.Proofs.Span.Moves

/-! The frame of a change in place. However a change ends, the span is where it was, as long as it
was, and the bits around it are the same; and none of its accesses has gone wild. A change of which
it is known what it does to the list of bits has a frame, and one made of others inherits theirs. -/
namespace PackedBits

namespace Span
variable {w : Nat} [HasBits w] {α β : Type} {s : Span w}

abbrev Stays (s : Span w) (attempt : Attempt (Span w) α) : Prop :=
  attempt.Ends s (fun _ s' => Within s s') fun failure s' => failure ≠ .wild ∧ Within s s'

def Framed (attempt : Attempt (Span w) α) : Prop := ∀ s : Span w, s.Held → s.Stays attempt

namespace Framed

omit [HasBits w] in
theorem pure (value : α) : Framed (Pure.pure value : Attempt (Span w) α) := fun s _ => Within.refl s

omit [HasBits w] in
theorem bind {attempt : Attempt (Span w) α} {next : α → Attempt (Span w) β} (first : Framed attempt)
    (rest : ∀ value, Framed (next value)) : Framed (attempt >>= next) := by
  intro s held
  refine ((first s held).imp (fun _ _ => id) fun _ _ => id).bind ?_
  intro value s' before
  exact (rest value s' (before.held held)).imp (fun _ _ after => before.trans after)
    fun _ _ ⟨tame, after⟩ => ⟨tame, before.trans after⟩

omit [HasBits w] in
theorem fail (error : Error) : Framed (Attempt.fail error : Attempt (Span w) α) :=
  fun s _ => ⟨Attempt.error_tame _, Within.refl s⟩

end Framed

omit [HasBits w] in
theorem Does.framed {attempt : Attempt (Span w) α} {outcome : Span w → Query (α × List Bool)}
    (does : ∀ s : Span w, s.Held → s.Does attempt (outcome s)) : Framed attempt := by
  intro s held
  refine (does s held).imp (fun _ _ reached => reached.1) ?_
  rintro failure s' ⟨rfl, ⟨panic, rfl⟩, -⟩
  exact ⟨Attempt.panic_tame panic, Within.refl s'⟩

theorem set_framed (index : Nat) (value : Bool) : Framed (set (w := w) index value) :=
  Does.framed fun _ held => set_does held index value

section
variable {other : Span w} (heldOther : other.Held)

include heldOther

theorem andWith_framed : Framed (andWith other) :=
  Does.framed fun _ held => andWith_does held heldOther

theorem orWith_framed : Framed (orWith other) :=
  Does.framed fun _ held => orWith_does held heldOther

theorem xorWith_framed : Framed (xorWith other) :=
  Does.framed fun _ held => xorWith_does held heldOther

theorem andNotWith_framed : Framed (andNotWith other) :=
  Does.framed fun _ held => andNotWith_does held heldOther

end

theorem swapBits_ends {other : Span w} (held : s.Held) (heldOther : other.Held) :
    swapBits.Ends (s, other) (fun _ after => Within s after.1 ∧ Within other after.2)
      fun failure after => failure ≠ .wild ∧ Within s after.1 ∧ Within other after.2 := by
  refine (swapBits_does held heldOther).imp ?_ ?_
  · rintro ⟨⟩ after ⟨taken, given, -⟩
    exact ⟨taken, given⟩
  · rintro failure after ⟨rfl, ⟨panic, rfl⟩, -⟩
    exact ⟨Attempt.panic_tame panic, Within.refl s, Within.refl other⟩

end Span

end PackedBits
