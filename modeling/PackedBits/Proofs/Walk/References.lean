import PackedBits.Walk.Bits
import PackedBits.Proofs.Attempt
import PackedBits.Proofs.Range.Overwrite

/-! References handed out by a walk. A walk has a range of places still before it; drawing from
either side takes the place at that side out of the range, so no bit is referred to twice. -/
namespace PackedBits

namespace RefWalk
variable {w : Nat} [HasBits w]

def draw (fromBack : Bool) : Attempt (RefWalk w) (Option (BitRef w)) :=
  if fromBack then nextBack else next

/-- The references that a walk hands out, each drawn from the front or from the back. -/
def handOut : List Bool → Attempt (RefWalk w) (List (BitRef w))
  | [] => return []
  | fromBack :: rest => do
      let item ← draw fromBack
      return item.toList ++ (← handOut rest)

def between (s : Span w) (a b : Nat) : RefWalk w := ⟨s.first + a, s.first + b⟩

theorem walkRefs_eq (s : Span w) : s.walkRefs = between s 0 s.len := by
  rw [between, Cursor.forward_zero]
  rfl

variable {s : Span w} {a b : Nat}

theorem next_between (more : a < b) :
    next (between s a b) = .ok (some (s.first + a).ref) (between s (a + 1) b) := by
  have apart : (between s a b).front ≠ (between s a b).back := fun same =>
    Nat.ne_of_lt more ((Cursor.forward_inj _).mp same)
  have after : between s (a + 1) b = ⟨(s.first + a).next, s.first + b⟩ := by
    rw [between, Cursor.next_forward]
  rw [next, Attempt.get_bind_apply, if_neg apart, after]
  rfl

theorem nextBack_between (more : a < b) :
    nextBack (between s a b) = .ok (some (s.first + (b - 1)).ref) (between s a (b - 1)) := by
  have apart : (between s a b).front ≠ (between s a b).back := fun same =>
    Nat.ne_of_lt more ((Cursor.forward_inj _).mp same)
  have back := s.first.previous_forward (Nat.zero_lt_of_lt more)
  have after : between s a (b - 1) = ⟨s.first + a, (s.first + b).previous⟩ := by
    rw [between, back]
  rw [nextBack, Attempt.get_bind_apply, if_neg apart, after, ← back]
  rfl

theorem next_met (s : Span w) (a : Nat) : next (between s a a) = .ok none (between s a a) := by
  have met : (between s a a).front = (between s a a).back := rfl
  rw [next, Attempt.get_bind_apply, if_pos met]
  rfl

theorem nextBack_met (s : Span w) (a : Nat) :
    nextBack (between s a a) = .ok none (between s a a) := by
  have met : (between s a a).front = (between s a a).back := rfl
  rw [nextBack, Attempt.get_bind_apply, if_pos met]
  rfl

theorem draw_between (s : Span w) (fromBack : Bool) (order : a ≤ b) :
    ∃ (place : Option Nat) (a' b' : Nat),
      draw fromBack (between s a b) =
        .ok (place.map fun i => (s.first + i).ref) (between s a' b') ∧
      a ≤ a' ∧ a' ≤ b' ∧ b' ≤ b ∧ ∀ i ∈ place, (a ≤ i ∧ i < b) ∧ ¬ (a' ≤ i ∧ i < b') := by
  rcases Nat.eq_or_lt_of_le order with rfl | more
  · refine ⟨none, a, a, ?_, Nat.le_refl a, Nat.le_refl a, Nat.le_refl a, nofun⟩
    cases fromBack with
    | false => exact next_met s a
    | true => exact nextBack_met s a
  · cases fromBack with
    | false =>
        refine ⟨some a, a + 1, b, next_between more, by omega, more, Nat.le_refl b, ?_⟩
        rintro i ⟨⟩
        omega
    | true =>
        refine ⟨some (b - 1), a, b - 1, nextBack_between more, Nat.le_refl a, by omega, by omega,
          ?_⟩
        rintro i ⟨⟩
        omega

/-- However the two sides take turns, each reference is handed out once. -/
theorem handOut_ends (sides : List Bool) (order : a ≤ b) :
    (handOut sides).Ends (between s a b) (fun refs _ => ∃ places : List Nat, places.Nodup ∧
      (∀ i ∈ places, a ≤ i ∧ i < b) ∧ refs = places.map fun i => (s.first + i).ref)
      fun _ _ => False := by
  induction sides generalizing a b with
  | nil => exact ⟨[], List.nodup_nil, nofun, rfl⟩
  | cons fromBack rest ih =>
      obtain ⟨place, a', b', drawn, low, order', high, passed⟩ := draw_between s fromBack order
      have first : (draw fromBack).Ends (between s a b)
          (fun item walk => item = place.map (fun i => (s.first + i).ref) ∧ walk = between s a' b')
          fun _ _ => False := by
        rw [Attempt.Ends, drawn]
        exact ⟨rfl, rfl⟩
      refine first.bind ?_
      rintro item walk ⟨rfl, rfl⟩
      refine (ih order').bind ?_
      rintro refs walk ⟨places, distinct, inside, rfl⟩
      refine ⟨place.toList ++ places, List.nodup_append.mpr ⟨?_, distinct, ?_⟩, ?_, ?_⟩
      · cases place <;> simp
      · rintro i here _ there rfl
        exact (passed i (Option.mem_toList.mp here)).2 (inside i there)
      · intro i member
        rcases List.mem_append.mp member with here | there
        · exact (passed i (Option.mem_toList.mp here)).1
        · have := inside i there
          omega
      · cases place <;> simp

end RefWalk

end PackedBits
