import PackedBits.Walk.Bits
import PackedBits.Proofs.Span.Change
import PackedBits.Proofs.Walk.History

/-! Walks over a range of places, and the values that one over a span yields. Such a walk has no
state but its two ends and goes over the places between them: stepping moves one end by one place,
jumping by several at once. So it is a queue of what is at these places, and all that is left comes
from the back in reverse. -/
namespace PackedBits

section
variable {ι α : Type} [TwoWayWalk ι α]

/-- The walks `between` two places up to `n` move their ends and hand out what is at the places. -/
structure Ranged (n : Nat) (between : Nat → Nat → ι) (ends : ι → Nat × Nat) (value : Nat → α) :
    Prop where
  ends {a b : Nat} : a ≤ b → ends (between a b) = (a, b)
  next {a b : Nat} : a < b → b ≤ n →
    Walk.next (between a b) = .ok (some (value a)) (between (a + 1) b)
  nextBack {a b : Nat} : a < b → b ≤ n →
    TwoWayWalk.nextBack (between a b) = .ok (some (value (b - 1))) (between a (b - 1))
  met {a : Nat} : Walk.next (between a a) = .ok none (between a a)
  metBack {a : Nat} : TwoWayWalk.nextBack (between a a) = .ok none (between a a)
  hint {a b : Nat} : a ≤ b → Walk.hint (between a b) = .ok (SizeHint.exact (b - a)) (between a b)
  length {a b : Nat} : a ≤ b → TwoWayWalk.length (between a b) = .ok (b - a) (between a b)

namespace Ranged
variable {n : Nat} {between : Nat → Nat → ι} {ends : ι → Nat × Nat} {value : Nat → α}

def span (value : Nat → α) (a b : Nat) : List α := (List.range' a (b - a)).map value

/-- What a walk has before it. -/
def pending (ends : ι → Nat × Nat) (value : Nat → α) (walk : ι) : List α :=
  span value (ends walk).1 (ends walk).2

def Inside (n : Nat) (between : Nat → Nat → ι) (walk : ι) : Prop :=
  ∃ a b, a ≤ b ∧ b ≤ n ∧ walk = between a b

omit [TwoWayWalk ι α] in
theorem span_front (value : Nat → α) {a b : Nat} (more : a < b) :
    span value a b = value a :: span value (a + 1) b := by
  have size : b - a = b - (a + 1) + 1 := by omega
  rw [span, span, size, List.range'_succ, List.map_cons]

omit [TwoWayWalk ι α] in
theorem span_back (value : Nat → α) {a b : Nat} (more : a < b) :
    span value a b = span value a (b - 1) ++ [value (b - 1)] := by
  have size : b - a = b - 1 - a + 1 := by omega
  have last : a + 1 * (b - 1 - a) = b - 1 := by omega
  rw [span, span, size, List.range'_concat, List.map_append, last, List.map_singleton]

omit [TwoWayWalk ι α] in
theorem span_none (value : Nat → α) (a : Nat) : span value a a = [] := by
  rw [span, Nat.sub_self]
  rfl

omit [TwoWayWalk ι α] in
theorem getElem?_span (value : Nat → α) (a b k : Nat) :
    (span value a b)[k]? = if a + k < b then some (value (a + k)) else none := by
  rw [span, List.getElem?_map]
  by_cases inside : a + k < b
  · rw [if_pos inside, List.getElem?_range' (by omega), Option.map_some, Nat.one_mul]
  · rw [if_neg inside, List.getElem?_eq_none (by rw [List.length_range']; omega), Option.map_none]

omit [TwoWayWalk ι α] in
theorem drop_span (value : Nat → α) (a b k : Nat) :
    (span value a b).drop k = span value (a + k) b := by
  rw [span, span, ← List.map_drop, List.drop_range', Nat.mul_one, Nat.sub_sub]

variable (ranged : Ranged n between ends value)
include ranged

theorem pending_between {a b : Nat} (order : a ≤ b) :
    pending ends value (between a b) = span value a b := by
  rw [pending, ranged.ends order]

theorem length_pending {a b : Nat} (order : a ≤ b) :
    (pending ends value (between a b)).length = b - a := by
  rw [ranged.pending_between order, span, List.length_map, List.length_range']

theorem next_answers : Answers (Inside n between) (pending ends value)
    (Walk.next : Attempt ι (Option α)) fun list => (list.head?, list.tail) := by
  rintro walk ⟨a, b, order, inside, rfl⟩
  rcases Nat.eq_or_lt_of_le order with rfl | more
  · rw [ranged.pending_between order, span_none]
    refine ⟨between a a, ranged.met, ⟨a, a, order, inside, rfl⟩, ?_⟩
    rw [ranged.pending_between order, span_none]
    rfl
  · rw [ranged.pending_between order, span_front value more]
    exact ⟨between (a + 1) b, ranged.next more inside, ⟨a + 1, b, more, inside, rfl⟩,
      ranged.pending_between more⟩

theorem nextBack_answers : Answers (Inside n between) (pending ends value)
    (TwoWayWalk.nextBack : Attempt ι (Option α)) fun list => (list.getLast?, list.dropLast) := by
  rintro walk ⟨a, b, order, inside, rfl⟩
  rcases Nat.eq_or_lt_of_le order with rfl | more
  · rw [ranged.pending_between order, span_none]
    refine ⟨between a a, ranged.metBack, ⟨a, a, order, inside, rfl⟩, ?_⟩
    rw [ranged.pending_between order, span_none]
    rfl
  · have order' : a ≤ b - 1 := by omega
    rw [ranged.pending_between order, span_back value more]
    refine ⟨between a (b - 1), (ranged.nextBack more inside).trans ?_,
      ⟨a, b - 1, order', Nat.le_trans (Nat.sub_le b 1) inside, rfl⟩,
      (ranged.pending_between order').trans List.dropLast_concat.symm⟩
    show EStateM.Result.ok (some (value (b - 1))) (between a (b - 1)) =
      .ok (span value a (b - 1) ++ [value (b - 1)]).getLast? (between a (b - 1))
    rw [List.getLast?_concat]

theorem queue
    (nth : ∀ k, Answers (Inside n between) (pending ends value)
      (Walk.nth k : Attempt ι (Option α)) fun list => (list[k]?, list.drop (k + 1)))
    (nthBack : ∀ k, (TwoWayWalk.nthBack k : Attempt ι (Option α)) =
      Walk.skipping TwoWayWalk.nextBack k) :
    TwoWayWalk.IsQueue (Inside n between) (pending ends value) where
  next := ranged.next_answers
  nth := nth
  hint := by
    rintro walk ⟨a, b, order, inside, rfl⟩
    refine ⟨between a b, (ranged.hint order).trans ?_, ⟨a, b, order, inside, rfl⟩, rfl⟩
    rw [← ranged.length_pending order]
  nextBack := ranged.nextBack_answers
  nthBack k := by
    rw [nthBack k]
    exact TwoWayWalk.skipping_back ranged.nextBack_answers k
  length := by
    rintro walk ⟨a, b, order, inside, rfl⟩
    refine ⟨between a b, (ranged.length order).trans ?_, ⟨a, b, order, inside, rfl⟩, rfl⟩
    rw [← ranged.length_pending order]

theorem converse (queue : TwoWayWalk.IsQueue (Inside n between) (pending ends value))
    (calls : List TwoWayWalk.Call) :
    ∃ walk, TwoWayWalk.converse calls (between 0 n) =
      .ok ((Queue.serveAll calls (List.range n)).1.map (.map value)) walk := by
  obtain ⟨walk, ran, -⟩ := queue.converse calls (between 0 n)
    ⟨0, n, Nat.zero_le n, Nat.le_refl n, rfl⟩
  rw [ranged.pending_between (Nat.zero_le n), span, Nat.sub_zero, ← List.range_eq_range',
    Queue.serveAll_map] at ran
  exact ⟨walk, ran⟩

end Ranged

end

section
variable {w : Nat}

theorem toNat_forward_sub (p : Cursor w) (a : Nat) : ((p + a) - p : Int).toNat = a := by
  rw [Cursor.distanceFrom_eq, Cursor.position_forward]
  omega

theorem toNat_forward_sub_forward (p : Cursor w) (a b : Nat) :
    ((p + b) - (p + a) : Int).toNat = b - a := by
  rw [Cursor.distanceFrom_eq, Cursor.position_forward, Cursor.position_forward]
  omega

end

namespace BitWalk
variable {w : Nat} [HasBits w] {s : Span w} {a b : Nat}

def between (s : Span w) (a b : Nat) : BitWalk w := ⟨s, s.first + a, s.first + b⟩

def ends (walk : BitWalk w) : Nat × Nat :=
  ((walk.front - walk.source.first).toNat, (walk.back - walk.source.first).toNat)

theorem next_between (held : s.Held) (more : a < b) (inside : b ≤ s.len) :
    next (between s a b) = .ok (some (s.bit a)) (between s (a + 1) b) := by
  have apart : (between s a b).front ≠ (between s a b).back := fun same =>
    Nat.ne_of_lt more ((Cursor.forward_inj _).mp same)
  have value : s.read (fun m => readBit m (s.first + a)) = .ok (s.bit a) :=
    Span.bitAt_eq held (Nat.lt_of_lt_of_le more inside)
  have asked : valueAt (s.first + a) (between s a b) = .ok (s.bit a) (between s a b) :=
    Attempt.ask_ok value
  have after : between s (a + 1) b = ⟨s, (s.first + a).next, s.first + b⟩ := by
    rw [between, Cursor.next_forward]
  rw [next, Attempt.get_bind_apply, if_neg apart, after]
  exact Attempt.bind_apply asked

theorem nextBack_between (held : s.Held) (more : a < b) (inside : b ≤ s.len) :
    nextBack (between s a b) = .ok (some (s.bit (b - 1))) (between s a (b - 1)) := by
  have apart : (between s a b).front ≠ (between s a b).back := fun same =>
    Nat.ne_of_lt more ((Cursor.forward_inj _).mp same)
  have back := s.first.previous_forward (Nat.zero_lt_of_lt more)
  have value : s.read (fun m => readBit m (s.first + b).previous) = .ok (s.bit (b - 1)) := by
    rw [back]
    exact Span.bitAt_eq held (by omega)
  have after : between s a (b - 1) = ⟨s, s.first + a, (s.first + b).previous⟩ := by
    rw [between, back]
  have asked : valueAt (s.first + b).previous (between s a (b - 1)) =
      .ok (s.bit (b - 1)) (between s a (b - 1)) := Attempt.ask_ok value
  rw [nextBack, Attempt.get_bind_apply, if_neg apart]
  show (valueAt (s.first + b).previous >>= fun value => pure (some value) :
    Attempt (BitWalk w) _) ⟨s, s.first + a, (s.first + b).previous⟩ = _
  rw [← after, Attempt.bind_apply asked]
  rfl

theorem ranged (held : s.Held) : Ranged s.len (between s) ends s.bit where
  ends _ := Prod.ext (toNat_forward_sub s.first _) (toNat_forward_sub s.first _)
  next := next_between held
  nextBack := nextBack_between held
  met {a} := by
    have met : (between s a a).front = (between s a a).back := rfl
    show next (between s a a) = _
    rw [next, Attempt.get_bind_apply, if_pos met]
    rfl
  metBack {a} := by
    have met : (between s a a).front = (between s a a).back := rfl
    show nextBack (between s a a) = _
    rw [nextBack, Attempt.get_bind_apply, if_pos met]
    rfl
  hint {a b} _ := congrArg (fun n => EStateM.Result.ok (SizeHint.exact n) (between s a b))
    (toNat_forward_sub_forward s.first a b)
  length {a b} _ := congrArg (fun n => EStateM.Result.ok n (between s a b))
    (toNat_forward_sub_forward s.first a b)

theorem nth_answers (held : s.Held) (k : Nat) :
    Answers (Ranged.Inside s.len (between s)) (Ranged.pending ends s.bit)
      (nth k : Attempt (BitWalk w) (Option Bool)) fun list => (list[k]?, list.drop (k + 1)) := by
  rintro walk ⟨a, b, order, inside, rfl⟩
  have size : (between s a b).length = b - a := toNat_forward_sub_forward s.first a b
  show ∃ walk', nth k (between s a b) = .ok (Ranged.pending ends s.bit (between s a b))[k]? walk' ∧
    _ ∧ _ = (Ranged.pending ends s.bit (between s a b)).drop (k + 1)
  rw [(ranged held).pending_between order, Ranged.getElem?_span, Ranged.drop_span]
  by_cases short : b - a ≤ k
  · refine ⟨between s b b, ?_, ⟨b, b, Nat.le_refl b, inside, rfl⟩, ?_⟩
    · rw [nth, Attempt.get_bind_apply, size, if_pos short, if_neg (by omega)]
      rfl
    · have none : b - (a + (k + 1)) = b - b := by omega
      rw [(ranged held).pending_between (Nat.le_refl b), Ranged.span, Ranged.span, none,
        Nat.sub_self]
      rfl
  · have more : a + k < b := by omega
    refine ⟨between s (a + k + 1) b, ?_, ⟨a + k + 1, b, more, inside, rfl⟩,
      (ranged held).pending_between more⟩
    have stepped := next_between held more inside
    rw [between, ← Cursor.forward_forward] at stepped
    rw [nth, Attempt.get_bind_apply, size, if_neg short, if_pos more]
    exact stepped

theorem queue (held : s.Held) :
    TwoWayWalk.IsQueue (Ranged.Inside s.len (between s)) (Ranged.pending ends s.bit) :=
  (ranged held).queue (nth_answers held) fun _ => rfl

theorem walk_eq (s : Span w) : s.walk = between s 0 s.len := by
  rw [between, Cursor.forward_zero]
  rfl

theorem drainBack_eq (held : s.Held) :
    ∃ walk, TwoWayWalk.drainBack s.walk = .ok s.toList.reverse walk := by
  rw [walk_eq]
  obtain ⟨walk, ran, -⟩ := (queue held).drainBack (between s 0 s.len)
    ⟨0, s.len, Nat.zero_le _, Nat.le_refl _, rfl⟩
  rw [(ranged held).pending_between (Nat.zero_le _), Ranged.span, Nat.sub_zero,
    ← List.range_eq_range'] at ran
  exact ⟨walk, ran⟩

end BitWalk

end PackedBits
