import PackedBits.Walk.Ones
import PackedBits.Proofs.Range.Count
import PackedBits.Proofs.Span.OnList

/-! The walk over set positions. What it has before it is the list of set positions between its two
ends; stepping takes the first of them, and its length, counted or kept, is that of the list. -/
namespace PackedBits

section
variable {test : Nat → Bool} {start n : Nat}

theorem filter_range'_none (clear : ∀ i < n, test (start + i) = false) :
    (List.range' start n).filter test = [] := by
  refine List.filter_eq_nil_iff.mpr fun i member => ?_
  obtain ⟨low, high⟩ := List.mem_range'_1.mp member
  have missed := clear (i - start) (by omega)
  rw [Nat.add_sub_cancel' low] at missed
  rw [missed]
  exact Bool.false_ne_true

theorem filter_range'_first {k : Nat} (below : k < n) (before : ∀ i < k, test (start + i) = false)
    (hit : test (start + k) = true) :
    (List.range' start n).filter test =
      (start + k) :: (List.range' (start + k + 1) (n - (k + 1))).filter test := by
  have rest : n - k = n - (k + 1) + 1 := by omega
  have split := List.range'_append_1 (s := start) (m := k) (n := n - k)
  rw [Nat.add_sub_cancel' (Nat.le_of_lt below)] at split
  rw [← split, List.filter_append, filter_range'_none before, List.nil_append, rest,
    List.range'_succ, List.filter_cons_of_pos hit]

theorem filter_range'_last {k : Nat} (below : k < n)
    (after : ∀ i, k < i → i < n → test (start + i) = false) (hit : test (start + k) = true) :
    (List.range' start n).filter test = (List.range' start k).filter test ++ [start + k] := by
  have behind : ∀ i < n - (k + 1), test (start + k + 1 + i) = false := by
    intro i within
    rw [Nat.add_assoc, Nat.add_assoc]
    exact after (k + (1 + i)) (by omega) (by omega)
  have split := List.range'_append_1 (s := start) (m := k) (n := n - k)
  rw [Nat.add_sub_cancel' (Nat.le_of_lt below)] at split
  rw [← split, List.filter_append, show n - k = n - (k + 1) + 1 by omega, List.range'_succ,
    List.filter_cons_of_pos hit, filter_range'_none behind]

theorem length_filter_range' :
    ((List.range' start n).filter test).length =
      (List.range n).countP fun i => test (start + i) := by
  rw [← List.countP_eq_length_filter, List.range'_eq_map_range, List.countP_map]
  rfl

end

def Span.places {w : Nat} (s : Span w) : List Nat := (List.range' 0 s.len).filter s.bit

namespace OnesWalk
variable {w : Nat} {walk : OnesWalk w}

def rest (walk : OnesWalk w) : List Nat :=
  (List.range' walk.front (walk.back - walk.front)).filter walk.source.bit

/-- A walk that stays inside its span and, once it has counted, has counted right. -/
structure Sound (walk : OnesWalk w) : Prop where
  held : walk.source.Held
  inside : walk.back ≤ walk.source.len
  counted : ∀ left ∈ walk.left, left = walk.rest.length

theorem rest_ascending (walk : OnesWalk w) : walk.rest.Pairwise (· < ·) :=
  List.Pairwise.filter _ List.pairwise_lt_range'

theorem rest_of_le (met : walk.back ≤ walk.front) : walk.rest = [] := by
  rw [rest, Nat.sub_eq_zero_of_le met]
  rfl

theorem rest_exhaust (walk : OnesWalk w) : walk.exhaust.rest = [] := rest_of_le (Nat.le_refl _)

theorem Sound.exhaust (sound : walk.Sound) : walk.exhaust.Sound where
  held := sound.held
  inside := sound.inside
  counted := by
    rintro left ⟨⟩
    rw [rest_exhaust]
    rfl

theorem Sound.counted_less {n : Nat} (sound : walk.Sound) (total : walk.rest.length = n + 1) :
    ∀ left ∈ walk.left.map (· - 1), left = n := by
  intro left known
  obtain ⟨before, counted, rfl⟩ := Option.map_eq_some_iff.mp known
  rw [sound.counted before counted, total]
  rfl

theorem ones_sound {s : Span w} (held : s.Held) : s.ones.Sound := ⟨held, Nat.le_refl _, nofun⟩

variable [HasBits w]

theorem remaining_ok {α : Type} {question : Buffers w → Cursor w → Nat → Option α} {value : α}
    (answer : question walk.source.buffers (walk.source.first + walk.front)
      (walk.back - walk.front) = some value) :
    remaining question walk = .ok value walk :=
  Attempt.ask_ok (congrArg Query.access answer)

theorem Sound.holds (sound : walk.Sound) (apart : walk.front < walk.back) :
    Holds walk.source.buffers (walk.source.first + walk.front) (walk.back - walk.front) := by
  have inside := sound.inside
  exact (Span.holds_first sound.held).part (by omega)

theorem Sound.bits_rest (sound : walk.Sound) {i : Nat} (below : i < walk.back - walk.front) :
    bitsAt walk.source.buffers (walk.source.first + walk.front) i =
      walk.source.bit (walk.front + i) := by
  have inside := sound.inside
  rw [bitsAt_forward]
  exact Span.bitsAt_first sound.held (by omega)

theorem Sound.next_cases (sound : walk.Sound) :
    (walk.rest = [] ∧ ∃ walk', next walk = .ok none walk' ∧ walk'.Sound ∧ walk'.rest = []) ∨
      ∃ place later walk', walk.rest = place :: later ∧ next walk = .ok (some place) walk' ∧
        walk'.Sound ∧ walk'.rest = later := by
  by_cases met : walk.back ≤ walk.front
  · refine .inl ⟨rest_of_le met, walk, ?_, sound, rest_of_le met⟩
    rw [next, Attempt.get_bind_apply, if_pos met]
    rfl
  · obtain ⟨found, seen, first⟩ := find_spec walk.source.buffers (walk.source.first + walk.front)
      (walk.back - walk.front) true (sound.holds (Nat.lt_of_not_le met))
    have asked : remaining (fun m p n => find m p n true) walk = .ok found walk :=
      remaining_ok seen
    have within := first.within
    have before (i : Nat) (below : i < found) : walk.source.bit (walk.front + i) = false := by
      rw [← sound.bits_rest (by omega)]
      exact first.before i below
    by_cases none : found = walk.back - walk.front
    · refine .inl ⟨filter_range'_none (none ▸ before), walk.exhaust, ?_, sound.exhaust,
        rest_exhaust walk⟩
      rw [next, Attempt.get_bind_apply, if_neg met, Attempt.bind_apply asked, if_pos none]
      rfl
    · have below : found < walk.back - walk.front := by omega
      have hit : walk.source.bit (walk.front + found) = true := by
        rw [← sound.bits_rest below]
        exact first.hit below
      have split := filter_range'_first below before hit
      have size : walk.back - walk.front - (found + 1) = walk.back - (walk.front + found + 1) := by
        omega
      rw [size] at split
      refine .inr ⟨walk.front + found, _, { walk with
        front := walk.front + found + 1, left := walk.left.map (· - 1) }, split, ?_,
        ⟨sound.held, sound.inside, sound.counted_less (congrArg List.length split)⟩, rfl⟩
      rw [next, Attempt.get_bind_apply, if_neg met, Attempt.bind_apply asked, if_neg none]
      rfl

theorem Sound.nextBack_cases (sound : walk.Sound) :
    (walk.rest = [] ∧ ∃ walk', nextBack walk = .ok none walk' ∧ walk'.Sound ∧ walk'.rest = []) ∨
      ∃ earlier place walk', walk.rest = earlier ++ [place] ∧
        nextBack walk = .ok (some place) walk' ∧ walk'.Sound ∧ walk'.rest = earlier := by
  by_cases met : walk.back ≤ walk.front
  · refine .inl ⟨rest_of_le met, walk, ?_, sound, rest_of_le met⟩
    rw [nextBack, Attempt.get_bind_apply, if_pos met]
    rfl
  · obtain ⟨found, seen, last⟩ := findLast_spec walk.source.buffers
      (walk.source.first + walk.front) (walk.back - walk.front) true
      (sound.holds (Nat.lt_of_not_le met))
    have asked : remaining (fun m p n => findLast m p n true) walk = .ok found walk :=
      remaining_ok seen
    have within := last.within
    by_cases none : found = walk.back - walk.front
    · have clear (i : Nat) (below : i < walk.back - walk.front) :
          walk.source.bit (walk.front + i) = false := by
        rw [← sound.bits_rest below]
        exact last.none none i below
      refine .inl ⟨filter_range'_none clear, { walk with back := walk.front, left := some 0 }, ?_,
        ⟨sound.held, ?_, ?_⟩, rest_of_le (Nat.le_refl _)⟩
      · rw [nextBack, Attempt.get_bind_apply, if_neg met, Attempt.bind_apply asked, if_pos none]
        rfl
      · exact Nat.le_trans (Nat.le_of_not_le met) sound.inside
      · rintro left ⟨⟩
        rw [rest_of_le (Nat.le_refl _)]
        rfl
    · have below : found < walk.back - walk.front := by omega
      have hit : walk.source.bit (walk.front + found) = true := by
        rw [← sound.bits_rest below]
        exact last.hit below
      have after (i : Nat) (above : found < i) (inside : i < walk.back - walk.front) :
          walk.source.bit (walk.front + i) = false := by
        rw [← sound.bits_rest inside]
        exact last.after i above inside
      have split := filter_range'_last below after hit
      let walk' : OnesWalk w :=
        { walk with back := walk.front + found, left := walk.left.map (· - 1) }
      have earlier : walk'.rest = (List.range' walk.front found).filter walk.source.bit := by
        show (List.range' walk.front (walk.front + found - walk.front)).filter walk.source.bit = _
        rw [Nat.add_sub_cancel_left]
      rw [← earlier] at split
      have total : walk.rest.length = walk'.rest.length + 1 :=
        (congrArg List.length split).trans List.length_append
      refine .inr ⟨walk'.rest, walk.front + found, walk', split, ?_,
        ⟨sound.held, ?_, sound.counted_less total⟩, rfl⟩
      · rw [nextBack, Attempt.get_bind_apply, if_neg met, Attempt.bind_apply asked, if_neg none]
        rfl
      · have inside := sound.inside
        show walk.front + found ≤ walk.source.len
        omega

theorem Sound.length_spec (sound : walk.Sound) :
    ∃ walk', length walk = .ok walk.rest.length walk' ∧ walk'.Sound ∧ walk'.rest = walk.rest := by
  by_cases met : walk.back ≤ walk.front
  · refine ⟨walk, ?_, sound, rfl⟩
    rw [length, Attempt.get_bind_apply, if_pos met, rest_of_le met]
    rfl
  · rw [length, Attempt.get_bind_apply, if_neg met]
    cases kept : walk.left with
    | some left =>
        rw [← sound.counted left kept]
        exact ⟨walk, rfl, sound, rfl⟩
    | none =>
        have counted := count_eq true (sound.holds (Nat.lt_of_not_le met))
        have total : (List.range (walk.back - walk.front)).countP (fun i =>
            bitsAt walk.source.buffers (walk.source.first + walk.front) i == true) =
            walk.rest.length := by
          rw [rest, length_filter_range']
          exact countP_range_congr fun i below => by rw [sound.bits_rest below, beq_true]
        rw [total] at counted
        have asked : remaining (fun m p n => count m p n true) walk = .ok walk.rest.length walk :=
          remaining_ok counted
        refine ⟨{ walk with left := some walk.rest.length }, ?_, ⟨sound.held, sound.inside, ?_⟩, rfl⟩
        · show (remaining (fun m p n => count m p n true) >>= _) walk = _
          rw [Attempt.bind_apply asked]
          rfl
        · rintro left ⟨⟩
          rfl

end OnesWalk

end PackedBits
