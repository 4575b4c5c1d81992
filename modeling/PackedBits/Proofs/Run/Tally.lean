import Mathlib.Data.Bool.Count
import PackedBits.Proofs.Range.Count
import PackedBits.Proofs.Run.Locality

/-! Counting the bits that hold a value. The count of a run is that of its list of bits, so what is
known of lists carries over: the two values share the run between them, and the counts of two runs
that follow one another add up, wherever the words end. A container counts its list, the whole of it
or a part that bounds cut out. -/
namespace PackedBits

section
variable {μ : Type} {w : Nat} [Memory μ w] {m : μ} {p : Cursor w} {n : Nat}

theorem runBits_add (m : μ) (p : Cursor w) (a b : Nat) :
    runBits m p (a + b) = runBits m p a ++ runBits m (p + a) b := by
  have behind : runBits m (p + a) b = (List.range b).map fun i => bitsAt m p (a + i) :=
    List.map_congr_left fun i _ => bitsAt_forward m p a i
  rw [behind, runBits, List.range_add, List.map_append, List.map_map]
  rfl

theorem runBits_part (m : μ) (p : Cursor w) {a k : Nat} (within : a + k ≤ n) :
    runBits m (p + a) k = ((runBits m p n).drop a).take k := by
  obtain ⟨rest, rfl⟩ := Nat.exists_eq_add_of_le within
  have front := length_runBits m p a
  rw [Nat.add_assoc, runBits_add m p a, List.drop_left' front, runBits_add m (p + a) k,
    List.take_left' (length_runBits m (p + a) k)]

theorem count_eq_count_runBits (value : Bool) (held : Holds m p n) :
    count m p n value = some ((runBits m p n).count value) := by
  rw [count_eq value held, runBits, List.count, List.countP_map]
  rfl

end

namespace Span
variable {w : Nat} [HasBits w] {s : Span w}

theorem countOnes_eq_count (held : s.Held) : s.countOnes = .ok (s.toList.count true) := by
  have counted := count_eq_count_runBits true (holds_first held)
  rw [runBits, map_bitsAt_first held] at counted
  exact congrArg Query.access counted

theorem countZeros_eq_count (held : s.Held) : s.countZeros = .ok (s.toList.count false) := by
  have both := List.count_true_add_count_false s.toList
  rw [length_toList] at both
  have others : s.len - s.toList.count true = s.toList.count false := by omega
  rw [countZeros, countOnes_eq_count held, ← others]
  rfl

theorem countOnesIn_eq_count (held : s.Held) (bounds : Bounds) :
    s.countOnesIn bounds = (bounds.resolve s.len).map fun extent =>
      ((s.toList.drop extent.start).take extent.size).count true := by
  rw [countOnesIn]
  cases resolved : bounds.resolve s.len with
  | error failure => rfl
  | ok extent =>
      obtain ⟨order, inside⟩ := Bounds.resolve_within resolved
      have within : extent.start + extent.size ≤ s.len := by
        rw [Extent.start_add_size order]
        exact inside
      have counted := count_eq_count_runBits true ((holds_first held).part within)
      rw [runBits_part s.buffers s.first within, runBits, map_bitsAt_first held] at counted
      exact congrArg Query.access counted

theorem rank_eq_count (held : s.Held) {index : Nat} (within : index ≤ s.len) :
    s.rank index = .ok ((s.toList.take index).count true) := by
  rw [rank, countOnesIn_eq_count held, Bounds.resolve_below within]
  rfl

end Span

/-- A count is the number of places of a run that hold the value; the counts of the two values make
up its length, and the counts of two runs that follow one another that of both together. A container
counts its bits: the set ones, the clear ones, the set ones inside of bounds and those below a
place. -/
theorem counts_are_exact {w : Nat} :
    (∀ {μ : Type} [Memory μ w] (m : μ) (p : Cursor w) (n : Nat), Holds m p n →
      (∀ value, count m p n value = some ((List.range n).countP fun i => bitsAt m p i == value)) ∧
      (∃ set clear, count m p n true = some set ∧ count m p n false = some clear ∧
        set + clear = n) ∧
      ∀ value a b, a + b = n → ∃ front back, count m p a value = some front ∧
        count m (p + a) b value = some back ∧ count m p n value = some (front + back)) ∧
    ∀ [HasBits w] (host : Host w),
      host.span.countOnes = .ok (host.bits.count true) ∧
      host.span.countZeros = .ok (host.bits.count false) ∧
      (∀ bounds, host.span.countOnesIn bounds = (bounds.resolve host.bits.length).map fun extent =>
        ((host.bits.drop extent.start).take extent.size).count true) ∧
      ∀ index ≤ host.bits.length,
        host.span.rank index = .ok ((host.bits.take index).count true) := by
  refine ⟨fun m p n held => ⟨fun value => count_eq value held, ?_, ?_⟩, fun host => ?_⟩
  · refine ⟨_, _, count_eq_count_runBits true held, count_eq_count_runBits false held, ?_⟩
    rw [List.count_true_add_count_false, length_runBits]
  · rintro value a b rfl
    refine ⟨_, _, count_eq_count_runBits value (held.lower (Nat.le_add_right a b)),
      count_eq_count_runBits value (held.part (Nat.le_refl _)), ?_⟩
    rw [count_eq_count_runBits value held, runBits_add, List.count_append]
  · have length : host.bits.length = host.span.len := Span.length_toList host.span
    rw [length]
    exact ⟨Span.countOnes_eq_count host.held, Span.countZeros_eq_count host.held,
      Span.countOnesIn_eq_count host.held, fun index => Span.rank_eq_count host.held⟩

/-- Forty bits from the middle of a byte on, with one lane of bytes in them, taken whole and split
inside of the third byte, and the nine places of a view over two bytes. -/
theorem counts_are_exact_across_bytes :
    let m : Buffers 8 := ⟨#[#[0xF7#8, 0x3C#8, 0xA5#8, 0x00#8, 0x8F#8, 0xEA#8]]⟩
    let p : Cursor 8 := ⟨0, 0, 5, by decide⟩
    let view : Host 8 := .view ⟨#[0x2D#8, 0xFF#8], 9⟩ (by decide)
    Holds m p 40 ∧ count m p 40 true = some 18 ∧ count m p 40 false = some 22 ∧
      (∃ front back, count m p 14 true = some front ∧ count m (p + 14) 26 true = some back ∧
        some 18 = some (front + back)) ∧
      view.span.countOnes = .ok 5 ∧ view.span.countZeros = .ok 4 ∧ view.span.rank 4 = .ok 3 := by
  intro m p view
  have held : Holds m p 40 := by decide
  obtain ⟨both, -, split⟩ := counts_are_exact.1 m p 40 held
  have set : count m p 40 true = some 18 := (both true).trans (by decide)
  obtain ⟨front, back, first, second, whole⟩ := split true 14 26 rfl
  obtain ⟨ones, zeros, -, ranks⟩ := counts_are_exact.2 view
  exact ⟨held, set, (both false).trans (by decide), ⟨front, back, first, second, set ▸ whole⟩,
    ones.trans (by decide), zeros.trans (by decide), (ranks 4 (by decide)).trans (by decide)⟩

end PackedBits
