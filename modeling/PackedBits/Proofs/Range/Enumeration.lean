import Mathlib.Data.Bool.Count
import Mathlib.Data.Nat.Choose.Basic
import PackedBits.Proofs.Range.Successor

/-! Stepping as an enumeration. A step back undoes a step, past the end of the order too. In the
sorted list of all arrangements of some bits the neighbour of each is the next one, since nothing
stands between the two, and that of the last is the first; so the steps from the first arrangement
on go through the list once and come back. -/
namespace PackedBits

def arrangements : Nat → Nat → List (List Bool)
  | 0, 0 => [[]]
  | 0, _ + 1 => []
  | n + 1, 0 => (arrangements n 0).map (false :: ·)
  | n + 1, ones + 1 =>
      (arrangements n (ones + 1)).map (false :: ·) ++ (arrangements n ones).map (true :: ·)

theorem mem_arrangements {n ones : Nat} {bits : List Bool} :
    bits ∈ arrangements n ones ↔ bits.length = n ∧ bits.count true = ones := by
  fun_induction arrangements n ones generalizing bits with
  | case1 => cases bits <;> simp
  | case2 ones => cases bits <;> simp
  | case3 n ih =>
      cases bits with
      | nil => simp
      | cons bit rest => cases bit <;> simp [ih]
  | case4 n ones ihClear ihSet =>
      cases bits with
      | nil => simp
      | cons bit rest => cases bit <;> simp [ihClear, ihSet]

theorem length_arrangements (n ones : Nat) : (arrangements n ones).length = n.choose ones := by
  fun_induction arrangements n ones with
  | case1 => rfl
  | case2 ones => rfl
  | case3 n ih => rw [List.length_map, ih, Nat.choose_zero_right, Nat.choose_zero_right]
  | case4 n ones ihClear ihSet =>
      rw [List.length_append, List.length_map, List.length_map, ihClear, ihSet,
        Nat.choose_succ_succ, Nat.add_comm]

theorem sorted_map_cons (bit : Bool) {lists : List (List Bool)}
    (sorted : lists.Pairwise (· < ·)) : (lists.map (bit :: ·)).Pairwise (· < ·) := by
  rw [List.pairwise_map]
  exact sorted.imp fun before => List.cons_lt_cons_iff.mpr (.inr ⟨rfl, before⟩)

theorem sorted_arrangements (n ones : Nat) : (arrangements n ones).Pairwise (· < ·) := by
  fun_induction arrangements n ones with
  | case1 => exact List.pairwise_singleton _ _
  | case2 ones => exact List.Pairwise.nil
  | case3 n ih => exact sorted_map_cons false ih
  | case4 n ones ihClear ihSet =>
      refine List.pairwise_append.mpr ⟨sorted_map_cons false ihClear, sorted_map_cons true ihSet, ?_⟩
      intro a clear b set
      obtain ⟨rest, -, rfl⟩ := List.mem_map.mp clear
      obtain ⟨rest', -, rfl⟩ := List.mem_map.mp set
      exact List.cons_lt_cons_iff.mpr (.inl (by decide))

theorem perm_iff_length_count {a b : List Bool} :
    a.Perm b ↔ a.length = b.length ∧ a.count true = b.count true := by
  constructor
  · exact fun perm => ⟨perm.length_eq, perm.count_eq true⟩
  · rintro ⟨length, count⟩
    refine List.perm_iff_count.mpr fun bit => ?_
    cases bit with
    | true => exact count
    | false =>
        have clear := List.count_false_add_count_true a
        have clear' := List.count_false_add_count_true b
        omega

/-- A sorted list of all the arrangements of the bits of any of its members. -/
structure Listing (lists : List (List Bool)) : Prop where
  sorted : lists.Pairwise (· < ·)
  complete : ∀ a ∈ lists, ∀ b, b ∈ lists ↔ b.Perm a

theorem listing_arrangements (n ones : Nat) : Listing (arrangements n ones) where
  sorted := sorted_arrangements n ones
  complete a member b := by
    obtain ⟨length, count⟩ := mem_arrangements.mp member
    rw [mem_arrangements, perm_iff_length_count, length, count]

namespace Listing
variable {before after rest : List (List Bool)} {bits next first : List Bool}

theorem neighbour_next (listing : Listing (before ++ bits :: next :: after)) :
    neighbour false bits = (next, true) := by
  obtain ⟨-, back, cross⟩ := List.pairwise_append.mp listing.sorted
  obtain ⟨behind, back⟩ := List.pairwise_cons.mp back
  have complete := listing.complete bits (by simp)
  have leads : LeadsTo (fun a b => a < b) bits _ _ := neighbour_leadsTo false bits
  have further : (neighbour false bits).2 = true :=
    leads.answer.mpr ⟨next, (complete next).mp (by simp), behind next (by simp)⟩
  obtain ⟨greater, least⟩ := leads.next further
  refine Prod.ext ?_ further
  rcases List.mem_append.mp ((complete _).mpr leads.arrangement) with early | late
  · exact absurd greater (List.lt_asymm (cross _ early bits List.mem_cons_self))
  · rcases List.mem_cons.mp late with same | late
    · rw [same] at greater
      exact absurd greater (List.lt_irrefl bits)
    · rcases List.mem_cons.mp late with same | late
      · exact same
      · exact absurd ((List.pairwise_cons.mp back).1 _ late)
          (least next ((complete next).mp (by simp)) (behind next (by simp)))

theorem neighbour_last (listing : Listing (first :: rest)) (last : first :: rest = before ++ [bits]) :
    neighbour false bits = (first, false) := by
  have sorted := listing.sorted
  have complete := listing.complete bits (by rw [last]; simp)
  have leads : LeadsTo (fun a b => a < b) bits _ _ := neighbour_leadsTo false bits
  have none : (neighbour false bits).2 = false := by
    rw [← Bool.not_eq_true]
    intro further
    obtain ⟨other, perm, greater⟩ := leads.answer.mp further
    have member := (complete other).mpr perm
    rw [last] at member sorted
    rcases List.mem_append.mp member with early | here
    · exact List.lt_asymm ((List.pairwise_append.mp sorted).2.2 other early bits (by simp)) greater
    · rw [List.mem_singleton.mp here] at greater
      exact List.lt_irrefl bits greater
  refine Prod.ext ?_ none
  rcases List.mem_cons.mp ((complete _).mpr leads.arrangement) with same | late
  · exact same
  · exact absurd ((List.pairwise_cons.mp sorted).1 _ late)
      (leads.first none first ((complete first).mp List.mem_cons_self))

end Listing

theorem arrangements_eq_cons {n ones : Nat} (within : ones ≤ n) : ∃ rest, arrangements n ones =
    (List.replicate (n - ones) false ++ List.replicate ones true) :: rest := by
  have listing := listing_arrangements n ones
  have member : List.replicate (n - ones) false ++ List.replicate ones true ∈
      arrangements n ones := by
    rw [mem_arrangements]
    simp [List.count_replicate]
    omega
  cases shape : arrangements n ones with
  | nil => simp [shape] at member
  | cons first rest =>
      rw [shape] at member listing
      have perm := (listing.complete _ member first).mp List.mem_cons_self
      refine ⟨rest, ?_⟩
      rcases List.mem_cons.mp member with same | late
      · rw [same]
      · have before : first < _ := (List.pairwise_cons.mp listing.sorted).1 _ late
        have least : ¬ first < _ := not_precedes_first perm
        exact absurd before least

theorem neighbour_neighbour (small : Bool) (bits : List Bool) :
    neighbour (!small) (neighbour small bits).1 = (bits, (neighbour small bits).2) := by
  rcases arranged_cases small bits with ⟨bigs, smalls, rfl⟩ | ⟨front, bigs, smalls, rfl⟩
  · rw [neighbour_wraps]
    have back := neighbour_wraps (!small) smalls bigs
    rwa [Bool.not_not] at back
  · rw [neighbour_steps]
    have back := neighbour_steps (!small) front smalls bigs
    rwa [Bool.not_not] at back

section
variable {μ : Type} {w : Nat} [Memory μ w]

/-- Steps a run forward so many times. What it holds before each step and what each step answers are
noted. -/
def tour (m : μ) (p : Cursor w) (n : Nat) : Nat → Option (μ × List (List Bool) × List Bool)
  | 0 => some (m, [], [])
  | steps + 1 => do
    let (m', further) ← nextPermutation m p n
    let (last, visited, answers) ← tour m' p n steps
    return (last, runBits m p n :: visited, further :: answers)

theorem tour_step {m m' last : μ} {p : Cursor w} {n steps : Nat} {further : Bool}
    {visited : List (List Bool)} {answers : List Bool}
    (stepped : nextPermutation m p n = some (m', further))
    (toured : tour m' p n steps = some (last, visited, answers)) :
    tour m p n (steps + 1) = some (last, runBits m p n :: visited, further :: answers) := by
  rw [tour, stepped]
  simp [toured]

variable [LawfulMemory μ w]

theorem tour_listing {p : Cursor w} {n : Nat} {first : List Bool}
    {rest after : List (List Bool)} {m : μ} (listing : Listing (first :: rest))
    (before : List (List Bool)) (held : Holds m p n) (whole : first :: rest = before ++ runBits m p n :: after) :
    ∃ m', tour m p n (after.length + 1) = some (m', runBits m p n :: after,
        List.replicate after.length true ++ [false]) ∧
      runBits m' p n = first ∧ Altered m m' (p.Covers n) := by
  induction after generalizing before m with
  | nil =>
      obtain ⟨m', ran, became, altered⟩ := (arrange_overwritten m p n false held).takes held
      rw [listing.neighbour_last whole] at ran became
      exact ⟨m', tour_step ran rfl, became, altered⟩
  | cons next after ih =>
      obtain ⟨m', ran, became, altered⟩ := (arrange_overwritten m p n false held).takes held
      have step : neighbour false (runBits m p n) = (next, true) :=
        Listing.neighbour_next (whole ▸ listing)
      rw [step] at ran became
      obtain ⟨m'', toured, back, altered'⟩ := ih (before ++ [runBits m p n])
        (altered.holds held) (by rw [whole, became, List.append_assoc]; rfl)
      rw [became] at toured
      exact ⟨m'', tour_step ran toured, back, altered.trans altered'⟩

theorem arrange_back (m : μ) (p : Cursor w) (n : Nat) (backward : Bool) (held : Holds m p n) :
    ∃ m' m'' further, arrange m p n backward = some (m', further) ∧
      arrange m' p n (!backward) = some (m'', further) ∧ Restored m m'' := by
  obtain ⟨m', ran, became, altered⟩ := (arrange_overwritten m p n backward held).takes held
  have held' := altered.holds held
  obtain ⟨m'', ran', became', altered'⟩ :=
    (arrange_overwritten m' p n (!backward) held').takes held'
  rw [became, neighbour_neighbour] at ran' became'
  exact ⟨m', m'', _, ran, ran', (altered.trans altered').restored held became'⟩

end

/-- Stepping forward and backward undo each other with one answer, past the ends too. From the
arrangement with the clear bits in front as many steps forward as there are arrangements visit each
of them once, in increasing order; all but the last one answer that they went on, and that one leads
back to the start. Fewer than two bits are never stepped. -/
theorem permutation_steps_enumerate {μ : Type} {w : Nat} [Memory μ w] [LawfulMemory μ w] (m : μ)
    (p : Cursor w) (n : Nat) (held : Holds m p n) :
    (∃ m' m'' further, nextPermutation m p n = some (m', further) ∧
      prevPermutation m' p n = some (m'', further) ∧ Restored m m'') ∧
    (∃ m' m'' further, prevPermutation m p n = some (m', further) ∧
      nextPermutation m' p n = some (m'', further) ∧ Restored m m'') ∧
    (∀ ones, runBits m p n = List.replicate (n - ones) false ++ List.replicate ones true →
      ∃ m' visited, tour m p n (n.choose ones) =
          some (m', visited, List.replicate (n.choose ones - 1) true ++ [false]) ∧
        visited.length = n.choose ones ∧ visited.Pairwise (· < ·) ∧
        (∀ bits, bits ∈ visited ↔ bits.length = n ∧ bits.count true = ones) ∧
        Restored m m') ∧
    (n < 2 → nextPermutation m p n = some (m, false) ∧ prevPermutation m p n = some (m, false)) := by
  refine ⟨arrange_back m p n false held, arrange_back m p n true held, ?_,
    fun short => ⟨if_pos short, if_pos short⟩⟩
  intro ones start
  have within : ones ≤ n := by
    have length := congrArg List.length start
    simp only [length_runBits, List.length_append, List.length_replicate] at length
    omega
  have listing := listing_arrangements n ones
  obtain ⟨rest, shape⟩ := arrangements_eq_cons within
  rw [← start] at shape
  have count : rest.length + 1 = n.choose ones := by
    rw [← length_arrangements, shape, List.length_cons]
  rw [shape] at listing
  obtain ⟨m', toured, back, altered⟩ := tour_listing listing [] held rfl
  rw [count, show rest.length = n.choose ones - 1 by omega, ← shape] at toured
  exact ⟨m', _, toured, length_arrangements n ones, sorted_arrangements n ones,
    fun _ => mem_arrangements, altered.restored held back⟩

/-- Four bits across two bytes, half of them set. -/
theorem permutation_steps_enumerate_across_two_words :
    let m : Buffers 8 := ⟨#[#[0x15#8, 0xFF#8]]⟩
    let p : Cursor 8 := ⟨0, 0, 6, by decide⟩
    Holds m p 4 ∧ ∃ m' visited,
      tour m p 4 6 = some (m', visited, [true, true, true, true, true, false]) ∧
        visited.length = 6 ∧ Restored m m' := by
  intro m p
  have held : Holds m p 4 := by decide
  have start : runBits m p 4 = List.replicate (4 - 2) false ++ List.replicate 2 true := by decide
  obtain ⟨m', visited, toured, length, -, -, restored⟩ :=
    (permutation_steps_enumerate m p 4 held).2.2.1 2 start
  exact ⟨held, m', visited, toured, length, restored⟩

end PackedBits
