import PackedBits.Proofs.Walk.Places

/-! Filtering the set positions of a container. A predicate with a state of its own is asked about
the set positions, one after the other, and a position stays set if it says so. Which questions are
asked, and in which order, is read off a predicate that takes them down: it is asked what the
predicate inside it is asked, and the positions in its record are those that were set before the
first question, in ascending order. -/
namespace PackedBits

section
variable {τ : Type} (keep : Nat → τ → Bool × τ)

/-- Asks about the places of a list in their order: each place with its answer, and the state after
the last question. -/
def interview : List Nat → τ → List (Nat × Bool) × τ
  | [], state => ([], state)
  | place :: rest, state =>
      let answer := keep place state
      let later := interview rest answer.2
      ((place, answer.1) :: later.1, later.2)

/-- A predicate that takes down what it is asked and what it answers. -/
def recorded (place : Nat) (noted : τ × List (Nat × Bool)) : Bool × τ × List (Nat × Bool) :=
  let answer := keep place noted.1
  (answer.1, answer.2, noted.2 ++ [(place, answer.1)])

theorem interview_places (places : List Nat) (state : τ) :
    (interview keep places state).1.map Prod.fst = places := by
  induction places generalizing state with
  | nil => rfl
  | cons place rest ih => simp [interview, ih]

theorem mem_of_interview {places : List Nat} {state : τ} {place : Nat} {answer : Bool}
    (asked : (place, answer) ∈ (interview keep places state).1) : place ∈ places := by
  have named := List.mem_map_of_mem (f := Prod.fst) asked
  rwa [interview_places] at named

theorem interview_recorded (places : List Nat) (state : τ) (noted : List (Nat × Bool)) :
    interview (recorded keep) places (state, noted) =
      ((interview keep places state).1, (interview keep places state).2,
        noted ++ (interview keep places state).1) := by
  induction places generalizing state noted with
  | nil => simp [interview]
  | cons place rest ih => simp [interview, recorded, ih]

/-- What is left of the bits at the places from `start` on is set where the answer was yes. -/
theorem retain_eq_interview (test : Nat → Bool) (n start : Nat) (state : τ) :
    let places := (List.range' start n).filter test
    OnList.retain keep start ((List.range' start n).map test) state =
      ((interview keep places state).2,
        (List.range' start n).map fun place =>
          decide ((place, true) ∈ (interview keep places state).1)) := by
  induction n generalizing start state with
  | zero => rfl
  | succ n ih =>
      -- The places behind the first one are above it, so no later answer is about it.
      have later (state : τ) (answer : Bool) : (start, answer) ∉
          (interview keep ((List.range' (start + 1) n).filter test) state).1 := by
        intro asked
        have behind := (List.mem_filter.mp (mem_of_interview keep asked)).1
        have above := (List.mem_range'_1.mp behind).1
        omega
      have other {place : Nat} (behind : place ∈ List.range' (start + 1) n) : place ≠ start := by
        have above := (List.mem_range'_1.mp behind).1
        omega
      cases set : test start with
      | false =>
          simp [List.range'_succ, OnList.retain, set, ih, later]
      | true =>
          simp only [List.range'_succ, List.map_cons, set, List.filter_cons, if_true,
            OnList.retain, ih, interview]
          refine Prod.ext rfl (List.cons_eq_cons.mpr ⟨?_, List.map_congr_left ?_⟩)
          · cases answer : (keep start state).1 <;> simp [later]
          · intro place behind
            simp [other behind]

end

/-- Retaining asks the predicate once about every position that was set, in ascending order, and
about no other, each time in the state that the question before left behind. It ends with the state
after the last one, the length is what it was, and the bits that are set are those that were set
before and were answered with yes. -/
theorem retaining_asks_once_about_every_set_position {w : Nat} [HasBits w] {τ : Type}
    (host : Host w) (keep : Nat → τ → Bool × τ) (state : τ) :
    ∃ (record : List (Nat × Bool)) (final : τ) (kept : List Bool),
      interview keep host.span.places state = (record, final) ∧
      host.Does (Span.retain keep state) (.ok (final, kept)) ∧
      host.Does (Span.retain (recorded keep) (state, [])) (.ok ((final, record), kept)) ∧
      record.map Prod.fst = host.span.places ∧ host.span.places.Pairwise (· < ·) ∧
      (∀ place, place ∈ host.span.places ↔ host.bits[place]? = some true) ∧
      kept.length = host.bits.length ∧
      ∀ place, kept[place]? = some true ↔
        host.bits[place]? = some true ∧ (place, true) ∈ record := by
  have list : host.bits = (List.range' 0 host.span.len).map host.span.bit := by
    rw [← List.range_eq_range']
    rfl
  have plain := retain_eq_interview keep host.span.bit host.span.len 0 state
  have noted := retain_eq_interview (recorded keep) host.span.bit host.span.len 0 (state, [])
  rw [← list] at plain noted
  simp only [interview_recorded, List.nil_append] at noted
  have passed := Span.retain_does keep host.held state
  have passedNoted := Span.retain_does (recorded keep) host.held (state, [])
  refine ⟨_, _, _, rfl, Host.does_of_span (plain ▸ passed), Host.does_of_span (noted ▸ passedNoted),
    interview_places keep _ state, host.span.places_ascending, fun place => Span.mem_places, ?_, ?_⟩
  · rw [List.length_map, list, List.length_map]
  · intro place
    constructor
    · intro left
      obtain ⟨below, same⟩ := List.getElem?_eq_some_iff.mp left
      simp only [List.getElem_map, List.getElem_range', Nat.zero_add, Nat.one_mul,
        decide_eq_true_eq] at same
      exact ⟨Span.mem_places.mp (mem_of_interview keep same), same⟩
    · rintro ⟨before, answered⟩
      obtain ⟨below, -⟩ := List.getElem?_eq_some_iff.mp before
      rw [list, List.length_map, List.length_range'] at below
      simpa [below, Span.places] using answered

/-- Every other one of four set positions, in a span across two bytes. -/
theorem retaining_asks_once_about_every_set_position_across_two_bytes :
    let host : Host 8 := .slice ⟨#[0xA5#8, 0x5A#8], 5, 7⟩ (show 5 + 7 ≤ 2 * 8 by decide)
    let keep : Nat → Bool → Bool × Bool := fun _ turn => (turn, !turn)
    let record := [(0, true), (2, false), (4, true), (6, false)]
    ∃ kept, host.Does (Span.retain (recorded keep) (true, [])) (.ok ((true, record), kept)) ∧
      kept.length = 7 ∧ ∀ place, kept[place]? = some true ↔ place = 0 ∨ place = 4 := by
  intro host keep record
  have asked : interview keep host.span.places true = (record, true) := by decide
  obtain ⟨noted, final, kept, ran, -, does, -, -, -, length, left⟩ :=
    retaining_asks_once_about_every_set_position host keep true
  cases ran.symm.trans asked
  have before : host.bits = [true, false, true, false, true, false, true] := by decide
  refine ⟨kept, does, length.trans (congrArg List.length before), fun place => ?_⟩
  have yes : (place, true) ∈ record ↔ place = 0 ∨ place = 4 := by simp [record]
  rw [left, before, yes]
  constructor
  · exact And.right
  · rintro (rfl | rfl) <;> exact ⟨rfl, by decide⟩

end PackedBits
