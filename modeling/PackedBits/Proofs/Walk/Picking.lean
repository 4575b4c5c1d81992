import PackedBits.Proofs.Walk.Places
import PackedBits.Proofs.Walk.Selection

/-! What a selection picks. A source has items ahead until it first has none or fails; it may go on
to have items again. A selection picks, in order, those items of the source that are at set
positions of the mask: after each of them the source is just behind it. The first set position where
the source has no item ends the selection for good, and so does the last set position, behind which
the source is not asked any more. -/
namespace PackedBits

namespace Walk
variable {ι α : Type}

/-- Two calls for an item have ended alike: with the same answer or failure, and in states that are
the same after an item and `left` otherwise. -/
inductive Agree (same left : ι → ι → Prop) :
    EStateM.Result Failure ι (Option α) → EStateM.Result Failure ι (Option α) → Prop
  | item {item : α} {walk walk' : ι} :
      same walk walk' → Agree same left (.ok (some item) walk) (.ok (some item) walk')
  | none {walk walk' : ι} : left walk walk' → Agree same left (.ok none walk) (.ok none walk')
  | error {failure : Failure} {walk walk' : ι} :
      left walk walk' → Agree same left (.error failure walk) (.error failure walk')

namespace Agree
variable {same left : ι → ι → Prop} {ended ended' : EStateM.Result Failure ι (Option α)}

theorem of_item {item : α} {walk' : ι} (agree : Agree same left ended ended')
    (ran : ended' = .ok (some item) walk') :
    ∃ walk, ended = .ok (some item) walk ∧ same walk walk' := by
  subst ran
  cases agree with
  | item stands => exact ⟨_, rfl, stands⟩

theorem of_none {walk' : ι} (agree : Agree same left ended ended')
    (ran : ended' = .ok .none walk') : ∃ walk, ended = .ok .none walk ∧ left walk walk' := by
  subst ran
  cases agree with
  | none stands => exact ⟨_, rfl, stands⟩

theorem of_error {failure : Failure} {walk' : ι} (agree : Agree same left ended ended')
    (ran : ended' = .error failure walk') :
    ∃ walk, ended = .error failure walk ∧ left walk walk' := by
  subst ran
  cases agree with
  | error stands => exact ⟨_, rfl, stands⟩

theorem refl (ended : EStateM.Result Failure ι (Option α)) : Agree Eq Eq ended ended := by
  cases ended with
  | ok item walk =>
      cases item with
      | none => exact .none rfl
      | some item => exact .item rfl
  | error failure walk => exact .error rfl

end Agree

variable [Walk ι α]

/-- Jumping answers as stepping does from the same state, and leads to the same state when it finds
an item. The walk may have items again after it had none, and it may fail; where a jump leads that
finds no item is up to the walk, which may keep to a relation of its own. -/
structure Steady (same left : ι → ι → Prop) : Prop where
  nth {walk walk' : ι} (n : Nat) : same walk walk' →
    Agree same left ((Walk.nth n : Attempt ι (Option α)) walk) (skipping Walk.next n walk')

theorem steady_of_stepping
    (stepping : ∀ n, (Walk.nth n : Attempt ι (Option α)) = skipping Walk.next n) :
    Steady (Eq : ι → ι → Prop) Eq where
  nth n alike := by
    subst alike
    rw [stepping n]
    exact .refl _

def past (n : Nat) (walk : ι) : ι := after (List.replicate n .next) walk

def steps : Nat → Attempt ι (List (Option α))
  | 0 => return []
  | n + 1 => do
      let items ← steps n
      return items ++ [← next]

variable {walk walk' : ι}

theorem past_succ {item : Option α} (ran : (next : Attempt ι (Option α)) walk = .ok item walk')
    (n : Nat) : past (n + 1) walk = past n walk' := by
  have called : (call .next : Attempt ι (Reply α)) walk = .ok (.item item) walk' :=
    Attempt.bind_apply ran
  show past n ((call .next : Attempt ι (Reply α)).outcome walk).2 = past n walk'
  rw [Attempt.outcome_ok called]

theorem steps_succ {n : Nat} {items : List (Option α)} {item : Option α} {walk'' : ι}
    (ran : steps n walk = .ok items walk') (last : (next : Attempt ι (Option α)) walk' =
      .ok item walk'') : steps (n + 1) walk = .ok (items ++ [item]) walk'' := by
  rw [steps, Attempt.bind_apply ran, Attempt.bind_apply last]
  rfl

theorem steps_stop {n : Nat} {items : List (Option α)} {failure : Failure} {walk'' : ι}
    (ran : steps n walk = .ok items walk') (stopped : (next : Attempt ι (Option α)) walk' =
      .error failure walk'') (more : Nat) :
    (steps (n + (more + 1)) : Attempt ι (List (Option α))) walk = .error failure walk'' := by
  induction more with
  | zero =>
      show steps (n + 1) walk = _
      rw [steps, Attempt.bind_apply ran, Attempt.bind_stops stopped]
  | succ more ih =>
      show steps (n + (more + 1) + 1) walk = _
      rw [steps, Attempt.bind_stops ih]

theorem next_of_ahead {n : Nat} (there : (ahead n walk).isSome) :
    ∃ item walk', (next : Attempt ι (Option α)) walk = .ok (some item) walk' := by
  cases ran : (next : Attempt ι (Option α)) walk with
  | ok item walk' =>
      cases item with
      | none =>
          rw [ahead_none ran] at there
          cases there
      | some item => exact ⟨item, walk', rfl⟩
  | error failure walk' =>
      rw [ahead_error ran] at there
      cases there

theorem skipping_reached {n : Nat} (there : (ahead n walk).isSome) :
    (skipping next n : Attempt ι (Option α)) walk = .ok (ahead n walk) (past (n + 1) walk) := by
  induction n generalizing walk with
  | zero =>
      obtain ⟨item, walk', ran⟩ := next_of_ahead there
      rw [past_succ ran, ahead_zero ran]
      exact ran
  | succ n ih =>
      obtain ⟨item, walk', ran⟩ := next_of_ahead there
      rw [ahead_succ ran] at there ⊢
      rw [skipping_some ran, past_succ ran]
      exact ih there

theorem skipping_past {i : Nat} (there : (ahead i walk).isSome) (n : Nat) :
    (skipping next n : Attempt ι (Option α)) (past (i + 1) walk) =
      skipping next (i + 1 + n) walk := by
  obtain ⟨item, walk', ran⟩ := next_of_ahead there
  -- The induction moves the start on, and with it the next item and the walk behind that.
  induction i generalizing walk item walk' with
  | zero =>
      rw [past_succ ran, Nat.zero_add, Nat.add_comm 1 n, skipping_some ran]
      rfl
  | succ i ih =>
      rw [ahead_succ ran] at there
      obtain ⟨item', walk'', ran'⟩ := next_of_ahead there
      rw [past_succ ran, Nat.add_right_comm, skipping_some ran]
      exact ih there item' walk'' ran'

end Walk

structure TwoWayWalk.Alike {ι α : Type} (good : ι → Prop) (items : ι → List α) (walk walk' : ι) :
    Prop where
  first : good walk
  second : good walk'
  items : items walk = items walk'

theorem TwoWayWalk.IsQueue.steady {ι α : Type} [TwoWayWalk ι α] {good : ι → Prop}
    {items : ι → List α} (queue : TwoWayWalk.IsQueue good items) :
    Walk.Steady (TwoWayWalk.Alike good items) (TwoWayWalk.Alike good items) where
  nth {walk walk'} n alike := by
    obtain ⟨after, ran, stop, rest⟩ := queue.nth n walk alike.first
    obtain ⟨after', ran', stop', rest'⟩ := skipping_answers queue.next n walk' alike.second
    have stands : TwoWayWalk.Alike good items after after' :=
      ⟨stop, stop', by rw [rest, rest', alike.items]⟩
    rw [ran, ran', alike.items]
    cases found : (items walk')[n]? with
    | none =>
        simp only [found]
        exact .none stands
    | some item =>
        simp only [found]
        exact .item stands

/-- How many items there are up to the last of some places. -/
def through (places : List Nat) : Nat := places.getLast?.elim 0 (· + 1)

theorem through_concat (places : List Nat) (place : Nat) :
    through (places ++ [place]) = place + 1 := by
  rw [through, List.getLast?_concat]
  rfl

/-- If no place is taken behind one that is not, the places taken are the first ones, and the first
one that is not taken is the one after them. -/
theorem taken_are_first {places : List Nat} {reached : Nat → Bool}
    (ascending : places.Pairwise (· < ·))
    (closed : ∀ p q, p < q → reached p = false → reached q = false) :
    places.filter reached = places.take (places.filter reached).length ∧
      places.find? (fun place => !reached place) = places[(places.filter reached).length]? := by
  induction places with
  | nil => exact ⟨rfl, rfl⟩
  | cons place later ih =>
      obtain ⟨least, ascending⟩ := List.pairwise_cons.mp ascending
      obtain ⟨first, missed⟩ := ih ascending
      cases here : reached place with
      | true =>
          rw [List.filter_cons_of_pos here, List.find?_cons_of_neg (by simp [here])]
          refine ⟨?_, missed⟩
          rw [List.length_cons, List.take_succ_cons, ← first]
      | false =>
          have none : later.filter reached = [] :=
            List.filter_eq_nil_iff.mpr fun q member => by
              rw [closed place q (least q member) here]
              exact Bool.false_ne_true
          rw [List.filter_cons_of_neg (by simp [here]), List.find?_cons_of_pos (by simp [here]),
            none]
          exact ⟨rfl, rfl⟩

namespace Selection
variable {w : Nat} {ι α : Type} [Walk ι α] {same left : ι → ι → Prop} {places : List Nat}
  {source : ι} {n : Nat} {selection : Selection w ι}

/-- Where a selection is after it has picked `n` items: as many places are behind it, and its source
is just behind the item at the last of them. -/
structure Aligned (same : ι → ι → Prop) (places : List Nat) (source : ι) (n : Nat)
    (selection : Selection w ι) : Prop where
  ones : selection.ones.Sound
  left : selection.ones.rest = places.drop n
  index : selection.index = through (places.take n)
  reached : ∀ place ∈ places.take n, (Walk.ahead place source).isSome
  stands : same selection.source (Walk.past selection.index source)

structure Over (selection : Selection w ι) : Prop where
  ones : selection.ones.Sound
  left : selection.ones.rest = []

omit [Walk ι α] in
theorem Over.exhaust {ones : OnesWalk w} (sound : ones.Sound) (index : Nat) (source : ι) :
    Over ⟨ones.exhaust, index, source⟩ := ⟨sound.exhaust, OnesWalk.rest_exhaust ones⟩

theorem select_aligned {s : Span w} (held : s.Held) (start : same source source) :
    Aligned same s.places source 0 (s.select source) where
  ones := OnesWalk.ones_sound held
  left := rfl
  index := rfl
  reached _ := nofun
  stands := start

theorem Aligned.skipping_eq (aligned : Aligned same places source n selection)
    (ascending : places.Pairwise (· < ·)) {place : Nat} (found : places[n]? = some place) :
    (Walk.skipping Walk.next (place - selection.index) : Attempt ι (Option α))
      (Walk.past selection.index source) = Walk.skipping Walk.next place source := by
  rw [aligned.index, through]
  cases last : (places.take n).getLast? with
  | none => rfl
  | some earlier =>
      have member := List.mem_of_getLast? last
      obtain ⟨below, here⟩ := List.getElem?_eq_some_iff.mp found
      have split := List.take_append_drop n places
      rw [List.drop_eq_getElem_cons below, here] at split
      rw [← split, List.pairwise_append] at ascending
      have order : earlier < place := ascending.2.2 earlier member place List.mem_cons_self
      -- Without the order the difference would be cut off at nought.
      have distance : earlier + 1 + (place - (earlier + 1)) = place := by omega
      show Walk.skipping Walk.next (place - (earlier + 1)) (Walk.past (earlier + 1) source) = _
      rw [Walk.skipping_past (aligned.reached earlier member), distance]

variable [HasBits w]

theorem Over.next (finished : Over selection) :
    ∃ selection', next selection = .ok none selection' ∧ Over selection' ∧
      selection'.source = selection.source := by
  obtain ⟨-, ones, ran, sound, -⟩ | ⟨place, later, ones, split, -⟩ := finished.ones.next_cases
  · exact ⟨_, next_none ran, .exhaust sound _ _, rfl⟩
  · rw [finished.left] at split
    cases split

section
variable {place : Nat} (steady : Walk.Steady same left)
  (aligned : Aligned same places source n selection) (ascending : places.Pairwise (· < ·))
  (found : places[n]? = some place)
include steady aligned ascending found

theorem Aligned.jumps :
    (∃ ones, OnesWalk.next selection.ones = .ok (some place) ones ∧ ones.Sound ∧
      ones.rest = places.drop (n + 1)) ∧
    Walk.Agree same left
      ((Walk.nth (place - selection.index) : Attempt ι (Option α)) selection.source)
      (Walk.skipping Walk.next place source) := by
  constructor
  · obtain ⟨below, here⟩ := List.getElem?_eq_some_iff.mp found
    have left := aligned.left
    rw [List.drop_eq_getElem_cons below, here] at left
    obtain ⟨ended, -⟩ | ⟨first, later, ones, split, ran, sound, rfl⟩ := aligned.ones.next_cases
    · rw [left] at ended
      cases ended
    · rw [left] at split
      obtain ⟨rfl, later⟩ := List.cons.inj split
      exact ⟨ones, ran, sound, later.symm⟩
  · rw [← aligned.skipping_eq ascending found]
    exact steady.nth _ aligned.stands

theorem Aligned.next_picks (there : (Walk.ahead place source).isSome) :
    ∃ selection', next selection = .ok (Walk.ahead place source) selection' ∧
      Aligned same places source (n + 1) selection' := by
  obtain ⟨⟨ones, ran, sound, left⟩, agree⟩ := aligned.jumps steady ascending found
  obtain ⟨item, here⟩ := Option.isSome_iff_exists.mp there
  have reached := Walk.skipping_reached there
  rw [here] at reached ⊢
  obtain ⟨source', jumped, stands⟩ := agree.of_item reached
  have taken : places.take (n + 1) = places.take n ++ [place] := by
    rw [List.take_add_one, found]
    rfl
  refine ⟨⟨ones, place + 1, source'⟩, next_item ran jumped, sound, left, ?_, ?_, stands⟩
  · rw [taken, through_concat]
  · intro earlier member
    rw [taken] at member
    rcases List.mem_append.mp member with before | last
    · exact aligned.reached earlier before
    · rwa [List.mem_singleton.mp last]

theorem Aligned.next_misses {source' : ι}
    (none : (Walk.skipping Walk.next place : Attempt ι (Option α)) source = .ok none source') :
    ∃ selection', next selection = .ok .none selection' ∧ Over selection' ∧
      left selection'.source source' := by
  obtain ⟨⟨ones, ran, sound, -⟩, agree⟩ := aligned.jumps steady ascending found
  obtain ⟨reached, jumped, stands⟩ := agree.of_none none
  exact ⟨_, next_missing ran jumped, .exhaust sound _ _, stands⟩

theorem Aligned.next_stops {failure : Failure} {source' : ι}
    (stopped : (Walk.skipping Walk.next place : Attempt ι (Option α)) source =
      .error failure source') :
    ∃ selection', next selection = .error failure selection' ∧
      left selection'.source source' := by
  obtain ⟨⟨ones, ran, -, -⟩, agree⟩ := aligned.jumps steady ascending found
  obtain ⟨reached, jumped, stands⟩ := agree.of_error stopped
  exact ⟨_, next_fails ran jumped, stands⟩

end

theorem Aligned.steps (steady : Walk.Steady same left) (ascending : places.Pairwise (· < ·))
    {start : Selection w ι} (aligned : Aligned same places source 0 start)
    (within : n ≤ places.length)
    (there : ∀ place ∈ places.take n, (Walk.ahead place source).isSome) :
    ∃ selection, Walk.steps n start =
        .ok ((places.take n).map fun place => Walk.ahead place source) selection ∧
      Aligned same places source n selection := by
  induction n with
  | zero => exact ⟨start, rfl, aligned⟩
  | succ n ih =>
      have found : places[n]? = some places[n] := List.getElem?_eq_getElem within
      have taken : places.take (n + 1) = places.take n ++ [places[n]] := by
        rw [List.take_add_one, found]
        rfl
      rw [taken] at there ⊢
      obtain ⟨middle, ran, behind⟩ := ih (Nat.le_of_succ_le within) fun place member =>
        there place (List.mem_append_left _ member)
      obtain ⟨selection, last, after⟩ := behind.next_picks steady ascending found
        (there places[n] (List.mem_append_right _ List.mem_cons_self))
      refine ⟨selection, ?_, after⟩
      rw [List.map_append]
      exact Walk.steps_succ ran last

theorem Over.steps {start : Selection w ι} {items : List (Option α)}
    (ran : Walk.steps n start = .ok items selection) (finished : Over selection) (more : Nat) :
    ∃ selection', Walk.steps (n + more) start =
        .ok (items ++ List.replicate more none) selection' ∧
      Over selection' ∧ selection'.source = selection.source := by
  induction more with
  | zero =>
      rw [List.replicate_zero, List.append_nil]
      exact ⟨selection, ran, finished, rfl⟩
  | succ more ih =>
      obtain ⟨middle, ran', still, same⟩ := ih
      obtain ⟨selection', last, finished', same'⟩ := still.next
      refine ⟨selection', ?_, finished', same'.trans same⟩
      rw [List.replicate_succ', ← List.append_assoc]
      exact Walk.steps_succ ran' last

/-- After the items at the places taken there is none for good, and the source stays where it is. -/
def Rests (taken : List Nat) (source : ι) (start : Selection w ι) (rest : ι) : Prop :=
  ∀ more, ∃ selection, Walk.steps (taken.length + (more + 1)) start =
      .ok (taken.map (fun place => Walk.ahead place source) ++ List.replicate (more + 1) none)
        selection ∧
    selection.source = rest

/-- What a selection picks at some places of a source: first the items that are there, the source
being just behind the last one picked. It rests there if no place is left, and the source is not
asked again; if the source has no item at the next place, that is the last jump in it. A failure of
the source at that place is one of the selection. -/
structure Picks (same left : ι → ι → Prop) (places : List Nat) (source : ι)
    (start : Selection w ι) (taken : List Nat) : Prop where
  picked {n : Nat} : n ≤ taken.length → ∃ selection,
    Walk.steps n start = .ok ((taken.take n).map fun place => Walk.ahead place source) selection ∧
    same selection.source (Walk.past (through (taken.take n)) source)
  exhausted : taken.length = places.length →
    ∃ rest, same rest (Walk.past (through places) source) ∧ Rests taken source start rest
  missed {place : Nat} {item : Option α} {source' : ι} : places[taken.length]? = some place →
    Walk.skipping Walk.next place source = .ok item source' →
    item = none ∧ ∃ rest, left rest source' ∧ Rests taken source start rest
  stopped {place : Nat} {failure : Failure} {source' : ι} : places[taken.length]? = some place →
    (Walk.skipping Walk.next place : Attempt ι (Option α)) source = .error failure source' →
    ∃ selection, left selection.source source' ∧ ∀ more,
      (Walk.steps (taken.length + (more + 1)) : Attempt _ (List (Option α))) start =
        .error failure selection

section
variable {taken : List Nat} {start : Selection w ι} (steady : Walk.Steady same left)
  (ascending : places.Pairwise (· < ·)) (aligned : Aligned same places source 0 start)
  (first : taken = places.take taken.length)
  (there : ∀ place ∈ taken, (Walk.ahead place source).isSome)
include steady ascending aligned first there

theorem Aligned.picked (short : n ≤ taken.length) : ∃ selection,
    Walk.steps n start =
      .ok ((taken.take n).map fun place => Walk.ahead place source) selection ∧
    Aligned same places source n selection ∧ selection.index = through (taken.take n) := by
  have same_take : taken.take n = places.take n := by
    rw [first, List.take_take, Nat.min_eq_left short]
  have within : taken.length ≤ places.length := by
    rw [first]
    exact List.length_take_le' taken.length places
  rw [same_take]
  obtain ⟨selection, ran, behind⟩ := aligned.steps steady ascending (Nat.le_trans short within)
    fun place member => there place (List.mem_of_mem_take (same_take ▸ member))
  exact ⟨selection, ran, behind, behind.index⟩

theorem Aligned.exhausted (all : taken.length = places.length) :
    ∃ rest, same rest (Walk.past (through places) source) ∧ Rests taken source start rest := by
  obtain ⟨middle, ran, behind, index⟩ := aligned.picked steady ascending first there
    (Nat.le_refl taken.length)
  rw [List.take_length] at ran index
  have whole : taken = places := first.trans (List.take_of_length_le (Nat.le_of_eq all.symm))
  have finished : Over middle :=
    ⟨behind.ones, behind.left.trans (List.drop_of_length_le (Nat.le_of_eq all.symm))⟩
  refine ⟨middle.source, ?_, fun more => ?_⟩
  · rw [← whole, ← index]
    exact behind.stands
  · obtain ⟨selection, ran', -, still⟩ := finished.steps ran (more + 1)
    exact ⟨selection, ran', still⟩

variable {place : Nat} (found : places[taken.length]? = some place)
include found

theorem Aligned.rests {source' : ι}
    (missing : (Walk.skipping Walk.next place : Attempt ι (Option α)) source = .ok none source') :
    ∃ rest, left rest source' ∧ Rests taken source start rest := by
  obtain ⟨middle, ran, behind, -⟩ := aligned.picked steady ascending first there
    (Nat.le_refl taken.length)
  rw [List.take_length] at ran
  obtain ⟨last, none, finished, stands⟩ := behind.next_misses steady ascending found missing
  refine ⟨last.source, stands, fun more => ?_⟩
  obtain ⟨selection, ran', -, still⟩ := finished.steps (Walk.steps_succ ran none) more
  refine ⟨selection, ?_, still⟩
  rw [List.replicate_succ, Nat.add_comm more 1, ← Nat.add_assoc, ran', List.append_assoc]
  rfl

theorem Aligned.stops {failure : Failure} {source' : ι}
    (stopped : (Walk.skipping Walk.next place : Attempt ι (Option α)) source =
      .error failure source') :
    ∃ selection, left selection.source source' ∧ ∀ more,
      (Walk.steps (taken.length + (more + 1)) : Attempt _ (List (Option α))) start =
        .error failure selection := by
  obtain ⟨middle, ran, behind, -⟩ := aligned.picked steady ascending first there
    (Nat.le_refl taken.length)
  obtain ⟨selection, failed, stands⟩ := behind.next_stops steady ascending found stopped
  exact ⟨selection, stands, Walk.steps_stop ran failed⟩

end

theorem Aligned.picks {start : Selection w ι} (steady : Walk.Steady same left)
    (ascending : places.Pairwise (· < ·)) (aligned : Aligned same places source 0 start) :
    Picks same left places source start
      (places.filter fun place => (Walk.ahead place source).isSome) := by
  have closed (p q : Nat) (order : p < q) (missing : (Walk.ahead p source).isSome = false) :
      (Walk.ahead q source).isSome = false := by
    rw [Option.isSome_eq_false_iff, Option.isNone_iff_eq_none] at missing ⊢
    exact Walk.ahead_none_mono missing (Nat.le_of_lt order)
  have there (place : Nat)
      (member : place ∈ places.filter fun place => (Walk.ahead place source).isSome) :
      (Walk.ahead place source).isSome := (List.mem_filter.mp member).2
  obtain ⟨first, next⟩ := taken_are_first ascending closed
  refine ⟨fun short => ?_, aligned.exhausted steady ascending first there,
    fun found ended => ?_, fun found => aligned.stops steady ascending first there found⟩
  · obtain ⟨selection, ran, behind, index⟩ := aligned.picked steady ascending first there short
    exact ⟨selection, ran, index ▸ behind.stands⟩
  · -- The next place is the first one where the source has no item.
    have missing := List.find?_some (next.trans found)
    rw [Walk.ahead, ended, Bool.not_eq_true', Option.isSome_eq_false_iff,
      Option.isNone_iff_eq_none] at missing
    obtain rfl : _ = none := missing
    exact ⟨rfl, aligned.rests steady ascending first there found ended⟩

end Selection

/-- A selection from any source at the set positions of any container picks the items that the
source has at these positions, in order. It is over for good at the first set position where the
source has no item, even if the source goes on. -/
theorem selections_pick_the_items_at_set_positions {w : Nat} [HasBits w] (host : Host w)
    {ι α : Type} [Walk ι α] {same left : ι → ι → Prop} (steady : Walk.Steady same left)
    (source : ι) (start : same source source) :
    let taken := host.span.places.filter fun place => (Walk.ahead place source).isSome
    taken.Pairwise (· < ·) ∧
    (∀ place, place ∈ taken ↔
      host.bits[place]? = some true ∧ (Walk.ahead place source).isSome) ∧
    Selection.Picks same left host.span.places source (host.span.select source) taken := by
  intro taken
  have ascending := host.span.places_ascending
  refine ⟨ascending.filter _, fun place => ?_,
    (Selection.select_aligned host.held start).picks steady ascending⟩
  rw [List.mem_filter, Span.mem_places]
  rfl

/-- A walk that gives recorded answers, items or none, in the order in which they were recorded. -/
structure Recorded (α : Type) where
  answers : List (Option α)
deriving DecidableEq, Repr

namespace Recorded
variable {α : Type}

instance : Walk (Recorded α) α where
  next := fun walk => .ok walk.answers.head?.join ⟨walk.answers.tail⟩
  hint := fun walk => .ok ⟨0, none⟩ walk

end Recorded

/-- The source has an item at the first set position and none at the second one; what it has behind
that is not asked for. -/
theorem selections_pick_from_a_walk_that_goes_on :
    let mask : Host 8 := .view ⟨#[0x5A#8], 8⟩ (by decide)
    let source : Recorded Nat :=
      ⟨[some 10, some 11, some 12, none, some 14, some 15, some 16, some 17]⟩
    ∃ selection,
      Walk.steps 4 (mask.span.select source) = .ok [some 11, none, none, none] selection ∧
      selection.source = ⟨[some 14, some 15, some 16, some 17]⟩ := by
  intro mask source
  have taken : mask.span.places.filter (fun place => (Walk.ahead place source).isSome) = [1] := by
    decide +kernel
  have picks := (selections_pick_the_items_at_set_positions mask
    (Walk.steady_of_stepping fun _ => rfl) source rfl).2.2
  rw [taken] at picks
  have found : mask.span.places[1]? = some 3 := by decide +kernel
  have jumped : (Walk.skipping Walk.next 3 : Attempt (Recorded Nat) (Option Nat)) source =
      .ok none ⟨[some 14, some 15, some 16, some 17]⟩ := rfl
  obtain ⟨-, rest, rfl, rests⟩ := picks.missed found jumped
  exact rests 2

end PackedBits
