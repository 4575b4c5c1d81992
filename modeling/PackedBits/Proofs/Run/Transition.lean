import PackedBits.Proofs.Backend
import PackedBits.Proofs.Run.Fresh

/-! When a vector changes its mode. On a storage of two modes a vector goes to the heap exactly at an
edit that succeeds in asking for more than the inline bits, and comes back exactly at a shrinking to
a length that fits inline. So a vector that is never shrunk goes to the heap once at most, however
long the run is and whatever the provider refuses. -/
namespace PackedBits

variable {S : Type} {w : Nat} [HasBits w] [Storage S w] {name : String}

/-- The edits that extending is, in their order. -/
def Edit.parts (announced : Nat) (bits : List Bool) : List Edit :=
  .force (.reserve announced) :: bits.map fun bit => .force (.push bit)

omit [HasBits w] in
theorem Pool.put_put (pool : Pool S) (name : String) (s s' : S) :
    (pool.put name s).put name s' = pool.put name s' := by
  unfold put
  rw [List.filter_cons_of_neg (by simp), List.filter_filter]
  simp only [Bool.and_self]

omit [HasBits w] in
theorem Pool.hold_hold (pool : Pool S) (name : String) (h h' : Holding S) :
    (pool.hold name h).hold name h' = pool.hold name h' := by
  have vectors := congrArg Pool.vectors (pool.put_put name h.storage h'.storage)
  show Pool.mk _ _ = Pool.mk _ _
  rw [Pool.mk.injEq]
  exact ⟨vectors, rfl⟩

omit [HasBits w] in
theorem Pool.holding_hold (pool : Pool S) (name : String) (h : Holding S) :
    (⟨(pool.hold name h).vector name, (pool.hold name h).provider⟩ : Holding S) = h := by
  rw [vector_hold, if_pos rfl]
  rfl

namespace Action

/-- Takes actions one after the other up to the first that fails. -/
def runWhile : List (Action w) → Pool S → Query Reply × Pool S
  | [], pool => (.ok .done, pool)
  | action :: rest, pool =>
      match action.perform.outcome pool with
      | (.ok _, next) => runWhile rest next
      | (.error failure, next) => (.error failure, next)

def placed (pool : Pool S) (name : String) (change : Attempt (Holding S) Unit) (h : Holding S) :
    Query Reply × Pool S :=
  ((change.outcome h).1.map fun _ => .done, pool.hold name (change.outcome h).2)

omit [HasBits w] in
theorem outcome_plain (pool : Pool S) (name : String) (change : Attempt (Holding S) Unit) :
    (Pool.work name ((fun _ => Reply.done) <$> change)).outcome pool =
      placed pool name change ⟨pool.vector name, pool.provider⟩ := by
  rw [Pool.work, Attempt.outcome_within, Attempt.outcome_map]
  rfl

omit [HasBits w] in
theorem placed_hold (pool : Pool S) (name : String) (change : Attempt (Holding S) Unit)
    (h : Holding S) :
    placed (pool.hold name h) name change
      ⟨(pool.hold name h).vector name, (pool.hold name h).provider⟩ = placed pool name change h := by
  rw [pool.holding_hold, placed, placed, pool.hold_hold]

theorem runWhile_cons {action : Action w} {rest : List (Action w)} {pool start : Pool S}
    {h : Holding S} {first next : Attempt (Holding S) Unit}
    (step : action.perform.outcome start = placed pool name first h)
    (later : ∀ h', runWhile rest (pool.hold name h') = placed pool name next h') :
    runWhile (action :: rest) start = placed pool name (first >>= fun _ => next) h := by
  rw [runWhile, step]
  cases ran : first h with
  | ok value h' =>
      have went : (first >>= fun _ => next) h = next h' := Attempt.bind_apply ran
      have same : (first >>= fun _ => next).outcome h = next.outcome h' := by
        rw [Attempt.outcome, went, Attempt.outcome]
      have reached : placed pool name first h = (.ok .done, pool.hold name h') := by
        rw [placed, Attempt.outcome_ok ran]
        rfl
      rw [reached, placed, same]
      exact later h'
  | error failure h' =>
      have stopped : (first >>= fun _ => next) h = .error failure h' := Attempt.bind_stops ran
      rw [placed, placed, Attempt.outcome_error ran, Attempt.outcome_error stopped]
      rfl

theorem runWhile_pushes (pool : Pool S) (name : String) (beside : Operand (Window w))
    (bits : List Bool) (h : Holding S) :
    runWhile (bits.map fun bit => work .inPlace name (.force (.push bit)) beside)
      (pool.hold name h) = placed pool name (bits.forM BitVector.push) h := by
  induction bits generalizing h with
  | nil => rfl
  | cons bit rest ih =>
      have step := outcome_plain (pool.hold name h) name (BitVector.push bit)
      rw [placed_hold] at step
      exact runWhile_cons step ih

/-- Extending is its parts in their order, up to the first that fails. -/
theorem outcome_extend (pool : Pool S) (name : String) (announced : Nat) (bits : List Bool)
    (beside : Operand (Window w)) :
    (work .inPlace name (.extend announced bits) beside).perform.outcome pool =
      runWhile ((Edit.parts announced bits).map fun part => work .inPlace name part beside)
        pool := by
  have whole : (work .inPlace name (.extend announced bits) beside).perform.outcome pool =
      placed pool name (BitVector.extend announced bits) ⟨pool.vector name, pool.provider⟩ :=
    outcome_plain pool name _
  have step : (work .inPlace name (.force (.reserve announced)) beside).perform.outcome pool =
      placed pool name (BitVector.reserve announced) ⟨pool.vector name, pool.provider⟩ :=
    outcome_plain pool name _
  rw [whole, Edit.parts, List.map_cons, List.map_map]
  exact (runWhile_cons step (runWhile_pushes pool name beside bits)).symm

end Action

namespace Action

/-- Actions that do not edit several times in a row. -/
def Whole (action : Action w) : Prop :=
  match action with
  | .work _ _ edit _ => edit.Whole
  | .workBesideCopy _ _ edit _ => edit.Whole
  | _ => True

def Shrinks (name : String) (action : Action w) : Prop :=
  match action with
  | .work _ target .shrinkToFit _ => name = target
  | .workBesideCopy _ target .shrinkToFit _ => name = target
  | _ => False

/-- The modes of a vector from pool to pool, that of the first pool included. -/
def modes (name : String) : List (Action w) → Pool S → List Bool
  | [], pool => [Storage.onHeap (pool.vector name)]
  | action :: rest, pool =>
      Storage.onHeap (pool.vector name) :: modes name rest (action.perform.outcome pool).2

variable {pool : Pool S} {edit : Edit} {other : List Bool}

omit [HasBits w] in
theorem edited_cases {action : Action w} (known : action.edited pool name = some (edit, other)) :
    (action.Whole → edit.Whole) ∧ (edit = .shrinkToFit → action.Shrinks name) := by
  cases action with
  | work manner target inner beside =>
      change (if name = target then some (inner, _) else none) = some (edit, other) at known
      by_cases same : name = target
      · rw [if_pos same] at known
        cases known
        refine ⟨id, ?_⟩
        rintro rfl
        exact same
      · rw [if_neg same] at known
        cases known
  | workBesideCopy manner target inner source =>
      change (if name = target then some (inner, _) else none) = some (edit, other) at known
      by_cases same : name = target
      · rw [if_pos same] at known
        cases known
        refine ⟨id, ?_⟩
        rintro rfl
        exact same
      · rw [if_neg same] at known
        cases known
  | _ => cases known

variable [StorageSpec S w] [LawfulStorage S w] [InlineStorage S w] {policy : Policy}
  {refusals : Nat} {others : List Grant}

omit [InlineStorage S w] in
theorem outcome_aside (sound : pool.Sound policy refusals others) {action : Action w}
    (keeps : action.Keeps name) (aside : action.edited pool name = none) :
    Storage.onHeap ((action.perform.outcome pool).2.vector name) =
      Storage.onHeap (pool.vector name) := by
  rcases (perform_onHeap sound keeps aside).outcome with ⟨-, -, same⟩ | ⟨-, -, same⟩
  · exact same
  · exact same

theorem outcome_toHeap (sound : pool.Sound policy refusals others) {action : Action w}
    (keeps : action.Keeps name) (whole : action.Whole)
    (inline : Storage.onHeap (pool.vector name) = false) :
    Storage.onHeap ((action.perform.outcome pool).2.vector name) = true ↔
      ∃ edit other reply, action.edited pool name = some (edit, other) ∧
        (action.perform.outcome pool).1 = .ok reply ∧
        inlineBits < edit.total (pool.list name) other := by
  cases known : action.edited pool name with
  | none =>
      rw [outcome_aside sound keeps known, inline]
      exact iff_of_false nofun fun ⟨_, _, _, edited, _⟩ => by cases edited
  | some both =>
      obtain ⟨edit, other⟩ := both
      rcases (perform_edited sound known).outcome with
        ⟨reply, ran, leads⟩ | ⟨failure, stopped, stays⟩
      · rw [leads.heap, inline, edit.heapAfter_of_inline, decide_eq_true_iff]
        refine ⟨fun more => ⟨edit, other, reply, rfl, ran, more⟩, ?_⟩
        rintro ⟨_, _, _, ⟨⟩, -, more⟩
        exact more
      · have alike := (stays keeps).alike ((edited_cases known).1 whole)
        rw [alike.heap, inline, stopped]
        exact iff_of_false nofun fun ⟨_, _, _, _, ran, _⟩ => by cases ran

theorem outcome_toInline (sound : pool.Sound policy refusals others) {action : Action w}
    (keeps : action.Keeps name) (heap : Storage.onHeap (pool.vector name) = true) :
    Storage.onHeap ((action.perform.outcome pool).2.vector name) = false ↔
      ∃ other reply, action.edited pool name = some (.shrinkToFit, other) ∧
        (action.perform.outcome pool).1 = .ok reply ∧ (pool.list name).length ≤ inlineBits := by
  cases known : action.edited pool name with
  | none =>
      rw [outcome_aside sound keeps known, heap]
      exact iff_of_false nofun fun ⟨_, _, edited, _⟩ => by cases edited
  | some both =>
      obtain ⟨edit, other⟩ := both
      rcases (perform_edited sound known).outcome with
        ⟨reply, ran, leads⟩ | ⟨failure, stopped, stays⟩
      · rw [leads.heap, heap, edit.heapAfter_eq_false]
        constructor
        · rintro ⟨rfl, short⟩
          exact ⟨other, reply, rfl, ran, short⟩
        · rintro ⟨_, _, ⟨⟩, -, short⟩
          exact ⟨rfl, short⟩
      · rw [(stays keeps).heap heap, stopped]
        exact iff_of_false nofun fun ⟨_, _, _, ran, _⟩ => by cases ran

theorem outcome_onHeap (sound : pool.Sound policy refusals others) {action : Action w}
    (keeps : action.Keeps name) (unshrunk : ¬ action.Shrinks name)
    (heap : Storage.onHeap (pool.vector name) = true) :
    Storage.onHeap ((action.perform.outcome pool).2.vector name) = true := by
  refine eq_true_of_ne_false fun inline => ?_
  obtain ⟨other, reply, known, -⟩ := (outcome_toInline sound keeps heap).mp inline
  exact unshrunk ((edited_cases known).2 rfl)

theorem modes_of_heap {actions : List (Action w)} (sound : pool.Sound policy refusals others)
    (kept : ∀ action ∈ actions, action.Keeps name ∧ ¬ action.Shrinks name)
    (heap : Storage.onHeap (pool.vector name) = true) :
    modes name actions pool = List.replicate (actions.length + 1) true := by
  induction actions generalizing pool with
  | nil => rw [modes, heap]; rfl
  | cons action rest ih =>
      obtain ⟨⟨keeps, unshrunk⟩, later⟩ := List.forall_mem_cons.mp kept
      have after := outcome_onHeap sound keeps unshrunk heap
      rw [modes, heap, ih (action.outcome_sound sound).2 later after]
      rfl

theorem modes_eq {actions : List (Action w)} (sound : pool.Sound policy refusals others)
    (kept : ∀ action ∈ actions, action.Keeps name ∧ ¬ action.Shrinks name) :
    ∃ inline heap, modes name actions pool =
      List.replicate inline false ++ List.replicate heap true := by
  induction actions generalizing pool with
  | nil =>
      cases mode : Storage.onHeap (pool.vector name) with
      | false => exact ⟨1, 0, by rw [modes, mode]; rfl⟩
      | true => exact ⟨0, 1, by rw [modes, mode]; rfl⟩
  | cons action rest ih =>
      by_cases heap : Storage.onHeap (pool.vector name) = true
      · exact ⟨0, (action :: rest).length + 1, modes_of_heap sound kept heap⟩
      · obtain ⟨inline, heap', same⟩ := ih (action.outcome_sound sound).2 fun later listed =>
          kept later (List.mem_cons_of_mem _ listed)
        refine ⟨inline + 1, heap', ?_⟩
        rw [modes, eq_false_of_ne_true heap, same]
        rfl

end Action

/-- When vectors of a pool go where, as told by the one under a name. -/
structure Pool.MovesExactly (pool : Pool S) (name : String) : Prop where
  /-- To the heap exactly at an edit that succeeds in asking for more than the inline bits. -/
  toHeap (action : Action w) : action.Keeps name → action.Whole →
    Storage.onHeap (pool.vector name) = false →
    (Storage.onHeap ((action.perform.outcome pool).2.vector name) = true ↔
      ∃ edit other reply, action.edited pool name = some (edit, other) ∧
        (action.perform.outcome pool).1 = .ok reply ∧
        inlineBits < edit.total (pool.list name) other)
  /-- Back exactly at a shrinking to a length that fits inline. -/
  toInline (action : Action w) : action.Keeps name →
    Storage.onHeap (pool.vector name) = true →
    (Storage.onHeap ((action.perform.outcome pool).2.vector name) = false ↔
      ∃ other reply, action.edited pool name = some (.shrinkToFit, other) ∧
        (action.perform.outcome pool).1 = .ok reply ∧ (pool.list name).length ≤ inlineBits)
  /-- Extending is a reserving and pushes, each of which may move the vector. -/
  extended (announced : Nat) (bits : List Bool) (beside : Operand (Window w)) :
    (Action.work .inPlace name (.extend announced bits) beside).perform.outcome pool =
      Action.runWhile
        ((Edit.parts announced bits).map fun part => .work .inPlace name part beside) pool
  /-- Wherever the vector goes, its bits are those that the edit leaves of a list. -/
  bits (action : Action w) (edit : Edit) (other : List Bool) :
    action.edited pool name = some (edit, other) →
    action.perform.Ends pool
      (fun _ pool' => ∃ reply, edit.onList other (pool.list name) = .ok reply (pool'.list name))
      fun _ pool' => action.Keeps name → action.Whole → pool'.list name = pool.list name
  /-- Shrinking always succeeds, and a length that fits inline asks the provider for nothing. -/
  shrunk (beside : Operand (Window w)) :
    (Action.work .inPlace name .shrinkToFit beside).perform.Ends pool
      (fun _ pool' => pool'.list name = pool.list name ∧
        ((pool.list name).length ≤ inlineBits →
          Storage.onHeap (pool'.vector name) = false ∧
          pool'.provider.requests = pool.provider.requests)) fun _ _ => False
  clone (target : String) : (Action.clone name target).perform.Ends pool
    (fun _ pool' => Storage.Alike (pool.vector name) (pool'.vector target)) fun _ _ => True
  tryClone (target : String) : (Action.tryClone name target).perform.Ends pool
    (fun _ pool' => Storage.Alike (pool.vector name) (pool'.vector target)) fun _ _ => True
  made (making : Making w) : (Action.make name making).perform.Ends pool
    (fun _ pool' => Storage.onHeap (pool'.vector name) = decide (inlineBits < making.total))
    fun _ _ => True
  sliced (source : Operand (Window w)) (bounds : Bounds) :
    (Action.slice source name bounds).perform.Ends pool
      (fun _ pool' => Storage.onHeap (pool'.vector name) =
        decide (inlineBits < (pool'.list name).length)) fun _ _ => True
  split (target : String) (position : Nat) :
    (Action.splitOff name target position).perform.Ends pool
      (fun _ pool' => Storage.onHeap (pool'.vector target) =
        decide (inlineBits < (pool'.list target).length)) fun _ _ => True
  /-- From here on a vector that is never shrunk goes to the heap once at most. -/
  once (actions : List (Action w)) :
    (∀ action ∈ actions, action.Keeps name ∧ ¬ action.Shrinks name) →
    ∃ inline heap, Action.modes name actions pool =
      List.replicate inline false ++ List.replicate heap true

section
variable [StorageSpec S w] [LawfulStorage S w] [InlineStorage S w] {policy : Policy}
  {refusals : Nat} {others : List Grant} {pool : Pool S}

theorem Action.perform_bits (sound : pool.Sound policy refusals others) {action : Action w}
    {edit : Edit} {other : List Bool} (known : action.edited pool name = some (edit, other)) :
    action.perform.Ends pool
      (fun _ pool' => ∃ reply, edit.onList other (pool.list name) = .ok reply (pool'.list name))
      fun _ pool' => action.Keeps name → action.Whole → pool'.list name = pool.list name :=
  (perform_edited sound known).imp (fun _ _ leads => leads.bits) fun _ _ stays keeps whole =>
    ((stays keeps).alike ((edited_cases known).1 whole)).bits

theorem Action.perform_shrunk (sound : pool.Sound policy refusals others)
    (beside : Operand (Window w)) :
    (work .inPlace name .shrinkToFit beside).perform.Ends pool
      (fun _ pool' => pool'.list name = pool.list name ∧
        ((pool.list name).length ≤ inlineBits →
          Storage.onHeap (pool'.vector name) = false ∧
          pool'.provider.requests = pool.provider.requests)) fun _ _ => False := by
  have shrunk : (Edit.shrinkToFit.attempt (beside.span pool)).Ends
      ⟨pool.vector name, pool.provider⟩
      (fun _ h' => h'.list = pool.list name ∧
        Storage.onHeap h'.storage = (Storage.onHeap (pool.vector name) &&
          decide (inlineBits < Storage.len (pool.vector name))) ∧
        (Storage.len (pool.vector name) ≤ inlineBits →
          h'.provider.requests = pool.provider.requests)) fun _ _ => False :=
    (sound.holding name).shrink_ends.map fun _ _ => And.right
  refine .get_bind ((Pool.work_ends shrunk).imp ?_ ?_)
  · rintro reply pool' ⟨h, ⟨list, mode, quiet⟩, rfl⟩
    have here : (pool.hold name h).vector name = h.storage :=
      (Pool.vector_hold pool name name h).trans (if_pos rfl)
    refine ⟨?_, fun short => ?_⟩
    · rw [Pool.list_hold, if_pos rfl, list]
    · have len : Storage.len (pool.vector name) ≤ inlineBits := by
        rw [← Holding.length_list ⟨pool.vector name, pool.provider⟩]
        exact short
      refine ⟨?_, quiet len⟩
      rw [here, mode, decide_eq_false (Nat.not_lt.mpr len), Bool.and_false]
  · rintro failure pool' ⟨h, never, -⟩
    exact never

theorem Pool.Sound.moves_exactly (sound : pool.Sound policy refusals others) (name : String) :
    pool.MovesExactly name where
  toHeap action := Action.outcome_toHeap sound
  toInline action := Action.outcome_toInline sound
  extended announced bits beside := Action.outcome_extend pool name announced bits beside
  bits action edit other := Action.perform_bits sound
  shrunk beside := Action.perform_shrunk sound beside
  clone target := by
    have cloned := BitVector.clone_alike (sound.tidy.vector_sound name) sound.books
    exact .get_bind ((make_vector (cloned.imp (fun _ _ made => made.2)
      fun _ _ _ => trivial)).map fun _ _ => id)
  tryClone target := by
    have cloned := BitVector.tryClone_alike (sound.tidy.vector_sound name) sound.books
    exact .get_bind ((make_vector (cloned.imp (fun _ _ made => made.2)
      fun _ _ _ => trivial)).map fun _ _ => id)
  made making :=
    (make_vector (BitVector.making_lands making _ _ _ _ sound.books)).map fun _ _ => id
  sliced source bounds := by
    have sliced := BitVector.slice_onHeap (S := S) (source.span_held sound.tidy) sound.books bounds
    refine .get_bind ((make_vector sliced).map fun _ pool' mode => ?_)
    rw [mode, Pool.list, Span.length_toList]
    exact congrArg (fun len => decide (inlineBits < len)) (LawfulStorage.len_span _).symm
  split target position := by
    refine (splitOff_target sound target position).map fun _ pool' mode => ?_
    rw [mode, Pool.list, Span.length_toList]
    exact congrArg (fun len => decide (inlineBits < len)) (LawfulStorage.len_span _).symm
  once actions := Action.modes_eq sound

end

def Backend.Hybrid : Backend → Prop
  | plain .. => False
  | smallBuffer => True
  | tagged => True

theorem Backend.Hybrid.inlineStorage {b : Backend} (hybrid : b.Hybrid) :
    InlineStorage b.Carrier b.width := by
  cases b with
  | plain width positive => exact hybrid.elim
  | smallBuffer => exact inferInstanceAs (InlineStorage SmallBuffer 64)
  | tagged => exact inferInstanceAs (InlineStorage Tagged 64)

/-- Whatever has been done before and whatever the provider answers, vectors of a storage of two
modes go to the heap and come back exactly at their requests and shrinkings. -/
theorem modes_change_exactly (b : Backend) (hybrid : b.Hybrid) {policy : Policy}
    (lawful : policy.Lawful) (actions : List (Action b.width)) (name : String) :
    let pool : Pool b.Carrier := (Action.run actions (Action.start policy)).2
    pool.MovesExactly name := by
  intro pool
  have := hybrid.inlineStorage
  have sound : pool.Sound policy 0 [] := Action.reached_sound (S := b.Carrier) lawful actions
  exact sound.moves_exactly name

/-- A hundred bits with packed capacities: asking twice for two hundred more goes to the heap once,
and shrinking comes back inline. -/
theorem modes_change_exactly_at_a_hundred_bits :
    let pool : Pool Backend.tagged.Carrier := (Action.run
      [.work .inPlace "a" (.grow (.resize 100 true)) (.vector "a")]
      (Action.start (Policy.pages 1))).2
    let ask : Action Backend.tagged.width :=
      .work .inPlace "a" (.grow (.reserve 200)) (.vector "a")
    let shrink : Action Backend.tagged.width := .work .inPlace "a" .shrinkToFit (.vector "a")
    Backend.tagged.Hybrid ∧ (Policy.pages 1).Lawful ∧ pool.MovesExactly "a" ∧
      Action.modes "a" [ask, ask, shrink] pool = [false, true, true, false] := by
  intro pool ask shrink
  have lawful : (Policy.pages 1).Lawful := Policy.pages_lawful (by decide)
  exact ⟨trivial, lawful, modes_change_exactly .tagged trivial lawful _ "a", by decide +kernel⟩

end PackedBits
