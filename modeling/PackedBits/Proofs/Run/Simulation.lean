import PackedBits.Proofs.Backend
import PackedBits.Proofs.Run.Edit

/-! Vectors do what lists do. As long as nothing is refused, every command does to the bits of the
vectors what it does to plain lists, answers and failures included; so a run has the trace of the
same run on lists, whatever the storage, the width of its words or the blocks that it is given. -/
namespace PackedBits

variable {S α β : Type} {w : Nat} [HasBits w] [Storage S w] [StorageSpec S w]

/-- The attempt does to the bits of a vector what `abstract` does to a list, or it is refused and
that is counted. -/
def Follows (policy : Policy) (refusals : Nat) (others : List Grant)
    (attempt : Attempt (Holding S) α) (abstract : Attempt (List Bool) α) (h : Holding S) : Prop :=
  attempt.Ends h
    (fun value h' => h'.Sound policy refusals others ∧ abstract h.list = .ok value h'.list)
    fun failure h' =>
      (h'.Sound policy refusals others ∧ abstract h.list = .error failure h'.list) ∨
        h'.Sound policy (refusals + 1) others

variable {policy : Policy} {refusals : Nat} {others : List Grant} {h : Holding S}

omit [HasBits w] in
theorem Follows.of_performs {attempt : Attempt (Holding S) α} {abstract : Attempt (List Bool) α}
    {total : Nat} (performs : h.Performs policy refusals others attempt abstract total)
    (allowed : Storage.Allows S policy total) :
    Follows policy refusals others attempt abstract h := by
  refine Attempt.Ends.imp performs ?_ ?_
  · rintro value h' ⟨sound, same, -⟩
    exact ⟨sound, same⟩
  · rintro failure h' (⟨sound, stopped, list, -⟩ | denied)
    · exact .inl ⟨sound, by rw [list]; exact stopped⟩
    · exact .inr (denied.counted allowed)

namespace Task

theorem rewriting_beside {question : List Bool → Query (α × List Bool)} (reply : α → Reply) :
    Attempt.rewriting (fun bits => Reply.beside reply (question bits)) =
      reply <$> Attempt.rewriting question := by
  funext bits
  cases asked : question bits with
  | ok after =>
      have ran : Attempt.rewriting question bits = .ok after.1 after.2 := by
        rw [Attempt.rewriting, asked]
      rw [Attempt.map_ok ran, Attempt.rewriting, asked]
      rfl
  | error failure =>
      have ran : Attempt.rewriting question bits = .error failure bits := by
        rw [Attempt.rewriting, asked]
      rw [Attempt.map_error ran, Attempt.rewriting, asked]
      rfl

theorem setAt_eq (index : Nat) (value : Bool) :
    setAt index value = .rewriting (OnList.atBit index fun _ => ((), value)) := by
  funext bits
  rw [setAt, Attempt.get_bind_apply, Attempt.rewriting, OnList.atBit]
  by_cases inside : index < bits.length
  · rw [if_pos inside, List.getElem?_eq_getElem inside]
    rfl
  · rw [if_neg inside, List.getElem?_eq_none (Nat.le_of_not_lt inside)]
    rfl

theorem onRange_eq (bounds : Bounds) (change : Bool → Bool) {new : List Bool → Extent → List Bool}
    (same : ∀ bits extent, bounds.resolve bits.length = .ok extent →
      new bits extent = ((bits.drop extent.start).take extent.size).map change) :
    onRange bounds new = .rewriting (OnList.onRange bounds change) := by
  funext bits
  rw [onRange, Attempt.get_bind_apply, Attempt.rewriting]
  rcases Bounds.resolve_cases bounds bits.length with ⟨none, resolved⟩ | ⟨panic, stops, stopped⟩
  · rw [OnList.onRange_ok resolved, ← same bits _ resolved, none]
    rfl
  · rw [OnList.onRange_error stopped, stops]
    rfl

theorem filled_eq (bounds : Bounds) (value : Bool) (bits : List Bool) (extent : Extent)
    (resolved : bounds.resolve bits.length = .ok extent) :
    List.replicate extent.size value =
      ((bits.drop extent.start).take extent.size).map fun _ => value := by
  obtain ⟨order, inside⟩ := Bounds.resolve_within resolved
  have size := Extent.start_add_size order
  rw [List.map_const', List.length_take, List.length_drop, Nat.min_eq_left (by omega)]

theorem onList_eq (task : Task) (other : List Bool) :
    task.onList other = task.toEdit.onList other := by
  cases task with
  | grow growth => rfl
  | force growth => rfl
  | truncate count => rfl
  | clear => rfl
  | shrinkToFit => rfl
  | pop => rfl
  | erase index => rfl
  | eraseRange bounds => rfl
  | setBit index value => exact (congrArg _ (setAt_eq index value)).trans (rewriting_beside _).symm
  | fillRange bounds value =>
      exact (congrArg _ (onRange_eq bounds _ (filled_eq bounds value))).trans
        (rewriting_beside _).symm
  | flipRange bounds =>
      exact (congrArg _ (onRange_eq bounds not fun _ _ _ => rfl)).trans (rewriting_beside _).symm

theorem total_eq (task : Task) (bits other : List Bool) :
    task.total bits other = task.toEdit.total bits other := by
  cases task <;> rfl

end Task

variable [LawfulStorage S w] {other : Span w}

theorem Task.attempt_follows (sound : h.Sound policy refusals others)
    (admitted : Storage.Admitted S policy) (task : Task) (held : other.Held)
    (fits : task.total h.list other.toList ≤ Storage.maxBits S) :
    Follows policy refusals others (task.toEdit.attempt other) (task.onList other.toList) h := by
  have single (plain : task.toEdit.Single) :
      Follows policy refusals others (task.toEdit.attempt other) (task.onList other.toList) h := by
    rw [total_eq] at fits
    rw [onList_eq]
    exact .of_performs (Edit.attempt_performs sound plain held) ⟨fits, admitted⟩
  cases task with
  | shrinkToFit =>
      -- Giving room back is the one task that is not done in the room there is.
      have ends := LawfulStorage.shrinkToFit_ends sound
      refine Attempt.Ends.map (ends.imp (fun _ _ => id) fun _ _ => False.elim) ?_
      rintro ⟨⟩ h' ⟨sound', list⟩
      exact ⟨sound', by rw [list]; rfl⟩
  | grow growth => exact single trivial
  | force growth => exact single trivial
  | truncate count => exact single trivial
  | clear => exact single trivial
  | pop => exact single trivial
  | erase index => exact single trivial
  | eraseRange bounds => exact single trivial
  | setBit index value => exact single trivial
  | fillRange bounds value => exact single trivial
  | flipRange bounds => exact single trivial

omit [HasBits w] [StorageSpec S w] [LawfulStorage S w] in
theorem Operand.toList_span (pool : Pool S) (operand : Operand (Window w)) :
    (operand.span pool).toList = (operand.map Window.bits).list pool.list := by
  cases operand with
  | given window => rfl
  | vector name => rfl

omit [HasBits w] [StorageSpec S w] [LawfulStorage S w] in
theorem Pool.list_hold_eq (pool : Pool S) (name : String) (h : Holding S) :
    (pool.hold name h).list = Lists.put pool.list name h.list := by
  funext other
  exact pool.list_hold name other h

omit [HasBits w] [StorageSpec S w] [LawfulStorage S w] in
theorem Pool.list_put_eq {pool pool' : Pool S} {name : String} {s : S} {bits : List Bool}
    (vectors : ∀ other, pool'.vector other = if other = name then s else pool.vector other)
    (list : (Container.span s).toList = bits) : pool'.list = Lists.put pool.list name bits := by
  funext other
  rw [Pool.list_of_vectors vectors, list]
  rfl

namespace Command
variable {pool : Pool S}

def Follows (policy : Policy) (refusals : Nat) (attempt : Attempt (Pool S) α)
    (abstract : Attempt Lists α) (pool : Pool S) : Prop :=
  attempt.Ends pool
    (fun value pool' => pool'.Sound policy refusals [] ∧ abstract pool.list = .ok value pool'.list)
    fun failure pool' =>
      (pool'.Sound policy refusals [] ∧ abstract pool.list = .error failure pool'.list) ∨
        pool'.Sound policy (refusals + 1) []

theorem edit_follows (sound : pool.Sound policy refusals []) (admitted : Storage.Admitted S policy)
    (name : String) (task : Task) (beside : Operand (Window w))
    (fits : task.total (pool.list name) ((beside.map Window.bits).list pool.list) ≤
      Storage.maxBits S) :
    Follows policy refusals (Pool.work name (task.toEdit.attempt (beside.span pool)))
      ((task.onList ((beside.map Window.bits).list pool.list)).within
        (fun lists : Lists => lists name) fun lists bits => lists.put name bits) pool := by
  rw [← beside.toList_span] at fits ⊢
  have follows := task.attempt_follows (sound.holding name) admitted
    (beside.span_held sound.tidy) fits
  refine (Pool.work_ends follows).imp ?_ ?_
  · rintro reply pool' ⟨h, ⟨after, same⟩, rfl⟩
    refine ⟨sound.tidy.hold_sound after, ?_⟩
    rw [Pool.list_hold_eq]
    exact Attempt.within_ok same
  · rintro failure pool' ⟨h, ⟨after, same⟩ | counted, rfl⟩
    · refine .inl ⟨sound.tidy.hold_sound after, ?_⟩
      rw [Pool.list_hold_eq]
      exact Attempt.within_error same
    · exact .inr (sound.tidy.hold_sound counted)

theorem resolving_ok {bounds : Bounds} {length : Nat} {extent : Extent} {next : Extent → Lists}
    {lists : Lists} (resolved : bounds.resolve length = .ok extent) :
    resolving bounds length next lists = .ok .done (next extent) := by
  obtain ⟨rfl, -, none⟩ := Bounds.resolve_ok resolved
  unfold resolving
  rw [none]
  rfl

theorem resolving_error {bounds : Bounds} {length : Nat} {failure : Failure}
    {next : Extent → Lists} {lists : Lists} (stopped : bounds.resolve length = .error failure) :
    resolving bounds length next lists = .error failure lists := by
  obtain ⟨panic, stops, rfl⟩ := Bounds.resolve_error stopped
  unfold resolving
  rw [stops]
  rfl

theorem slice_follows (sound : pool.Sound policy refusals []) (admitted : Storage.Admitted S policy)
    (source : Operand (Window w)) (target : String) (bounds : Bounds)
    (fits : (slice (source.map Window.bits) target bounds).total pool.list ≤ Storage.maxBits S) :
    Follows policy refusals
      ((fun _ => .done) <$> Pool.make target (BitVector.slice (source.span pool) bounds))
      (slice (source.map Window.bits) target bounds).onLists pool := by
  have sliced := BitVector.slice_ends (S := S) (source.span_held sound.tidy) sound.books bounds
  rw [← Span.length_toList, source.toList_span] at sliced
  refine Attempt.Ends.map ((Pool.make_ends sound.tidy sliced).imp (fun _ _ => id) ?_) ?_
  · rintro failure pool' ⟨p, stopped, rfl⟩
    rcases stopped with ⟨stopped, rfl⟩ | ⟨extent, resolved, declined⟩
    · exact .inl ⟨sound, (onLists_slice ..).trans (resolving_error stopped)⟩
    · have small : extent.size ≤ Storage.maxBits S := by
        obtain ⟨rfl, -, none⟩ := Bounds.resolve_ok resolved
        simp only [total, none] at fits
        exact fits
      exact .inr ⟨⟨sound.tidy.distinct, sound.tidy.storages⟩, declined.counted ⟨small, admitted⟩⟩
  · rintro ⟨⟩ pool' ⟨sound', s, ⟨extent, resolved, list⟩, vectors⟩
    refine ⟨sound', ?_⟩
    rw [Pool.list_put_eq vectors list]
    exact (onLists_slice ..).trans (resolving_ok resolved)

theorem splitOff_follows (sound : pool.Sound policy refusals [])
    (admitted : Storage.Admitted S policy) (name target : String) (position : Nat) :
    Follows policy refusals ((fun _ => .done) <$> Pool.splitOff name target position)
      (splitOff name target position).onLists pool := by
  have ends := Pool.splitOff_ends sound name target position
  refine Attempt.Ends.map (ends.imp (fun _ _ => id) ?_) ?_
  · rintro failure pool' ⟨-, sound', ⟨stopped, same⟩ | ⟨extent, resolved, counted⟩⟩
    · refine .inl ⟨sound', ?_⟩
      rw [show pool'.list = pool.list from funext same]
      exact (onLists_splitOff ..).trans (resolving_error stopped)
    · obtain ⟨order, inside⟩ := Bounds.resolve_within resolved
      have length : (pool.list name).length = Storage.len (pool.vector name) := by
        rw [Pool.list, Span.length_toList]
        exact LawfulStorage.len_span _
      have small := LawfulStorage.len_le_maxBits (sound.tidy.vector_sound name)
      have part : extent.size ≤ Storage.maxBits S := by
        rw [Extent.size]
        omega
      exact .inr (counted ⟨part, admitted⟩)
  · rintro ⟨⟩ pool' ⟨sound', extent, resolved, lists⟩
    refine ⟨sound', ?_⟩
    rw [show pool'.list = _ from funext lists]
    exact (onLists_splitOff ..).trans (resolving_ok resolved)

theorem copy_follows {copy : Attempt Provider S} (sound : pool.Sound policy refusals [])
    (admitted : Storage.Admitted S policy) {name target : String}
    (copied : copy.Ends pool.provider
      (fun s p => BitVector.Made policy refusals (pool.blocks ++ []) s p ∧
        (Container.span s).toList = pool.list name)
      (Declined policy refusals (pool.blocks ++ []) (Storage.Admitted S policy))) :
    Follows policy refusals ((fun _ => .done) <$> Pool.make target copy)
      (tryClone name target).onLists pool := by
  refine Attempt.Ends.map ((Pool.make_ends sound.tidy copied).imp (fun _ _ => id) ?_) ?_
  · rintro failure pool' ⟨p, declined, rfl⟩
    exact .inr ⟨⟨sound.tidy.distinct, sound.tidy.storages⟩, declined.counted admitted⟩
  · rintro ⟨⟩ pool' ⟨sound', s, list, vectors⟩
    refine ⟨sound', ?_⟩
    rw [Pool.list_put_eq vectors list]
    rfl

/-- Every command within the greatest length does to the vectors what it does to lists. -/
theorem perform_follows (sound : pool.Sound policy refusals [])
    (admitted : Storage.Admitted S policy) (command : Command (Window w))
    (fits : (command.map Window.bits).total pool.list ≤ Storage.maxBits S) :
    Follows policy refusals command.toAction.perform (command.map Window.bits).onLists pool := by
  cases command with
  | edit name task beside => exact edit_follows sound admitted name task beside fits
  | slice source target bounds =>
      exact .get_bind (slice_follows sound admitted source target bounds fits)
  | splitOff name target position => exact splitOff_follows sound admitted name target position
  | clone name target =>
      exact .get_bind (copy_follows sound admitted
        (BitVector.clone_ends (sound.tidy.vector_sound name) sound.books))
  | tryClone name target =>
      exact .get_bind (copy_follows sound admitted
        (BitVector.tryClone_ends (sound.tidy.vector_sound name) sound.books))

end Command

section
variable {S : Type} {w : Nat} [HasBits w] [Storage S w]

def Pool.sight (pool : Pool S) : Sight := fun name =>
  (Storage.len (pool.vector name), (pool.span name).bits)

namespace Command

def trace : List (Command (Window w)) → Pool S → Trace
  | [], _ => []
  | command :: rest, pool =>
      let (reply, pool) := command.toAction.perform.outcome pool
      (reply, pool.sight) :: trace rest pool

def poolAfter (commands : List (Command (Window w))) (pool : Pool S) : Pool S :=
  (Action.run (commands.map toAction) pool).2

def bare (commands : List (Command (Window w))) : List (Command (List Bool)) :=
  commands.map (map Window.bits)

theorem trace_cons (command : Command (Window w)) (rest : List (Command (Window w)))
    (pool : Pool S) :
    trace (command :: rest) pool =
      ((command.toAction.perform.outcome pool).1,
        (command.toAction.perform.outcome pool).2.sight) ::
          trace rest (command.toAction.perform.outcome pool).2 := rfl

end Command

end

variable {pool : Pool S}

theorem Pool.sight_eq (sound : pool.Sound policy refusals others) :
    pool.sight = Lists.sight pool.list := by
  funext name
  have held := sound.tidy.span_held name
  have length : Storage.len (pool.vector name) = (pool.list name).length := by
    rw [Pool.list, Span.length_toList]
    exact (LawfulStorage.len_span _).symm
  rw [Pool.sight, Lists.sight, length, Span.bits_eq held]
  rfl

namespace Command

omit [HasBits w] [LawfulStorage S w] in
theorem Follows.outcome {attempt : Attempt (Pool S) α} {abstract : Attempt Lists α}
    (follows : Follows policy refusals attempt abstract pool) :
    ((attempt.outcome pool).2.Sound policy refusals [] ∧
      (attempt.outcome pool).1 = (abstract.outcome pool.list).1 ∧
      (attempt.outcome pool).2.list = (abstract.outcome pool.list).2) ∨
    (attempt.outcome pool).2.Sound policy (refusals + 1) [] := by
  obtain ⟨value, answer, sound, same⟩ | ⟨failure, answer, ⟨sound, same⟩ | counted⟩ :=
    Attempt.Ends.outcome follows
  · rw [answer, Attempt.outcome_ok same]
    exact .inl ⟨sound, rfl, rfl⟩
  · rw [answer, Attempt.outcome_error same]
    exact .inl ⟨sound, rfl, rfl⟩
  · exact .inr counted

/-- From command to command the vectors have the lists of the same run on lists. A refusal would
show in the books at the end. -/
theorem run_follows (commands : List (Command (Window w))) (sound : pool.Sound policy 0 [])
    (admitted : Storage.Admitted S policy)
    (fit : Fit (Storage.maxBits S) (bare commands) pool.list)
    (granted : (poolAfter commands pool).provider.requests =
      (poolAfter commands pool).provider.grants) :
    trace commands pool = listTrace (bare commands) pool.list ∧
      (poolAfter commands pool).list = listsAfter (bare commands) pool.list := by
  induction commands generalizing pool with
  | nil => exact ⟨rfl, rfl⟩
  | cons command rest ih =>
      obtain ⟨fits, later⟩ := fit
      rcases (perform_follows sound admitted command fits).outcome with
        ⟨after, reply, lists⟩ | counted
      -- As many bits are asked for as on lists, so the rest fits too.
      · rw [← lists] at later
        obtain ⟨traced, final⟩ := ih after later granted
        constructor
        · rw [trace_cons, traced, Pool.sight_eq after, reply, lists]
          rfl
        · refine final.trans ?_
          rw [lists]
          rfl
      -- From a counted refusal on there are fewer grants than requests, also at the end.
      · have books := (Action.run_sound (rest.map toAction) counted).2.books.refused
        have same : (Action.run (rest.map toAction)
            (command.toAction.perform.outcome pool).2).2.provider.requests =
          (Action.run (rest.map toAction)
            (command.toAction.perform.outcome pool).2).2.provider.grants := granted
        omega

end Command

end PackedBits
