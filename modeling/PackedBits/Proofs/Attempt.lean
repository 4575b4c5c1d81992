import PackedBits.Failure

/-! How attempts end. An attempt on a state ends with an answer or with a failure, and either way
in some state; what is known of the two cases is carried through a sequence of attempts one bind at
a time. An attempt keeps a property of the state when it holds again however the attempt ends, and
no access has gone wild. -/
namespace PackedBits.Attempt
variable {σ τ α β : Type}

/-- From `start` the attempt ends with `done` or with `failed`. -/
def Ends (attempt : Attempt σ α) (start : σ) (done : α → σ → Prop)
    (failed : Failure → σ → Prop) : Prop :=
  match attempt start with
  | .ok value state => done value state
  | .error failure state => failed failure state

variable {attempt : Attempt σ α} {start : σ} {done : α → σ → Prop} {failed : Failure → σ → Prop}

instance [∀ value state, Decidable (done value state)]
    [∀ failure state, Decidable (failed failure state)] :
    Decidable (attempt.Ends start done failed) :=
  match run : attempt start with
  | .ok value state => decidable_of_iff (done value state) (by rw [Ends, run])
  | .error failure state => decidable_of_iff (failed failure state) (by rw [Ends, run])

theorem Ends.of_ok {value : α} {state : σ} (ran : attempt start = .ok value state)
    (reached : done value state) : attempt.Ends start done failed := by
  unfold Ends
  rw [ran]
  exact reached

theorem Ends.of_error {failure : Failure} {state : σ} (ran : attempt start = .error failure state)
    (stopped : failed failure state) : attempt.Ends start done failed := by
  unfold Ends
  rw [ran]
  exact stopped

theorem Ends.at_ok {value : α} {state : σ} (ends : attempt.Ends start done failed)
    (ran : attempt start = .ok value state) : done value state := by
  unfold Ends at ends
  rw [ran] at ends
  exact ends

theorem Ends.at_error {failure : Failure} {state : σ} (ends : attempt.Ends start done failed)
    (ran : attempt start = .error failure state) : failed failure state := by
  unfold Ends at ends
  rw [ran] at ends
  exact ends

theorem Ends.ran (ends : attempt.Ends start done failed) :
    (∃ value state, attempt start = .ok value state ∧ done value state) ∨
      ∃ failure state, attempt start = .error failure state ∧ failed failure state := by
  cases run : attempt start with
  | ok value state => exact .inl ⟨value, state, rfl, ends.at_ok run⟩
  | error failure state => exact .inr ⟨failure, state, rfl, ends.at_error run⟩

theorem Ends.succeeds (ends : attempt.Ends start done fun _ _ => False) :
    ∃ value state, attempt start = .ok value state ∧ done value state :=
  ends.ran.resolve_right fun ⟨_, _, _, never⟩ => never

theorem Ends.fails (ends : attempt.Ends start (fun _ _ => False) failed) :
    ∃ failure state, attempt start = .error failure state ∧ failed failure state :=
  ends.ran.resolve_left fun ⟨_, _, _, never⟩ => never

theorem Ends.imp {done' : α → σ → Prop} {failed' : Failure → σ → Prop}
    (ends : attempt.Ends start done failed)
    (onDone : ∀ value state, done value state → done' value state)
    (onFailed : ∀ failure state, failed failure state → failed' failure state) :
    attempt.Ends start done' failed' := by
  obtain ⟨value, state, ran, reached⟩ | ⟨failure, state, ran, stopped⟩ := ends.ran
  · exact .of_ok ran (onDone value state reached)
  · exact .of_error ran (onFailed failure state stopped)

theorem bind_apply {next : α → Attempt σ β} {value : α} {state : σ}
    (run : attempt start = .ok value state) : (attempt >>= next) start = next value state := by
  simp only [bind, EStateM.bind, run]

theorem bind_stops {next : α → Attempt σ β} {failure : Failure} {state : σ}
    (run : attempt start = .error failure state) :
    (attempt >>= next) start = .error failure state := by
  simp only [bind, EStateM.bind, run]

theorem map_ok {value : α} {state : σ} (ran : attempt start = .ok value state) (change : α → β) :
    (change <$> attempt) start = .ok (change value) state := by
  simp only [Functor.map, EStateM.map, ran]

theorem map_error {failure : Failure} {state : σ} (ran : attempt start = .error failure state)
    (change : α → β) : (change <$> attempt) start = .error failure state := by
  simp only [Functor.map, EStateM.map, ran]

theorem within_ok {part : τ → σ} {put : τ → σ → τ} {whole : τ} {value : α} {state : σ}
    (ran : attempt (part whole) = .ok value state) :
    (attempt.within part put) whole = .ok value (put whole state) := by
  simp only [within, ran]

theorem within_error {part : τ → σ} {put : τ → σ → τ} {whole : τ} {failure : Failure} {state : σ}
    (ran : attempt (part whole) = .error failure state) :
    (attempt.within part put) whole = .error failure (put whole state) := by
  simp only [within, ran]

theorem Ends.traced (ends : attempt.Ends start done failed) :
    attempt.Ends start (fun value state => attempt start = .ok value state ∧ done value state)
      fun failure state => attempt start = .error failure state ∧ failed failure state := by
  obtain ⟨value, state, ran, reached⟩ | ⟨failure, state, ran, stopped⟩ := ends.ran
  · exact .of_ok ran ⟨ran, reached⟩
  · exact .of_error ran ⟨ran, stopped⟩

/-- A sequence ends as its second part does from wherever the first has led. -/
theorem Ends.bind {next : α → Attempt σ β} {last : β → σ → Prop}
    (ends : attempt.Ends start done failed)
    (rest : ∀ value state, done value state → (next value).Ends state last failed) :
    (attempt >>= next).Ends start last failed := by
  obtain ⟨value, state, ran, reached⟩ | ⟨failure, state, ran, stopped⟩ := ends.ran
  · unfold Ends
    rw [bind_apply ran]
    exact rest value state reached
  · exact .of_error (bind_stops ran) stopped

theorem Ends.forM {γ : Type} {body : γ → Attempt σ PUnit} {items : List γ}
    (left : List γ → σ → Prop) (begun : left items start)
    (each : ∀ item rest state, left (item :: rest) state →
      (body item).Ends state (fun _ => left rest) failed) :
    (items.forM body).Ends start (fun _ => left []) failed := by
  induction items generalizing start with
  | nil => exact begun
  | cons item rest ih => exact (each item rest start begun).bind fun _ _ reached => ih reached

theorem Ends.pure {value : α} (reached : done value start) :
    (Pure.pure value : Attempt σ α).Ends start done failed := reached

theorem Ends.get_bind {next : σ → Attempt σ β} {last : β → σ → Prop}
    (rest : (next start).Ends start last failed) :
    ((get : Attempt σ σ) >>= next).Ends start last failed := rest

theorem get_bind_apply {next : σ → Attempt σ β} (state : σ) :
    ((get : Attempt σ σ) >>= next) state = next state state := rfl

theorem Ends.map {change : α → β} {last : β → σ → Prop} (ends : attempt.Ends start done failed)
    (reached : ∀ value state, done value state → last (change value) state) :
    (change <$> attempt).Ends start last failed := by
  have sequenced : (change <$> attempt : Attempt σ β) =
      attempt >>= fun value => Pure.pure (change value) :=
    (bind_pure_comp change attempt).symm
  rw [sequenced]
  exact ends.bind fun value state known => .pure (reached value state known)

theorem ask_ok {question : σ → Query α} {value : α} (answer : question start = .ok value) :
    Attempt.ask question start = .ok value start := by
  simp only [Attempt.ask, answer]

theorem Ends.ask {question : σ → Query α}
    (answered : ∀ value, question start = .ok value → done value start)
    (refused : ∀ failure, question start = .error failure → failed failure start) :
    (Attempt.ask question).Ends start done failed := by
  unfold Ends Attempt.ask
  cases run : question start with
  | ok value => exact answered value run
  | error failure => exact refused failure run

theorem Ends.ask_bind {question : σ → Query α} {next : α → Attempt σ β} {last : β → σ → Prop}
    (answered : ∀ value, question start = .ok value → (next value).Ends start last failed)
    (refused : ∀ failure, question start = .error failure → failed failure start) :
    (Attempt.ask question >>= next).Ends start last failed := by
  have asked : (Attempt.ask question).Ends start
      (fun value state => state = start ∧ question start = .ok value) failed :=
    .ask (fun _ answer => ⟨rfl, answer⟩) refused
  refine asked.bind ?_
  rintro value state ⟨rfl, answer⟩
  exact answered value answer

theorem Ends.ask_answered {question : σ → Query α} {next : α → Attempt σ β} {last : β → σ → Prop}
    {value : α} (answer : question start = .ok value) (rest : (next value).Ends start last failed) :
    (Attempt.ask question >>= next).Ends start last failed := by
  refine .ask_bind ?_ ?_
  · intro other answered
    rw [answer] at answered
    cases answered
    exact rest
  · intro failure refused
    rw [answer] at refused
    cases refused

theorem Ends.ask_refused {question : σ → Query α} {next : α → Attempt σ β} {last : β → σ → Prop}
    {failure : Failure} (refusal : question start = .error failure)
    (stopped : failed failure start) : (Attempt.ask question >>= next).Ends start last failed := by
  refine .ask_bind ?_ ?_
  · intro value answered
    rw [refusal] at answered
    cases answered
  · intro other refused
    rw [refusal] at refused
    cases refused
    exact stopped

def panicked : Failure → Failure
  | .error error => .panic (.refused error)
  | other => other

theorem error_tame (error : Error) : Failure.error error ≠ .wild := nofun

theorem panic_tame (panic : Panic) : Failure.panic panic ≠ .wild := nofun

theorem panicked_tame {failure : Failure} (tame : failure ≠ .wild) : panicked failure ≠ .wild := by
  cases failure with
  | error error => exact panic_tame _
  | panic panic => exact panic_tame _
  | wild => exact absurd rfl tame

theorem orPanic_error {failure : Failure} {state : σ} (run : attempt start = .error failure state) :
    attempt.orPanic start = .error (panicked failure) state := by
  cases failure <;> simp [orPanic, run, panicked]

theorem orPanic_ok {value : α} {state : σ} (run : attempt start = .ok value state) :
    attempt.orPanic start = .ok value state := by
  simp [orPanic, run]

theorem Ends.orPanic {failed' : Failure → σ → Prop} (ends : attempt.Ends start done failed)
    (turned : ∀ failure state, failed failure state → failed' (panicked failure) state) :
    attempt.orPanic.Ends start done failed' := by
  obtain ⟨value, state, ran, reached⟩ | ⟨failure, state, ran, stopped⟩ := ends.ran
  · exact .of_ok (orPanic_ok ran) reached
  · exact .of_error (orPanic_error ran) (turned failure state stopped)

theorem Ends.unlessRefused {attempt : Attempt σ Unit} {done : Unit → σ → Prop}
    (ends : attempt.Ends start done failed)
    (refused : ∀ error state, failed (.error error) state → done () state) :
    attempt.unlessRefused.Ends start done
      fun failure state => failed failure state ∧ ∀ error, failure ≠ .error error := by
  unfold Ends Attempt.unlessRefused
  obtain ⟨value, state, ran, reached⟩ | ⟨failure, state, ran, stopped⟩ := ends.ran
  · rw [ran]
    exact reached
  · rw [ran]
    cases failure with
    | error error => exact refused error state stopped
    | panic panic => exact ⟨stopped, nofun⟩
    | wild => exact ⟨stopped, nofun⟩

theorem Ends.within (start : σ) {part : σ → τ} {put : σ → τ → σ} {inner : Attempt τ α}
    {innerDone : α → τ → Prop} {innerFailed : Failure → τ → Prop}
    (ends : inner.Ends (part start) innerDone innerFailed)
    (onDone : ∀ value state, innerDone value state → done value (put start state))
    (onFailed : ∀ failure state, innerFailed failure state → failed failure (put start state)) :
    (inner.within part put).Ends start done failed := by
  obtain ⟨value, state, ran, reached⟩ | ⟨failure, state, ran, stopped⟩ := ends.ran
  · exact .of_ok (within_ok ran) (onDone value state reached)
  · exact .of_error (within_error ran) (onFailed failure state stopped)

theorem Ends.finally {last : Attempt σ β} {done' : α → σ → Prop} {failed' : Failure → σ → Prop}
    (ends : attempt.Ends start done failed)
    (afterDone : ∀ value state, done value state →
      last.Ends state (fun _ => done' value) failed')
    (afterFailed : ∀ failure state, failed failure state →
      last.Ends state (fun _ => failed' failure) failed') :
    (tryFinally attempt last).Ends start done' failed' := by
  have both : (tryFinally' attempt fun _ => last).Ends start
      (fun (value : α × β) state => done' value.1 state) failed' := by
    unfold Ends
    simp only [tryFinally', MonadFinally.tryFinally']
    obtain ⟨value, state, ran, reached⟩ | ⟨failure, state, ran, stopped⟩ := ends.ran
    · obtain ⟨_, _, closed, known⟩ | ⟨_, _, closed, known⟩ := (afterDone value state reached).ran
      · simpa only [ran, closed] using known
      · simpa only [ran, closed] using known
    · obtain ⟨_, _, closed, known⟩ | ⟨_, _, closed, known⟩ :=
        (afterFailed failure state stopped).ran
      · simpa only [ran, closed] using known
      · simpa only [ran, closed] using known
  exact both.map fun _ _ known => known

theorem Ends.any (attempt : Attempt σ α) (start : σ) :
    attempt.Ends start (fun _ _ => True) fun _ _ => True := by
  unfold Ends
  split <;> trivial

theorem Ends.and {done' : α → σ → Prop} {failed' : Failure → σ → Prop}
    (ends : attempt.Ends start done failed) (ends' : attempt.Ends start done' failed') :
    attempt.Ends start (fun value state => done value state ∧ done' value state)
      fun failure state => failed failure state ∧ failed' failure state := by
  obtain ⟨value, state, ran, reached⟩ | ⟨failure, state, ran, stopped⟩ := ends.ran
  · exact .of_ok ran ⟨reached, ends'.at_ok ran⟩
  · exact .of_error ran ⟨stopped, ends'.at_error ran⟩

/-- A property of the state that holds again however the attempt ends. -/
def Keeps (attempt : Attempt σ α) (holds : σ → Prop) : Prop :=
  ∀ start, holds start →
    attempt.Ends start (fun _ state => holds state)
      fun failure state => failure ≠ .wild ∧ holds state

namespace Keeps
variable {holds : σ → Prop} {next : α → Attempt σ β}

theorem bind (first : attempt.Keeps holds) (rest : ∀ value, (next value).Keeps holds) :
    (attempt >>= next).Keeps holds := fun start before =>
  (first start before).bind fun value state reached => rest value state reached

theorem pure (value : α) : (Pure.pure value : Attempt σ α).Keeps holds := fun _ before => before

theorem get_bind {next : σ → Attempt σ β}
    (rest : ∀ state, holds state → (next state).Ends state (fun _ after => holds after)
      fun failure after => failure ≠ .wild ∧ holds after) :
    ((get : Attempt σ σ) >>= next).Keeps holds := fun start before => rest start before

theorem map (first : attempt.Keeps holds) (change : α → β) : (change <$> attempt).Keeps holds :=
  fun start before => (first start before).map fun _ _ reached => reached

theorem discard (first : attempt.Keeps holds) : (discard attempt).Keeps holds :=
  first.map fun _ => ()

theorem orPanic (first : attempt.Keeps holds) : attempt.orPanic.Keeps holds := fun start before =>
  (first start before).orPanic fun _ _ ⟨tame, reached⟩ =>
    ⟨panicked_tame tame, reached⟩

theorem forM {γ : Type} {body : γ → Attempt σ PUnit} (each : ∀ item, (body item).Keeps holds)
    (items : List γ) :
    (items.forM body).Keeps holds := fun _ before =>
  Ends.forM (fun _ => holds) before fun item _ state => each item state

end Keeps

/-- However the attempt ends, what is looked at is as it was. -/
def Leaves {γ : Type} (attempt : Attempt σ α) (look : σ → γ) : Prop :=
  ∀ start, attempt.Ends start (fun _ state => look state = look start)
    fun _ state => look state = look start

namespace Leaves
variable {γ : Type} {look : σ → γ} {next : α → Attempt σ β}

theorem bind (first : attempt.Leaves look) (rest : ∀ value, (next value).Leaves look) :
    (attempt >>= next).Leaves look := fun start =>
  (first start).bind fun value state same =>
    (rest value state).imp (fun _ _ later => later.trans same) fun _ _ later => later.trans same

theorem get_bind {next : σ → Attempt σ β} (rest : ∀ state, (next state).Leaves look) :
    ((get : Attempt σ σ) >>= next).Leaves look := fun start => rest start start

theorem pure (value : α) : (Pure.pure value : Attempt σ α).Leaves look := fun _ => rfl

theorem map (first : attempt.Leaves look) (change : α → β) : (change <$> attempt).Leaves look :=
  fun start => (first start).map fun _ _ same => same

theorem modified {change : σ → σ} (same : ∀ state, look (change state) = look state) :
    (modify change : Attempt σ PUnit).Leaves look := fun start => same start

theorem within {part : σ → τ} {put : σ → τ → σ} (inner : Attempt τ α)
    (same : ∀ state after, look (put state after) = look state) :
    (inner.within part put).Leaves look := fun start =>
  Attempt.Ends.within start (Ends.any inner (part start)) (fun _ after _ => same start after)
    fun _ after _ => same start after

end Leaves

end PackedBits.Attempt
