import PackedBits.Proofs.Attempt
import PackedBits.Proofs.Run.Action
import PackedBits.Proofs.Walk.Queue

/-! What a walk has ahead: the item that stepping on reaches after so many others. The items ahead
of a walk end where stepping first finds none, so the number of them is bounded from below by the
places that hold one and from above by a place that does not. A walk is lawful if jumping reaches the
same items as stepping and its hint bounds their number. -/
namespace PackedBits

namespace Walk
variable {ι α : Type} [Walk ι α] {walk walk' : ι}

/-- The item after the next `n` items, if the walk gets that far. -/
def ahead (n : Nat) (walk : ι) : Option α :=
  match skipping next n walk with
  | .ok item _ => item
  | .error _ _ => none

theorem skipping_some {item : α} (ran : (next : Attempt ι (Option α)) walk = .ok (some item) walk')
    (n : Nat) : (skipping next (n + 1) : Attempt ι (Option α)) walk = skipping next n walk' := by
  rw [skipping, Attempt.bind_apply ran]

theorem skipping_none (ran : (next : Attempt ι (Option α)) walk = .ok none walk') (n : Nat) :
    (skipping next n : Attempt ι (Option α)) walk = .ok none walk' := by
  cases n with
  | zero => exact ran
  | succ n =>
      rw [skipping, Attempt.bind_apply ran]
      rfl

theorem ahead_zero {item : α} (ran : (next : Attempt ι (Option α)) walk = .ok (some item) walk') :
    ahead 0 walk = some item := by
  rw [ahead, skipping, ran]

theorem ahead_succ {item : α} (ran : (next : Attempt ι (Option α)) walk = .ok (some item) walk')
    (n : Nat) : ahead (n + 1) walk = ahead n walk' := by
  rw [ahead, skipping_some ran, ahead]

theorem ahead_none (ran : (next : Attempt ι (Option α)) walk = .ok none walk') (n : Nat) :
    ahead n walk = none := by
  rw [ahead, skipping_none ran]

theorem ahead_error {failure : Failure}
    (ran : (next : Attempt ι (Option α)) walk = .error failure walk') (n : Nat) :
    ahead n walk = none := by
  cases n with
  | zero => rw [ahead, skipping, ran]
  | succ n => rw [ahead, skipping, Attempt.bind_stops ran]

theorem ahead_none_mono {n k : Nat} (missing : ahead n walk = none) (order : n ≤ k) :
    ahead k walk = none := by
  induction n generalizing walk k with
  | zero =>
      cases ran : (next : Attempt ι (Option α)) walk with
      | ok item walk' =>
          rw [ahead, skipping, ran] at missing
          cases missing
          exact ahead_none ran k
      | error failure walk' => exact ahead_error ran k
  | succ n ih =>
      obtain ⟨k, rfl⟩ := Nat.exists_eq_add_of_le' (Nat.le_trans (Nat.le_add_left 1 n) order)
      cases ran : (next : Attempt ι (Option α)) walk with
      | ok item walk' =>
          cases item with
          | none => exact ahead_none ran (k + 1)
          | some item =>
              rw [ahead_succ ran] at missing ⊢
              exact ih missing (Nat.le_of_succ_le_succ order)
      | error failure walk' => exact ahead_error ran (k + 1)

def AtLeast (n : Nat) (walk : ι) : Prop := ∀ k < n, (ahead k walk).isSome

def AtMost (n : Nat) (walk : ι) : Prop := ahead n walk = none

/-- From such states on, jumping reaches what stepping reaches, and the hint bounds what is ahead
and does not change it; none of the two ever fails. -/
structure Lawful (good : ι → Prop) : Prop where
  nth {walk : ι} (n : Nat) : good walk → ∃ walk', Walk.nth n walk = .ok (ahead n walk) walk' ∧
    good walk' ∧ ((ahead n walk).isSome → ∀ k, ahead k walk' = ahead (n + 1 + k) walk)
  hint {walk : ι} : good walk → ∃ hint walk', Walk.hint walk = .ok hint walk' ∧ good walk' ∧
    (∀ k, ahead k walk' = ahead k walk) ∧ AtLeast hint.lower walk ∧
    ∀ limit ∈ hint.upper, AtMost limit walk

def after (calls : List Call) (walk : ι) : ι :=
  calls.foldl (fun walk asked => ((call asked).outcome walk).2) walk

omit [Walk ι α] in
theorem skipping_keeps {next : Attempt ι (Option α)} {holds : ι → Prop} (step : next.Keeps holds)
    (n : Nat) : (skipping next n).Keeps holds := by
  induction n with
  | zero => exact step
  | succ n ih =>
      refine step.bind fun item => ?_
      cases item with
      | none => exact .pure _
      | some item => exact ih

omit [Walk ι α] in
theorem taking_keeps {next : Attempt ι (Option α)} {holds : ι → Prop} (step : next.Keeps holds)
    (n : Nat) : (taking next n).Keeps holds := by
  induction n with
  | zero => exact .pure _
  | succ n ih =>
      refine step.bind fun item => ?_
      cases item with
      | none => exact .pure _
      | some item => exact ih.bind fun _ => .pure _

theorem after_holds {holds : ι → Prop}
    (keeps : ∀ asked, (call asked : Attempt ι (Reply α)).Keeps holds) (calls : List Call)
    (start : holds walk) : holds (after calls walk) := by
  induction calls generalizing walk with
  | nil => exact start
  | cons asked rest ih =>
      show holds (after rest ((call asked : Attempt ι (Reply α)).outcome walk).2)
      refine ih ?_
      obtain ⟨_, -, reached⟩ | ⟨_, -, -, reached⟩ := (keeps asked walk start).outcome
      · exact reached
      · exact reached

end Walk

structure Items (α : Type) where
  items : List α
deriving DecidableEq, Repr

namespace Items
variable {α : Type}

instance : Walk (Items α) α where
  next := fun walk =>
    match walk.items with
    | [] => .ok none walk
    | item :: rest => .ok (some item) ⟨rest⟩
  hint := fun walk => .ok (SizeHint.exact walk.items.length) walk

theorem next_nil : (Walk.next : Attempt (Items α) (Option α)) ⟨[]⟩ = .ok none ⟨[]⟩ := rfl

theorem next_cons (item : α) (rest : List α) :
    (Walk.next : Attempt (Items α) (Option α)) ⟨item :: rest⟩ = .ok (some item) ⟨rest⟩ := rfl

theorem next_answers : Answers (fun _ => True) Items.items
    (Walk.next : Attempt (Items α) (Option α)) fun list => (list.head?, list.tail) := by
  rintro ⟨items⟩ -
  cases items with
  | nil => exact ⟨⟨[]⟩, next_nil, trivial, rfl⟩
  | cons item rest => exact ⟨⟨rest⟩, next_cons item rest, trivial, rfl⟩

theorem skipping_eq (items : List α) (n : Nat) :
    (Walk.skipping Walk.next n : Attempt (Items α) (Option α)) ⟨items⟩ =
      .ok items[n]? ⟨items.drop (n + 1)⟩ := by
  obtain ⟨⟨rest⟩, ran, -, rfl⟩ := skipping_answers next_answers n ⟨items⟩ trivial
  exact ran

theorem ahead_eq (items : List α) (n : Nat) : Walk.ahead n (⟨items⟩ : Items α) = items[n]? := by
  rw [Walk.ahead, skipping_eq]

theorem lawful : Walk.Lawful fun _ : Items α => True where
  nth {walk} n _ := by
    obtain ⟨items⟩ := walk
    rw [ahead_eq]
    refine ⟨⟨items.drop (n + 1)⟩, skipping_eq items n, trivial, fun _ k => ?_⟩
    rw [ahead_eq, ahead_eq, List.getElem?_drop]
  hint {walk} _ := by
    obtain ⟨items⟩ := walk
    refine ⟨SizeHint.exact items.length, ⟨items⟩, rfl, trivial, fun _ => rfl, ?_, ?_⟩
    · intro k below
      rw [ahead_eq, List.getElem?_eq_getElem below]
      rfl
    · rintro limit ⟨⟩
      rw [Walk.AtMost, ahead_eq]
      exact List.getElem?_eq_none (Nat.le_refl _)

end Items

end PackedBits
