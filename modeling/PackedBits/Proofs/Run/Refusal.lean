import PackedBits.Proofs.Run.SpareBits

/-! When edits are refused. A growth has at most one cause of refusal, found before the first bit is
written: a position outside, then a size that cannot be held, then a provider that brings no block
of use. A refusal leaves the vector and the granted blocks as they were, and the panicking form
fails for the same cause in the same state. -/
namespace PackedBits
variable {S : Type} {w : Nat} [HasBits w] [Storage S w] [StorageSpec S w]

def pastEnd (h : Holding S) (index : Nat) (otherwise : Option Error) : Option Error :=
  if BitVector.len h < index then some (.outOfRange index (BitVector.len h)) else otherwise

namespace Growth

/-- Why a growth is refused. -/
def cause (growth : Growth) (other : Span w) (h : Holding S) : Option Error :=
  match growth with
  | reserve additional => BitVector.growth h additional
  | resize bits _ => Storage.shortage h bits
  | push _ => BitVector.growth h 1
  | insert index _ => pastEnd h index (BitVector.growth h 1)
  | insertMany index n _ => pastEnd h index (BitVector.growth h n)
  | extendFrom => BitVector.growth h other.len

/-- A growth is refused for its cause and succeeds when there is none. A refusal leaves the storage
and the granted blocks, and the form that panics differs in the kind of failure only. -/
def Exact (growth : Growth) (other : Span w) (h : Holding S) : Prop :=
  match growth.cause other h with
  | some error => ∃ p, p.live = h.provider.live ∧
      growth.attempt other h = .error (.error error) ⟨h.storage, p⟩ ∧
      growth.forced other h = .error (.panic (.refused error)) ⟨h.storage, p⟩
  | none => ∃ h', growth.attempt other h = .ok () h' ∧ growth.forced other h = .ok () h'

end Growth

def absent (h : Holding S) (index : Nat) : Option Error :=
  if index < BitVector.len h then none else some (.outOfRange index (BitVector.len h))

/-- An edit that needs no room fails for the cause given and then changes nothing at all. -/
def FailsFor {α : Type} (cause : Option Error) (attempt : Attempt (Holding S) α) (h : Holding S) :
    Prop :=
  match cause with
  | some error => attempt h = .error (.error error) h
  | none => ∃ value h', attempt h = .ok value h'

variable [LawfulStorage S w] {policy : Policy} {refusals : Nat} {others : List Grant}
  {h : Holding S} {other : Span w}

theorem growth_one (sound : h.Sound policy refusals others) :
    BitVector.growth h 1 = Storage.shortage h (BitVector.len h + 1) := by
  have small := LawfulStorage.len_le_maxBits sound.storage
  have size := LawfulStorage.maxBits_lt (S := S)
  have len : BitVector.len h = Storage.len h.storage := rfl
  exact if_neg (by omega)

abbrev Growth.Stops (cause : Option Error) (h : Holding S) (failure : Failure) (h' : Holding S) :
    Prop :=
  (∃ error, failure = .error error ∧ cause = some error) ∧ h'.storage = h.storage ∧
    h'.provider.live = h.provider.live

omit [HasBits w] [LawfulStorage S w] in
theorem Growth.Stops.of_refused {cause : Option Error} {certain : Prop} {failure : Failure}
    {h' : Holding S} (refused : h.Refused policy refusals others cause certain failure h') :
    Growth.Stops cause h failure h' := ⟨refused.cause, refused.storage, refused.live⟩

omit [HasBits w] [StorageSpec S w] [LawfulStorage S w] in
theorem pastEnd_inside {index : Nat} {otherwise : Option Error}
    (inside : index ≤ BitVector.len h) : pastEnd h index otherwise = otherwise :=
  if_neg (Nat.not_lt.mpr inside)

theorem Growth.insertMany_ends (sound : h.Sound policy refusals others) (index n : Nat)
    (value : Bool) :
    (BitVector.tryInsertMany index n value).Ends h
      (fun _ _ => pastEnd h index (BitVector.growth h n) = none)
      (Growth.Stops (pastEnd h index (BitVector.growth h n)) h) := by
  refine (BitVector.tryInsertMany_ends sound index n value).imp ?_ ?_
  · rintro ⟨⟩ h' ⟨-, inside, free, -⟩
    exact (pastEnd_inside inside).trans free
  · rintro failure h' (⟨outside, rfl, rfl⟩ | ⟨inside, refused⟩)
    · exact ⟨⟨_, rfl, if_pos (Nat.lt_of_not_le outside)⟩, rfl, rfl⟩
    · rw [pastEnd_inside inside]
      exact .of_refused refused

theorem Growth.attempt_ends (sound : h.Sound policy refusals others) (growth : Growth)
    (held : other.Held) :
    (growth.attempt other : Attempt (Holding S) Unit).Ends h
      (fun _ _ => growth.cause other h = none) (Growth.Stops (growth.cause other h) h) := by
  cases growth with
  | reserve additional =>
      exact (BitVector.tryReserve_ends sound additional).imp (fun _ _ reached => reached.2.2.1)
        fun _ _ => .of_refused
  | resize bits value =>
      exact (sound.resize_ends bits value).imp (fun _ _ reached => reached.2.2.1)
        fun _ _ => .of_refused
  | push value =>
      rw [cause, growth_one sound]
      exact (BitVector.tryPush_ends sound value).imp (fun _ _ reached => reached.2.2.1)
        fun _ _ => .of_refused
  | insert index value => exact insertMany_ends sound index 1 value
  | insertMany index n value => exact insertMany_ends sound index n value
  | extendFrom =>
      exact (BitVector.tryExtendFrom_ends sound held).imp (fun _ _ reached => reached.2.2.1)
        fun _ _ => .of_refused

theorem Growth.exact (sound : h.Sound policy refusals others) (growth : Growth)
    (held : other.Held) : growth.Exact other h := by
  obtain ⟨value, h', ran, free⟩ | ⟨failure, h', ran, ⟨error, rfl, known⟩, storage, live⟩ :=
    (growth.attempt_ends sound held).ran
  · have forced : growth.forced other h = .ok value h' := by
      rw [growth.forced_eq]
      exact Attempt.orPanic_ok ran
    rw [Exact, free]
    exact ⟨h', ran, forced⟩
  · have forced : growth.forced other h = .error (.panic (.refused error)) h' := by
      rw [growth.forced_eq]
      exact Attempt.orPanic_error ran
    -- Of the state only the counts of the provider may have changed.
    have same : h' = ⟨h.storage, h'.provider⟩ := by rw [← storage]
    rw [Exact, known]
    refine ⟨h'.provider, live, ?_, ?_⟩
    · rw [← same]
      exact ran
    · rw [← same]
      exact forced

omit [HasBits w] [LawfulStorage S w] [StorageSpec S w] [Storage S w] in
theorem FailsFor.of_ends {α : Type} {cause : Option Error} {attempt : Attempt (Holding S) α}
    (ends : attempt.Ends h (fun _ _ => cause = none) fun failure h' =>
      (∃ error, failure = .error error ∧ cause = some error) ∧ h' = h) :
    FailsFor cause attempt h := by
  obtain ⟨value, h', ran, rfl⟩ | ⟨failure, h', ran, ⟨error, rfl, rfl⟩, rfl⟩ := ends.ran
  · exact ⟨value, h', ran⟩
  · exact ran

theorem erase_exact (sound : h.Sound policy refusals others) (index : Nat) :
    FailsFor (absent h index) (BitVector.erase index) h := by
  refine .of_ends ((BitVector.erase_ends sound index).imp ?_ ?_)
  · rintro value h' ⟨-, -, found, -⟩
    have below : index < BitVector.len h := by
      rw [← BitVector.length_list]
      exact (List.getElem?_eq_some_iff.mp found).1
    exact if_pos below
  · rintro failure h' ⟨outside, rfl, rfl⟩
    exact ⟨⟨_, rfl, if_neg outside⟩, rfl⟩

theorem eraseRange_exact (sound : h.Sound policy refusals others) (bounds : Bounds) :
    FailsFor (bounds.misfit (BitVector.len h)) (BitVector.eraseRange bounds) h := by
  have small := LawfulStorage.len_le_maxBits sound.storage
  have size := LawfulStorage.maxBits_lt (S := S)
  have below : BitVector.len h < maxSize := Nat.lt_of_le_of_lt small size
  refine .of_ends ((BitVector.eraseRange_ends sound bounds).imp ?_ ?_)
  · rintro ⟨⟩ h' ⟨-, -, extent, checked, -⟩
    exact (Bounds.check_ok below checked).2
  · rintro failure h' ⟨refused, rfl⟩
    obtain ⟨error, misfit, rfl⟩ := Bounds.check_error below refused
    exact ⟨⟨error, rfl, misfit⟩, rfl⟩

/-- On any storage, whatever the provider answers, an edit of a vector that any run has led to fails
exactly for its cause. A refused growth leaves the storage and the granted blocks as they were, also
where it panics, and a refused erasure leaves everything. -/
theorem refusals_change_nothing (b : Backend) {policy : Policy} (lawful : policy.Lawful)
    (actions : List (Action b.width)) (name : String) :
    let pool : Pool b.Carrier := (Action.run actions (Action.start policy)).2
    let h : Holding b.Carrier := ⟨pool.vector name, pool.provider⟩
    (∀ (growth : Growth) (other : Window b.width), growth.Exact other.span h) ∧
    (∀ index, FailsFor (absent h index) (BitVector.erase index) h) ∧
    ∀ bounds : Bounds,
      FailsFor (bounds.misfit (BitVector.len h)) (BitVector.eraseRange bounds) h := by
  have sound := (Action.reached_sound (S := b.Carrier) lawful actions).holding name
  refine ⟨?_, erase_exact sound, eraseRange_exact sound⟩
  intro growth other
  exact growth.exact sound other.held

/-- Three hundred bits in the only page there is: twice as many are refused, more than a size can
count are too, and so is a position past the end before either. -/
theorem refusals_change_nothing_on_one_page :
    (Policy.pages 1).Lawful ∧
    (let actions := [.work .inPlace "a" (.grow (.resize 300 false)) (.vector "a")]
    let pool : Pool Backend.tagged.Carrier := (Action.run actions (Action.start (Policy.pages 1))).2
    let h : Holding Backend.tagged.Carrier := ⟨pool.vector "a", pool.provider⟩
    (∃ p : Provider, p.live = h.provider.live ∧
      BitVector.tryResize 600 true h = .error (.error (.allocFailed 10)) ⟨h.storage, p⟩ ∧
      BitVector.resize 600 true h = .error (.panic (.refused (.allocFailed 10))) ⟨h.storage, p⟩) ∧
    (∃ p : Provider, p.live = h.provider.live ∧
      BitVector.tryInsertMany 301 maxSize true h =
        .error (.error (.outOfRange 301 300)) ⟨h.storage, p⟩ ∧
      BitVector.insertMany 301 maxSize true h =
        .error (.panic (.refused (.outOfRange 301 300))) ⟨h.storage, p⟩) ∧
    BitVector.eraseRange (Bounds.single 300) h = .error (.error (.outOfRange 301 300)) h) := by
  have lawful : (Policy.pages 1).Lawful := Policy.pages_lawful (by decide)
  have nothing : (⟨#[], 0, 0⟩ : Span Backend.tagged.width).Held := Nat.zero_le _
  obtain ⟨grown, -, erased⟩ := refusals_change_nothing .tagged lawful
    [.work .inPlace "a" (.grow (.resize 300 false)) (.vector "a")] "a"
  refine ⟨lawful, grown (.resize 600 true) ⟨_, nothing⟩, ?_, ?_⟩
  · exact grown (.insertMany 301 maxSize true) ⟨_, nothing⟩
  · exact erased (Bounds.single 300)

end PackedBits
