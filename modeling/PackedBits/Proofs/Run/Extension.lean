import PackedBits.Proofs.Backend
import PackedBits.Proofs.Run.Action

/-! Extensions that fail. An extension asks for the room that is announced and then pushes the bits
one by one. If that room is refused the vector is as it was. A later refusal comes behind all the
bits that were announced, and what has been pushed by then stays: unless every bit was announced, an
extension may fail and leave some of its bits behind. -/
namespace PackedBits

namespace BitVector
variable {S : Type} {w : Nat} [HasBits w] [Storage S w] [StorageSpec S w] [LawfulStorage S w]
  {policy : Policy} {refusals : Nat} {others : List Grant} {h : Holding S}

/-- How pushing bit after bit is stopped: by a refusal, with the bits before appended. -/
structure Stopped (h : Holding S) (bits : List Bool) (added : Nat) (failure : Failure)
    (h' : Holding S) : Prop where
  panics : ∃ error, failure = .panic (.refused error)
  before : added < bits.length
  list : h'.list = h.list ++ bits.take added
  /-- Whatever there was room for has been filled. -/
  filled : ∀ total, total ≤ Storage.capacity h.storage → total ≤ Storage.maxBits S →
    total ≤ len h + added

theorem push_ends (sound : h.Sound policy refusals others) (value : Bool) :
    (push value).Ends h
      (fun _ h' => h'.Sound policy refusals others ∧ h'.list = h.list ++ [value] ∧
        h.Reserved (len h + 1) h')
      fun failure h' => (∃ error, failure = .panic (.refused error)) ∧ h'.list = h.list ∧
        ∃ error, Storage.shortage h (len h + 1) = some error := by
  refine ((tryPush_ends sound value).imp ?_ fun _ _ => id).orPanic ?_
  · rintro ⟨⟩ h' ⟨sound', list, -, reserved⟩
    exact ⟨sound', list, reserved⟩
  · rintro failure h' refused
    obtain ⟨error, rfl, cause⟩ := refused.cause
    exact ⟨⟨error, rfl⟩, by rw [Holding.list, Holding.list, refused.storage], error, cause⟩

/-- Pushing appends all the bits, or stops behind those that there was room for. -/
theorem pushes_stop (sound : h.Sound policy refusals others) (bits : List Bool) :
    (bits.forM push : Attempt (Holding S) PUnit).Ends h (fun _ h' => h'.list = h.list ++ bits)
      fun failure h' => ∃ added, Stopped h bits added failure h' := by
  let left (rest : List Bool) (h' : Holding S) : Prop :=
    h'.Sound policy refusals others ∧ Storage.capacity h.storage ≤ Storage.capacity h'.storage ∧
      ∃ pushed, h'.list = h.list ++ pushed ∧ pushed ++ rest = bits
  have begun : left bits h :=
    ⟨sound, Nat.le_refl _, [], (List.append_nil h.list).symm, rfl⟩
  refine (Attempt.Ends.forM left begun ?_).imp ?_ fun _ _ => id
  · rintro bit rest h₁ ⟨sound₁, room₁, pushed, list₁, rfl⟩
    refine (push_ends sound₁ bit).imp ?_ ?_
    · rintro ⟨⟩ h₂ ⟨sound₂, list₂, reserved⟩
      refine ⟨sound₂, Nat.le_trans room₁ (reserved.capacity_le sound₁), pushed ++ [bit], ?_, ?_⟩
      · rw [list₂, list₁, List.append_assoc]
      · rw [List.append_assoc, List.singleton_append]
    · rintro failure h₂ ⟨panics, list₂, error, short⟩
      have len₁ : len h₁ = len h + pushed.length := by
        rw [← length_list, list₁, List.length_append, length_list]
      refine ⟨pushed.length, panics, by simp, ?_, fun total room small => ?_⟩
      · rw [list₂, list₁, List.take_left]
      · -- For a bit that there is room for no room is asked.
        apply Nat.le_of_not_lt
        intro more
        rw [Storage.shortage_eq_none (by omega) (by omega)] at short
        cases short
  · rintro ⟨⟩ h' ⟨-, -, pushed, list, rfl⟩
    rw [list, List.append_nil]

/-- How an extension ends: with all of its bits, with none since the room announced was refused, or
with some of them, those that were announced included. -/
theorem extend_ends (sound : h.Sound policy refusals others) (announced : Nat) (bits : List Bool) :
    (extend announced bits).Ends h (fun _ h' => h'.list = h.list ++ bits)
      fun failure h' => ∃ error, failure = .panic (.refused error) ∧
        match growth h announced with
        | some cause => cause = error ∧ h'.storage = h.storage ∧
            h'.provider.live = h.provider.live
        | none => ∃ added, announced ≤ added ∧ added < bits.length ∧
            h'.list = h.list ++ bits.take added := by
  refine (((tryReserve_ends sound announced).imp (fun _ _ => id) fun _ _ => id).orPanic ?_).bind ?_
  · rintro failure h' refused
    obtain ⟨error, rfl, cause⟩ := refused.cause
    rw [cause]
    exact ⟨error, rfl, rfl, refused.storage, refused.live⟩
  · rintro ⟨⟩ h₁ ⟨sound₁, list₁, free, reserved⟩
    rw [free]
    have len₁ : len h₁ = len h := by rw [← length_list, list₁, length_list]
    refine (pushes_stop sound₁ bits).imp ?_ ?_
    · rintro ⟨⟩ h' list
      rw [list, list₁]
    · rintro failure h' ⟨added, ⟨error, panics⟩, before, list, filled⟩
      have room := reserved.room sound
      have reached := filled _ room.1 room.2
      exact ⟨error, panics, added, by omega, before, by rw [list, list₁]⟩

omit [StorageSpec S w] [LawfulStorage S w] in
theorem extend_fails_early {announced : Nat} {bits : List Bool} {failure : Failure}
    {h' : Holding S} (ran : extend announced bits h = .error failure h') (more : List Bool) :
    extend announced (bits ++ more) h = .error failure h' := by
  have pushes : ((bits ++ more).forM push : Attempt (Holding S) PUnit) =
      bits.forM push >>= fun _ => more.forM push := List.forM_append
  have parts : extend announced (bits ++ more) =
      (extend announced bits : Attempt (Holding S) Unit) >>= fun _ => more.forM push := by
    rw [extend, extend, pushes, bind_assoc]
  rw [parts]
  exact Attempt.bind_stops ran

end BitVector

/-- On any storage, whatever the provider answers, an extension of a vector that any run has led to
appends all of its bits or panics with a refusal. If that is the refusal of the room announced, the
storage and the granted blocks are as they were. If it comes later, the bits that were announced
have been appended, and the bits pushed behind them stay where they are, up to the refused one; so
an extension that announces every bit leaves the vector as it was when it fails. An extension by a
longer or endless succession of bits fails as that by its beginning does. -/
theorem failed_extensions_keep_what_was_pushed (b : Backend) {policy : Policy}
    (lawful : policy.Lawful) (actions : List (Action b.width)) (name : String) (announced : Nat)
    (bits : List Bool) :
    let pool : Pool b.Carrier := (Action.run actions (Action.start policy)).2
    let h : Holding b.Carrier := ⟨pool.vector name, pool.provider⟩
    (BitVector.extend announced bits).Ends h (fun _ h' => h'.list = h.list ++ bits)
      (fun failure h' => ∃ error, failure = .panic (.refused error) ∧
        match BitVector.growth h announced with
        | some cause => cause = error ∧ h'.storage = h.storage ∧
            h'.provider.live = h.provider.live
        | none => ∃ added, announced ≤ added ∧ added < bits.length ∧
            h'.list = h.list ++ bits.take added) ∧
    (bits.length ≤ announced →
      (BitVector.extend announced bits).Ends h (fun _ h' => h'.list = h.list ++ bits)
        fun _ h' => h'.storage = h.storage ∧ h'.provider.live = h.provider.live) ∧
    ∀ failure h', BitVector.extend announced bits h = .error failure h' → ∀ more,
      BitVector.extend announced (bits ++ more) h = .error failure h' := by
  intro pool h
  have sound := (Action.reached_sound (S := b.Carrier) lawful actions).holding name
  have ends := BitVector.extend_ends sound announced bits
  refine ⟨ends, fun all => ends.imp (fun _ _ => id) ?_, fun _ _ => BitVector.extend_fails_early⟩
  rintro failure h' ⟨error, -, stopped⟩
  cases refused : BitVector.growth h announced with
  | some cause =>
      rw [refused] at stopped
      exact stopped.2
  | none =>
      rw [refused] at stopped
      obtain ⟨added, reached, before, -⟩ := stopped
      omega

/-- Thirty-one bits in the only block there is, and two more of which none, or each, is announced. -/
theorem failed_extensions_keep_what_was_pushed_in_one_block :
    (Policy.pages 1).Lawful ∧ [true, true].length ≤ 2 ∧
    let pool : Pool (Backend.plain 8 (by decide)).Carrier := (Action.run
      [.work .inPlace "a" (.grow (.resize 31 false)) (.vector "a")] (Action.start (.pages 1))).2
    let h : Holding (Backend.plain 8 (by decide)).Carrier := ⟨pool.vector "a", pool.provider⟩
    (∃ failure h', (∀ more, BitVector.extend 0 ([true, true] ++ more) h = .error failure h') ∧
      ∃ added < 2, h'.list = h.list ++ [true, true].take added) ∧
    ∃ failure h', BitVector.extend 2 [true, true] h = .error failure h' ∧
      h'.storage = h.storage := by
  have lawful : (Policy.pages 1).Lawful := Policy.pages_lawful (by decide)
  refine ⟨lawful, by decide, ?_⟩
  intro pool h
  have unannounced : (BitVector.extend 0 [true, true]).Ends h (fun _ _ => False)
      fun _ _ => True := by decide +kernel
  have announced : (BitVector.extend 2 [true, true]).Ends h (fun _ _ => False)
      fun _ _ => True := by decide +kernel
  have free : BitVector.growth h 0 = none := by decide +kernel
  obtain ⟨failure, h', ran, -⟩ := unannounced.fails
  obtain ⟨failure₂, h₂, ran₂, -⟩ := announced.fails
  obtain ⟨ends, -, longer⟩ := failed_extensions_keep_what_was_pushed (.plain 8 (by decide)) lawful
    [.work .inPlace "a" (.grow (.resize 31 false)) (.vector "a")] "a" 0 [true, true]
  obtain ⟨-, whole, -⟩ := failed_extensions_keep_what_was_pushed (.plain 8 (by decide)) lawful
    [.work .inPlace "a" (.grow (.resize 31 false)) (.vector "a")] "a" 2 [true, true]
  obtain ⟨error, -, stopped⟩ := ends.at_error ran
  have kept := (whole (by decide)).at_error ran₂
  rw [free] at stopped
  obtain ⟨added, -, before, list⟩ := stopped
  exact ⟨⟨failure, h', longer failure h' ran, added, before, list⟩, failure₂, h₂, ran₂, kept.1⟩

/-- What has been pushed is not taken back: here one bit of two stays when the other is refused. -/
theorem failed_extensions_may_append :
    ¬ ∀ (b : Backend) (policy : Policy), policy.Lawful → ∀ (actions : List (Action b.width))
      (name : String) (announced : Nat) (bits : List Bool), announced ≤ bits.length →
        let pool : Pool b.Carrier := (Action.run actions (Action.start policy)).2
        let h : Holding b.Carrier := ⟨pool.vector name, pool.provider⟩
        (BitVector.extend announced bits).Ends h (fun _ _ => True)
          fun _ h' => h'.list = h.list := by
  intro unchanged
  have ends := unchanged (.plain 8 (by decide)) (.pages 1) (Policy.pages_lawful (by decide))
    [.work .inPlace "a" (.grow (.resize 31 false)) (.vector "a")] "a" 0 [true, true] (by decide)
  exact absurd ends (by decide +kernel)

end PackedBits
