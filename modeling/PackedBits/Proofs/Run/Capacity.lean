import PackedBits.Proofs.Run.SpareBits

/-! What a capacity is good for. Any length inside the capacity and up to the greatest length is
taken without a request to the provider. The two limits need not agree: a capacity is counted in
whole words, so it may pass the greatest length, and a length in between is refused. -/
namespace PackedBits

namespace Holding
variable {S : Type} {w : Nat} [HasBits w] [Storage S w] {h : Holding S} {total : Nat}

omit [HasBits w] in
theorem reserve_outside (grow : Attempt (Holding S) Unit) (large : Storage.maxBits S < total) :
    (do
      checkBits total (Storage.maxBits S)
      grow : Attempt (Holding S) Unit) h =
      .error (.error (.capacityExceeded total (Storage.maxBits S))) h := by
  have refused : (checkBits total (Storage.maxBits S) : Attempt (Holding S) Unit) =
      Attempt.fail (.capacityExceeded total (Storage.maxBits S)) := if_pos large
  rw [refused]
  rfl

variable [StorageSpec S w] [LawfulStorage S w] {policy : Policy} {refusals : Nat}
  {others : List Grant}

/-- What a change of the length inside the capacity has done: nothing but that. -/
structure Refilled (policy : Policy) (refusals : Nat) (others : List Grant) (h : Holding S)
    (bits : Nat) (value : Bool) (h' : Holding S) : Prop where
  sound : h'.Sound policy refusals others
  provider : h'.provider = h.provider
  capacity : Storage.capacity h'.storage = Storage.capacity h.storage
  len : Storage.len h'.storage = bits
  list : h'.list = resized h.list bits value

theorem Sound.refill_ends (sound : h.Sound policy refusals others) {bits : Nat} (value : Bool)
    (room : bits ≤ Storage.capacity h.storage) (small : bits ≤ Storage.maxBits S) :
    (Storage.resize bits value).Ends h
      (fun _ h' => h.Refilled policy refusals others bits value h') fun _ _ => False := by
  refine (sound.resize_ends bits value).imp ?_ ?_
  · rintro ⟨⟩ h' ⟨sound', list, -, reserved⟩
    obtain ⟨provider, capacity, -⟩ := (reserved_inside_iff small room).mp reserved
    refine ⟨sound', provider, capacity, ?_, list⟩
    rw [← length_list, list, length_resized]
  · intro failure h' refused
    obtain ⟨error, -, short⟩ := refused.cause
    rw [Storage.shortage_eq_none small room] at short
    cases short

end Holding

namespace Backend
variable (b : Backend) {h : Holding b.Carrier} {bits : Nat}

theorem reserve_excess (large : Storage.maxBits b.Carrier < bits) :
    Storage.reserve bits h =
      .error (.error (.capacityExceeded bits (Storage.maxBits b.Carrier))) h := by
  cases b with
  | plain width positive => exact Holding.reserve_outside (S := Plain width) _ large
  | smallBuffer => exact Holding.reserve_outside (S := SmallBuffer) _ large
  | tagged => exact Holding.reserve_outside (S := Tagged) _ large

theorem resize_excess (sound : StorageSpec.Sound h.storage)
    (large : Storage.maxBits b.Carrier < bits) (value : Bool) :
    Storage.resize bits value h =
      .error (.error (.capacityExceeded bits (Storage.maxBits b.Carrier))) h := by
  have longer : Storage.len h.storage < bits :=
    Nat.lt_of_le_of_lt (LawfulStorage.len_le_maxBits sound) large
  unfold Storage.resize
  rw [Attempt.get_bind_apply, if_pos longer]
  exact Attempt.bind_stops (b.reserve_excess large)

end Backend

/-- On any storage, whatever has been done to a vector, a length inside its capacity is taken
without a request, up to the greatest length there is. A capacity past that is of no use: a length
in between is refused, and nothing changes. -/
theorem capacity_is_usable (b : Backend) {policy : Policy} (lawful : policy.Lawful)
    (actions : List (Action b.width)) (name : String) (bits : Nat) (value : Bool) :
    let pool : Pool b.Carrier := (Action.run actions (Action.start policy)).2
    let h : Holding b.Carrier := ⟨pool.vector name, pool.provider⟩
    bits ≤ Storage.capacity h.storage →
      (bits ≤ Storage.maxBits b.Carrier → ∃ h', Storage.resize bits value h = .ok () h' ∧
        h'.provider = h.provider ∧ Storage.capacity h'.storage = Storage.capacity h.storage ∧
        Storage.len h'.storage = bits ∧ h'.list = Holding.resized h.list bits value) ∧
      (Storage.maxBits b.Carrier < bits → Storage.resize bits value h =
        .error (.error (.capacityExceeded bits (Storage.maxBits b.Carrier))) h) := by
  intro pool h room
  have sound := (Action.reached_sound (S := b.Carrier) lawful actions).holding name
  refine ⟨fun small => ?_, fun large => b.resize_excess sound.storage large value⟩
  have ends := sound.refill_ends value room small
  unfold Attempt.Ends at ends
  cases ran : (Storage.resize bits value : Attempt (Holding b.Carrier) Unit) h with
  | ok done h' =>
      rw [ran] at ends
      exact ⟨h', rfl, ends.provider, ends.capacity, ends.len, ends.list⟩
  | error failure h' =>
      rw [ran] at ends
      exact ends.elim

/-- Room for five hundred bits is room for as many as fill its eight words. -/
theorem capacity_is_usable_for_whole_words :
    (Policy.pages 1).Lawful ∧
    (let actions := [.work .inPlace "a" (.grow (.reserve 500)) (.vector "a")]
    let pool : Pool Backend.tagged.Carrier := (Action.run actions (Action.start (Policy.pages 1))).2
    let h : Holding Backend.tagged.Carrier := ⟨pool.vector "a", pool.provider⟩
    512 ≤ Storage.capacity h.storage ∧
    ∃ h', Storage.resize 512 true h = .ok () h' ∧ h'.provider = h.provider ∧
      Storage.capacity h'.storage = Storage.capacity h.storage ∧ Storage.len h'.storage = 512 ∧
      h'.list = Holding.resized h.list 512 true) := by
  have lawful : (Policy.pages 1).Lawful := Policy.pages_lawful (by decide)
  refine ⟨lawful, by decide +kernel, ?_⟩
  exact (capacity_is_usable .tagged lawful
    [.work .inPlace "a" (.grow (.reserve 500)) (.vector "a")] "a" 512 true
    (by decide +kernel)).1 (by decide)

/-- Grants a block of any size up to a number of bytes, once. -/
def Policy.once (bytes : Nat) : Policy := fun request =>
  if request.serial = 0 ∧ request.words * (request.width / 8) ≤ bytes then .ok 4096
  else .error (.allocFailed request.words)

theorem Policy.once_lawful {bytes : Nat} (few : bytes ≤ 2 ^ 63) : (once bytes).Lawful := by
  intro request address granted
  unfold once at granted
  split at granted
  · cases granted
    omega
  · cases granted

theorem Action.run_reserveTotal {S : Type} {w : Nat} [HasBits w] [Storage S w] {pool : Pool S}
    {h' : Holding S} {name : String} {bits : Nat} (beside : Operand (Window w))
    (ran : Storage.reserve bits ⟨pool.vector name, pool.provider⟩ = .ok () h') :
    (run [.work .inPlace name (.reserveTotal bits) beside] pool).2 = pool.hold name h' := by
  have edited : (Edit.reserveTotal bits).attempt (beside.span pool)
      ⟨pool.vector name, pool.provider⟩ = .ok .done h' := by
    show (Functor.map (fun _ => Reply.done) (Storage.reserve bits) : Attempt (Holding S) Reply)
      ⟨pool.vector name, pool.provider⟩ = _
    simp only [Functor.map, EStateM.map, ran]
  have worked : (perform (.work .inPlace name (.reserveTotal bits) beside)) pool =
      .ok .done (pool.hold name h') := by
    show Pool.work name ((Edit.reserveTotal bits).attempt (beside.span pool)) pool = _
    simp only [Pool.work, Attempt.within, edited]
    rfl
  simp only [run, Attempt.outcome, worked]

namespace Tagged

theorem capacity_past_maxBits {s : Tagged} (room : maxBits ≤ s.capacity) :
    maxBits < s.capacity := by
  have greatest : maxBits = 536870911 := by decide
  unfold capacity at room ⊢
  split at room
  · rename_i heap
    rw [if_pos heap]
    omega
  · rename_i heap
    have inline : inlineBits = 120 := rfl
    omega

theorem reserve_maxBits :
    let start : Pool Backend.tagged.Carrier := Action.start (Policy.once (2 ^ 26))
    ∃ h', Storage.reserve maxBits (⟨start.vector "a", start.provider⟩ :
        Holding Backend.tagged.Carrier) = .ok () h' ∧ maxBits ≤ Storage.capacity h'.storage := by
  intro start
  have sound : Holding.Sound (Policy.once (2 ^ 26)) 0 []
      (⟨start.vector "a", start.provider⟩ : Holding Backend.tagged.Carrier) :=
    (Pool.Sound.start (Policy.once_lawful (by decide))).holding "a"
  have granted : Storage.shortage
      (⟨start.vector "a", start.provider⟩ : Holding Backend.tagged.Carrier) maxBits = none := by
    decide +kernel
  have ends := LawfulStorage.reserve_ends sound maxBits
  unfold Attempt.Ends at ends
  split at ends
  · rename_i h' ran
    exact ⟨h', ran, ends.2.2.1⟩
  · obtain ⟨error, -, short⟩ := ends.cause
    rw [granted] at short
    cases short

/-- Room for the greatest length comes as whole words, which hold one bit more; but a length of
that many bits is not taken. -/
theorem full_capacity_is_not_usable :
    let actions := [.work .inPlace "a" (.reserveTotal maxBits) (.vector "a")]
    let pool : Pool Backend.tagged.Carrier :=
      (Action.run actions (Action.start (Policy.once (2 ^ 26)))).2
    let h : Holding Backend.tagged.Carrier := ⟨pool.vector "a", pool.provider⟩
    (Policy.once (2 ^ 26)).Lawful ∧ maxBits + 1 ≤ Storage.capacity h.storage ∧
    ¬ ∃ h', Storage.resize (maxBits + 1) false h = .ok () h' := by
  intro actions pool h
  have lawful : (Policy.once (2 ^ 26)).Lawful := Policy.once_lawful (by decide)
  have sound := (Action.reached_sound (S := Backend.tagged.Carrier) lawful actions).holding "a"
  have room : maxBits ≤ Storage.capacity h.storage := by
    obtain ⟨h', ran, room⟩ := reserve_maxBits
    have held : h.storage = h'.storage := by
      show pool.vector "a" = h'.storage
      rw [show pool = _ from Action.run_reserveTotal (.vector "a") ran, Pool.vector_hold,
        if_pos rfl]
    rw [held]
    exact room
  have refused := Backend.tagged.resize_excess sound.storage (Nat.lt_succ_self maxBits) false
  refine ⟨lawful, capacity_past_maxBits room, ?_⟩
  rintro ⟨h', taken⟩
  rw [refused] at taken
  cases taken

end Tagged

end PackedBits
