import PackedBits.Proofs.Storage.Trimming

/-! Shrinking a vector. Its bits stay, its capacity does not rise, and one block is asked for at
most. If that is granted, or none is asked for, the vector is as small as it can be and shrinking it
again does nothing; if it is refused nothing has changed. A vector that may go inline has never less
than the room it has there, which is what keeps its capacity from rising. -/
namespace PackedBits

section
variable {S : Type} {w room : Nat} [HasBits w] [Storage S w] [StorageSpec S w]

/-- What shrinking leads to, when a vector of up to `room` bits needs no block. -/
structure Holding.Shrunk (room : Nat) (h h' : Holding S) : Prop where
  list : h'.list = h.list
  capacity_le : Storage.capacity h'.storage ≤ Storage.capacity h.storage
  requests : h'.provider.requests =
    h.provider.requests + if Storage.Loose room h.storage then 1 else 0
  tight : Storage.trimming room h = none → Storage.Tight room h'.storage
  refused {error : Error} : Storage.trimming room h = some error →
    h'.storage = h.storage ∧ h'.provider.live = h.provider.live

variable [LawfulStorage S w] {policy : Policy} {refusals : Nat} {others : List Grant}
  {h h' : Holding S}

namespace Holding

omit [LawfulStorage S w] in
theorem Shrunk.room_le (shrunk : h.Shrunk room h') (roomy : room ≤ Storage.capacity h.storage) :
    room ≤ Storage.capacity h'.storage := by
  cases answer : Storage.trimming room h with
  | none => exact (shrunk.tight answer).room_le
  | some error =>
      rw [(shrunk.refused answer).1]
      exact roomy

omit [HasBits w] [LawfulStorage S w] in
theorem Shrunk.of_kept (kept : ¬ Storage.Loose room h.storage) (list : h'.list = h.list)
    (capacity_le : Storage.capacity h'.storage ≤ Storage.capacity h.storage)
    (requests : h'.provider.requests = h.provider.requests)
    (tight : Storage.Tight room h'.storage) : h.Shrunk room h' := by
  have unasked : Storage.trimming room h = none := if_neg kept
  refine ⟨list, capacity_le, ?_, fun _ => tight, fun refused => ?_⟩
  · rw [requests, if_neg kept, Nat.add_zero]
  · rw [unasked] at refused
    cases refused

theorem Shrunk.of_settled (rooms : Storage.HasRoom S room)
    (roomy : room ≤ Storage.capacity h.storage) (short : Storage.len h.storage ≤ room)
    (sound : StorageSpec.Sound h'.storage) (list : h'.list = h.list)
    (inline : Storage.onHeap h'.storage = false)
    (requests : h'.provider.requests = h.provider.requests) : h.Shrunk room h' := by
  have fits : ¬ room < Storage.len h.storage := Nat.not_lt.mpr short
  have len : Storage.len h'.storage = Storage.len h.storage := by
    rw [← length_list, list, length_list]
  have capacity := rooms.blockless sound inline
  refine .of_kept (fun loose => fits loose.1) list (Nat.le_trans (Nat.le_of_eq capacity) roomy)
    requests ⟨?_, ?_⟩
  · rw [inline, len, decide_eq_false fits]
  · rw [capacity, len, if_neg fits]

omit [HasBits w] [LawfulStorage S w] in
theorem Shrunk.of_tight (tight : Storage.Tight room h.storage) : h.Shrunk room h := by
  refine .of_kept ?_ rfl (Nat.le_refl _) rfl tight
  rintro ⟨long, other⟩
  rw [tight.capacity, if_pos long] at other
  exact other rfl

theorem Shrunk.of_trimmed (rooms : Storage.HasRoom S room) (sound : h.Sound policy refusals others)
    (loose : Storage.Loose room h.storage) (sound' : StorageSpec.Sound h'.storage)
    (list : h'.list = h.list)
    (trimmed : h.Trimmed policy (Storage.trimRequest h) (wordsFor w (Storage.len h.storage)) h') :
    h.Shrunk room h' := by
  obtain ⟨requests, outcome⟩ := trimmed
  have long := loose.1
  have len : Storage.len h'.storage = Storage.len h.storage := by
    rw [← length_list, list, length_list]
  have asked : Storage.trimming room h = Storage.refusal S policy (Storage.trimRequest h) := by
    rw [Storage.trimming, if_pos loose, sound.books.policy]
  have counted : h'.provider.requests =
      h.provider.requests + if Storage.Loose room h.storage then 1 else 0 := by
    rw [requests, if_pos loose]
  cases answer : Storage.refusal S policy (Storage.trimRequest h) with
  | some error =>
      rw [answer] at outcome asked
      refine ⟨list, Nat.le_of_eq (by rw [outcome.1]), counted, fun granted => ?_, fun _ => outcome⟩
      rw [asked] at granted
      cases granted
  | none =>
      rw [answer] at outcome asked
      have fewer := Nat.mul_le_mul_right w (rooms.le_heldWords sound.storage long)
      rw [← rooms.whole sound.storage (rooms.onHeap sound.storage long)] at fewer
      refine ⟨list, Nat.le_trans (Nat.le_of_eq outcome) fewer, counted, fun _ => ⟨?_, ?_⟩,
        fun refused => ?_⟩
      · rw [rooms.onHeap sound' (by rw [len]; exact long), len, decide_eq_true long]
      · rw [outcome, len, if_pos long]
      · rw [asked] at refused
        cases refused

theorem Sound.tight (sound : h.Sound policy refusals others) (rooms : Storage.HasRoom S room)
    (long : room < Storage.len h.storage) (kept : ¬ Storage.Loose room h.storage) :
    Storage.Tight room h.storage where
  onHeap := by rw [rooms.onHeap sound.storage long, decide_eq_true long]
  capacity := by
    rw [if_pos long]
    exact Decidable.byContradiction fun other => kept ⟨long, other⟩

theorem Sound.trim_ends (sound : h.Sound policy refusals others) (trims : Storage.Trims S room)
    (roomy : room ≤ Storage.capacity h.storage) :
    Storage.shrinkToFit.Ends h (fun _ h' => h'.Sound policy refusals others ∧ h.Shrunk room h')
      fun _ _ => False := by
  have shrunk := LawfulStorage.shrinkToFit_ends sound
  have rooms := trims.toHasRoom
  rcases Nat.lt_or_ge room (Storage.len h.storage) with long | short
  · by_cases loose : Storage.Loose room h.storage
    · refine (shrunk.and (trims.trim sound loose)).imp ?_ fun _ _ never => never.1
      rintro ⟨⟩ h' ⟨⟨sound', list⟩, trimmed⟩
      exact ⟨sound', .of_trimmed rooms sound loose sound'.storage list trimmed⟩
    · have tight := sound.tight rooms long loose
      exact .of_ok (trims.idle sound.storage tight) ⟨sound, .of_tight tight⟩
  · refine (shrunk.and (trims.settle sound short)).imp ?_ fun _ _ never => never.1
    rintro ⟨⟩ h' ⟨⟨sound', list⟩, inline, requests⟩
    exact ⟨sound', .of_settled rooms roomy short sound'.storage list inline requests⟩

end Holding

theorem Storage.Trims.confined (trims : Storage.Trims S room) :
    Storage.Confined S (room ≤ ·) where
  empty := Nat.le_of_eq (trims.blockless LawfulStorage.empty_sound trims.empty).symm
  reserve {_ _ _ h} sound roomy total := by
    refine (Attempt.Ends.any (Storage.reserve total) h).traced.imp ?_ fun _ _ _ => trivial
    rintro ⟨⟩ h' ⟨ran, -⟩
    have reserved : h.Reserved total h' := ⟨h', ran, .refl h'⟩
    exact Nat.le_trans roomy (reserved.capacity_le sound)
  shrinkToFit sound roomy := (sound.trim_ends trims roomy).imp
    (fun _ _ reached => reached.2.room_le roomy) fun _ _ _ => trivial
  duplicate sound books _ := trims.duplicate sound books

end

/-- On any storage, whatever has been done to a vector and whatever the provider answers, shrinking
it succeeds. The bits are the same, the capacity is not greater, and one request is made if there is
a block for bits that need one and it has other words than those in use; giving a block up for none
takes no request. If the request is refused, the storage and the granted blocks are as they were.
Otherwise the vector is then tight: it has a block just if it has more bits than fit without one, and
for exactly their words; and shrinking it again changes nothing, the provider included. -/
theorem shrinking_is_tight (b : Backend) {policy : Policy} (lawful : policy.Lawful)
    (actions : List (Action b.width)) (name : String) :
    let pool : Pool b.Carrier := (Action.run actions (Action.start policy)).2
    let h : Holding b.Carrier := ⟨pool.vector name, pool.provider⟩
    ∃ h', BitVector.shrinkToFit h = .ok () h' ∧ h.Shrunk b.room h' ∧
      (Storage.trimming b.room h = none → BitVector.shrinkToFit h' = .ok () h') := by
  intro pool h
  have sound : h.Sound policy _ _ :=
    (Action.reached_sound (S := b.Carrier) lawful actions).holding name
  have roomy : b.room ≤ Storage.capacity h.storage :=
    b.capacity_confined b.trims.confined lawful actions name
  obtain ⟨⟨⟩, h', ran, sound', shrunk⟩ := (sound.trim_ends b.trims roomy).succeeds
  exact ⟨h', ran, shrunk, fun granted => b.trims.idle sound'.storage (shrunk.tight granted)⟩

/-- Three hundred bits of which a hundred are taken off: with a second block they come down from five
words to four, without one they stay where they are. -/
theorem shrinking_is_tight_below_three_hundred_bits :
    let cut : List (Action Backend.tagged.width) :=
      [.work .inPlace "a" (.grow (.resize 300 true)) (.vector "a"),
        .work .inPlace "a" (.grow (.resize 200 true)) (.vector "a")]
    let long (pages : Nat) : Holding Backend.tagged.Carrier :=
      let pool : Pool Backend.tagged.Carrier :=
        (Action.run cut (Action.start (Policy.pages pages))).2
      ⟨pool.vector "a", pool.provider⟩
    (Policy.pages 1).Lawful ∧ (Policy.pages 2).Lawful ∧
      Storage.capacity (long 2).storage = 5 * 64 ∧
      (∃ h', BitVector.shrinkToFit (long 2) = .ok () h' ∧ Storage.capacity h'.storage = 4 * 64 ∧
        BitVector.shrinkToFit h' = .ok () h') ∧
      ∃ h', BitVector.shrinkToFit (long 1) = .ok () h' ∧ h'.storage = (long 1).storage := by
  intro cut long
  have single : (Policy.pages 1).Lawful := Policy.pages_lawful (by decide)
  have double : (Policy.pages 2).Lawful := Policy.pages_lawful (by decide)
  have granted : Storage.trimming inlineBits (long 2) = none := by decide +kernel
  have refused : Storage.trimming inlineBits (long 1) = some (.allocFailed 4) := by decide +kernel
  have bits : Storage.len (long 2).storage = 200 := by decide +kernel
  obtain ⟨h₁, ran₁, shrunk₁, again⟩ := shrinking_is_tight .tagged double cut "a"
  obtain ⟨h₂, ran₂, shrunk₂, -⟩ := shrinking_is_tight .tagged single cut "a"
  have len : Storage.len h₁.storage = 200 := by
    rw [← Holding.length_list, shrunk₁.list, Holding.length_list]
    exact bits
  have capacity := (shrunk₁.tight granted).capacity
  rw [len] at capacity
  exact ⟨single, double, by decide +kernel, ⟨h₁, ran₁, capacity, again granted⟩, h₂, ran₂,
    (shrunk₂.refused refused).1⟩

end PackedBits
