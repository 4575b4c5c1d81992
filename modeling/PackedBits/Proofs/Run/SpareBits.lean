import PackedBits.Proofs.Backend
import PackedBits.Proofs.Run.Action

/-! The state of a vector between actions. Whatever has been done to it, by edits, in place or by a
refused request, its length is inside its capacity and the bits from there on are clear, so a later
growth by clear bits has nothing to write. -/
namespace PackedBits

namespace Holding
variable {S : Type} {w : Nat} [HasBits w] [Storage S w]

/-- What holds of a vector between any two actions. -/
structure Intact (h : Holding S) : Prop where
  len_le_capacity : Storage.len h.storage ≤ Storage.capacity h.storage
  len_le_maxBits : Storage.len h.storage ≤ Storage.maxBits S
  /-- The buffer has as many bits as the capacity says. -/
  buffer : (Container.span h.storage).start + Storage.capacity h.storage ≤
    (Container.span h.storage).words.size * w
  /-- The bits from the length up to the capacity are clear. -/
  spare : ∀ k, Storage.len h.storage ≤ k → k < Storage.capacity h.storage →
    (Container.span h.storage).bit k = false
  /-- Growing by clear bits inside the capacity changes nothing but the length. -/
  unwritten : ∀ bits, Storage.len h.storage < bits → bits ≤ Storage.capacity h.storage →
    bits ≤ Storage.maxBits S →
    Storage.resize bits false h = .ok () { h with storage := Storage.setLen bits h.storage }
  /-- Growing by clear bits appends them, or is refused and leaves the vector as it was. -/
  grown : ∀ bits, Storage.len h.storage ≤ bits →
    (Storage.resize bits false : Attempt (Holding S) Unit).Ends h
      (fun _ h' => h'.list = h.list ++ List.replicate (bits - Storage.len h.storage) false)
      fun _ h' => h'.storage = h.storage
  words_size : (Storage.words h.storage).size = wordsFor w (Storage.len h.storage)
  toWords : (Container.span h.storage).toWords = .ok (Storage.words h.storage)

variable [StorageSpec S w] [LawfulStorage S w] {policy : Policy} {refusals : Nat}
  {others : List Grant} {h : Holding S}

theorem Sound.toWords_eq (sound : h.Sound policy refusals others) :
    (Container.span h.storage).toWords = .ok (Storage.words h.storage) := by
  obtain ⟨words, gathered, size, bits⟩ := Span.toWords_eq (Storage.held sound.storage)
  rw [LawfulStorage.len_span] at size bits
  have same : words = Storage.words h.storage := by
    refine ext_bitIn (size.trans (LawfulStorage.words_size sound.storage).symm) fun k _ => ?_
    rw [bits, LawfulStorage.words_bit sound.storage]
  rw [gathered, same]

theorem Sound.grown_ends (sound : h.Sound policy refusals others) {bits : Nat}
    (more : Storage.len h.storage ≤ bits) :
    (Storage.resize bits false : Attempt (Holding S) Unit).Ends h
      (fun _ h' => h'.list = h.list ++ List.replicate (bits - Storage.len h.storage) false)
      fun _ h' => h'.storage = h.storage := by
  refine (sound.resize_ends bits false).imp ?_ fun _ _ refused => refused.storage
  rintro ⟨⟩ h' ⟨-, list, -⟩
  rw [list, resized_more (by rw [length_list]; exact more), length_list]

theorem Sound.intact (sound : h.Sound policy refusals others) : h.Intact where
  len_le_capacity := LawfulStorage.len_le_capacity sound.storage
  len_le_maxBits := LawfulStorage.len_le_maxBits sound.storage
  buffer := LawfulStorage.room sound.storage
  spare := LawfulStorage.spare sound.storage
  unwritten _ := resize_inside
  grown _ := sound.grown_ends
  words_size := LawfulStorage.words_size sound.storage
  toWords := sound.toWords_eq

end Holding

/-- After any run on any storage, refusals and changes in place included, every vector is intact:
its spare bits are clear up to the capacity, and its words are those that its bits fill. -/
theorem vectors_stay_intact (b : Backend) {policy : Policy} (lawful : policy.Lawful)
    (actions : List (Action b.width)) (name : String) :
    let pool : Pool b.Carrier := (Action.run actions (Action.start policy)).2
    Holding.Intact ⟨pool.vector name, pool.provider⟩ :=
  ((Action.reached_sound lawful actions).holding name).intact

/-- A vector on the heap, cut back and refused more room: the dropped bits are clear again. -/
theorem vectors_stay_intact_after_refusal :
    (Policy.pages 1).Lawful ∧
    Holding.Intact (S := Backend.smallBuffer.Carrier)
      (let actions := [.work .inPlace "a" (.grow (.resize 300 false)) (.vector "a"),
        .work .inPlace "a" (.truncate 200) (.vector "a"),
        .work .inPlace "a" (.grow (.resize 600 true)) (.vector "a")]
      let pool := (Action.run actions (Action.start (Policy.pages 1))).2
      ⟨pool.vector "a", pool.provider⟩) :=
  ⟨Policy.pages_lawful (by decide),
    vectors_stay_intact .smallBuffer (Policy.pages_lawful (by decide)) _ "a"⟩

end PackedBits
