import PackedBits.Proofs.Storage.Resize
import PackedBits.Proofs.Storage.SmallBuffer
import PackedBits.Proofs.Storage.Tagged

/-! Storages of two modes. A storage that keeps short vectors in its control words goes to the heap
when more is reserved than fits there, and comes back when it is shrunk to a length that fits; a
change of the words or of the length leaves the mode alone, though the flag that tells it stands
among them. -/
namespace PackedBits

theorem Provider.release_leaves (address words : Nat) :
    (Provider.release address words).Leaves fun p => (p.requests, p.grants) := by
  intro p
  refine .get_bind ?_
  split
  · exact rfl
  · exact rfl

/-- A storage that keeps up to `inlineBits` bits in its control words. -/
class InlineStorage (S : Type) (w : outParam Nat) [HasBits w] [Storage S w] [StorageSpec S w] :
    Prop where
  empty_inline : Storage.onHeap (Storage.empty : S) = false
  capacity_inline {s : S} : Storage.onHeap s = false → Storage.capacity s = inlineBits
  reserve_onHeap {h : Holding S} : Storage.onHeap h.storage = true → ∀ total,
    (Storage.reserve total).Ends h (fun _ h' => Storage.onHeap h'.storage = true) fun _ _ => True
  shrink_inline {h : Holding S} : StorageSpec.Sound h.storage →
    Storage.len h.storage ≤ inlineBits →
    Storage.shrinkToFit.Ends h (fun _ h' => Storage.onHeap h'.storage = false ∧
      h'.provider.requests = h.provider.requests) fun _ _ => True
  duplicate_onHeap (s : S) (p : Provider) :
    (Storage.duplicate s).Ends p (fun s' _ => Storage.onHeap s' = Storage.onHeap s)
      fun _ _ => True

namespace Holding
variable {S : Type} {w : Nat} [Storage S w] {h : Holding S}

theorem move_onHeap {allocate : Attempt Provider Nat} {put : Nat → S → S}
    {giveBack : S → Attempt Provider Unit}
    (flagged : ∀ address s, Storage.onHeap (put address s) = true) :
    (do
      let address ← onProvider allocate
      let old := (← get).storage
      modifyStorage (put address)
      onProvider (giveBack old) : Attempt (Holding S) Unit).Ends h
      (fun _ h' => Storage.onHeap h'.storage = true) fun _ _ => True := by
  refine (Attempt.Ends.any _ h).bind fun address h₁ _ => ?_
  refine .get_bind (modifyStorage_bind ?_)
  have ends : (onProvider (giveBack h₁.storage)).Ends
      ({ h₁ with storage := put address h₁.storage } : Holding S) _ _ :=
    onProvider_ends (Attempt.Ends.any _ _)
  refine ends.imp ?_ fun _ _ _ => trivial
  rintro ⟨⟩ h' ⟨same, -⟩
  rw [same]
  exact flagged ..

theorem settle_inline {put : S → S} {giveBack : S → Attempt Provider Unit}
    (inline : Storage.onHeap (put h.storage) = false)
    (released : ∀ s, (giveBack s).Leaves fun p => (p.requests, p.grants)) :
    (do
      let old := (← get).storage
      modifyStorage put
      onProvider (giveBack old) : Attempt (Holding S) Unit).Ends h
      (fun _ h' => Storage.onHeap h'.storage = false ∧
        h'.provider.requests = h.provider.requests) fun _ _ => True := by
  refine .get_bind (modifyStorage_bind ?_)
  have ends : (onProvider (giveBack h.storage)).Ends
      ({ h with storage := put h.storage } : Holding S) _ _ :=
    onProvider_ends (released h.storage h.provider)
  refine ends.imp ?_ fun _ _ _ => trivial
  rintro ⟨⟩ h' ⟨same, counts⟩
  exact ⟨by rw [same]; exact inline, congrArg Prod.fst counts⟩

end Holding

namespace SmallBuffer
variable {h : Holding SmallBuffer}

theorem moveToHeap_onHeap (capacity : Nat) (h : Holding SmallBuffer) :
    (moveToHeap capacity).Ends h (fun _ h' => h'.storage.onHeap = true) fun _ _ => True :=
  Holding.move_onHeap fun _ _ => ControlBlock.onHeap_flagged rfl

theorem release_leaves (s : SmallBuffer) : (release s).Leaves fun p => (p.requests, p.grants) := by
  rw [release]
  split
  · exact Provider.release_leaves _ _
  · exact .pure ()

theorem shrink_inline (sound : Sound h.storage) (small : h.storage.len ≤ inlineBits) :
    shrinkToFit.Ends h (fun _ h' => h'.storage.onHeap = false ∧
      h'.provider.requests = h.provider.requests) fun _ _ => True := by
  refine .get_bind ?_
  by_cases heap : h.storage.onHeap = true
  · simp only [if_pos heap, if_pos small]
    have inline : (⟨ControlBlock.ofInline h.storage.words h.storage.len⟩ : SmallBuffer).onHeap =
        false := (ofInline_same sound small).1.onHeap
    exact Holding.settle_inline inline release_leaves
  · simp only [if_neg heap]
    exact ⟨eq_false_of_ne_true heap, rfl⟩

theorem duplicate_onHeap (s : SmallBuffer) (p : Provider) :
    (duplicate s).Ends p (fun s' _ => s'.onHeap = s.onHeap) fun _ _ => True := by
  rw [duplicate]
  split
  · exact (Attempt.Ends.any _ p).bind fun _ _ _ => rfl
  · exact rfl

instance : InlineStorage SmallBuffer 64 where
  empty_inline := by decide
  capacity_inline inline := if_neg (Bool.eq_false_iff.mp inline)
  reserve_onHeap heap total := Holding.reserve_reaches
    (fun s => moveToHeap
      (grownCapacity (wordsFor 64 total) (if s.onHeap then s.heapCapacity else 0))) heap
    fun _ _ => moveToHeap_onHeap ..
  shrink_inline := shrink_inline
  duplicate_onHeap := duplicate_onHeap

end SmallBuffer

namespace Tagged
variable {h : Holding Tagged}

theorem moveToHeap_onHeap (capacity : Nat) (h : Holding Tagged) :
    (moveToHeap capacity).Ends h (fun _ h' => h'.storage.onHeap = true) fun _ _ => True :=
  Holding.move_onHeap fun _ _ => ControlBlock.onHeap_flagged rfl

theorem release_leaves (s : Tagged) : (release s).Leaves fun p => (p.requests, p.grants) := by
  rw [release]
  split
  · exact Provider.release_leaves _ _
  · exact .pure ()

theorem shrink_inline (sound : Sound h.storage) (small : h.storage.len ≤ inlineBits) :
    shrinkToFit.Ends h (fun _ h' => h'.storage.onHeap = false ∧
      h'.provider.requests = h.provider.requests) fun _ _ => True := by
  refine .get_bind ?_
  by_cases heap : h.storage.onHeap = true
  · simp only [if_pos heap, if_pos small]
    have inline : (⟨ControlBlock.ofInline h.storage.words h.storage.len⟩ : Tagged).onHeap =
        false := (ofInline_same sound small).1.onHeap
    exact Holding.settle_inline inline release_leaves
  · simp only [if_neg heap]
    exact ⟨eq_false_of_ne_true heap, rfl⟩

theorem setLen_onHeap {s : Tagged} (heap : s.onHeap = true) (bits : Nat) :
    (s.setLen bits).onHeap = true := by
  rw [setLen, if_pos heap]
  exact heap

theorem duplicate_onHeap (s : Tagged) (p : Provider) :
    (duplicate s).Ends p (fun s' _ => s'.onHeap = s.onHeap) fun _ _ => True := by
  rw [duplicate]
  by_cases heap : s.onHeap = true
  · rw [if_pos heap, heap]
    have built : (Holding.build empty (moveToHeap (max (wordsFor 64 s.len) minBlockWords))).Ends p
        (fun out _ => out.onHeap = true) fun _ _ => True :=
      Holding.build_ends (moveToHeap_onHeap ..)
    refine built.bind fun out p' flagged => ?_
    have filled : (⟨{ out.control with
        block := out.control.block.overwriteAt out.address s.words }⟩ : Tagged).onHeap = true :=
      flagged
    exact setLen_onHeap filled s.len
  · rw [if_neg heap]
    exact rfl

instance : InlineStorage Tagged 64 where
  empty_inline := by decide
  capacity_inline inline := if_neg (Bool.eq_false_iff.mp inline)
  reserve_onHeap heap total := Holding.reserve_reaches
    (fun s => moveToHeap
      (min (grownCapacity (wordsFor 64 total) (if s.onHeap then s.heapCapacity else 0))
        (wordsFor 64 maxBits))) heap fun _ _ => moveToHeap_onHeap ..
  shrink_inline := shrink_inline
  duplicate_onHeap := duplicate_onHeap

end Tagged

namespace Holding
variable {S : Type} {w : Nat} [HasBits w] [Storage S w] [StorageSpec S w] [LawfulStorage S w]
  [InlineStorage S w] {policy : Policy} {refusals total : Nat} {others : List Grant}
  {h h' : Holding S}

omit [LawfulStorage S w] in
theorem onHeap_of_capacity {s : S} (room : inlineBits < Storage.capacity s) :
    Storage.onHeap s = true := by
  refine eq_true_of_ne_false fun inline => ?_
  rw [InlineStorage.capacity_inline inline] at room
  exact Nat.lt_irrefl _ room

omit [LawfulStorage S w] in
theorem duplicate_inline {s : S} (inline : Storage.onHeap s = false) (p : Provider) :
    (Storage.duplicate s).Ends p (fun s' _ => Storage.capacity s' = inlineBits)
      fun _ _ => True := by
  refine (InlineStorage.duplicate_onHeap s p).imp ?_ fun _ _ => id
  intro s' p' same
  exact InlineStorage.capacity_inline (same.trans inline)

theorem Sound.onHeap_of_len (sound : h.Sound policy refusals others)
    (long : inlineBits < Storage.len h.storage) : Storage.onHeap h.storage = true :=
  onHeap_of_capacity (Nat.lt_of_lt_of_le long (LawfulStorage.len_le_capacity sound.storage))

theorem Reserved.onHeap_eq (reserved : h.Reserved total h')
    (sound : h.Sound policy refusals others) :
    Storage.onHeap h'.storage = (Storage.onHeap h.storage || decide (inlineBits < total)) := by
  obtain ⟨room, small⟩ := reserved.room sound
  by_cases heap : Storage.onHeap h.storage = true
  · obtain ⟨h₁, ran, same⟩ := reserved
    have stays := (InlineStorage.reserve_onHeap heap total).at_ok ran
    rw [same.onHeap, stays, heap, Bool.true_or]
  · have inline := eq_false_of_ne_true heap
    rw [inline, Bool.false_or]
    by_cases more : inlineBits < total
    · rw [decide_eq_true more]
      exact onHeap_of_capacity (Nat.lt_of_lt_of_le more room)
    · have inside : total ≤ Storage.capacity h.storage := by
        rw [InlineStorage.capacity_inline inline]
        exact Nat.le_of_not_lt more
      rw [decide_eq_false more, ((reserved_inside_iff small inside).mp reserved).onHeap, inline]

theorem Sound.shrink_ends (sound : h.Sound policy refusals others) :
    Storage.shrinkToFit.Ends h
      (fun _ h' => h'.Sound policy refusals others ∧ h'.list = h.list ∧
        Storage.onHeap h'.storage =
          (Storage.onHeap h.storage && decide (inlineBits < Storage.len h.storage)) ∧
        (Storage.len h.storage ≤ inlineBits →
          h'.provider.requests = h.provider.requests)) fun _ _ => False := by
  have shrunk := LawfulStorage.shrinkToFit_ends sound
  by_cases small : Storage.len h.storage ≤ inlineBits
  · refine (shrunk.and (InlineStorage.shrink_inline sound.storage small)).imp ?_
      fun _ _ never => never.1
    rintro ⟨⟩ h' ⟨⟨sound', list⟩, inline, requests⟩
    refine ⟨sound', list, ?_, fun _ => requests⟩
    rw [inline, decide_eq_false (Nat.not_lt.mpr small), Bool.and_false]
  · refine shrunk.imp ?_ fun _ _ => id
    rintro ⟨⟩ h' ⟨sound', list⟩
    refine ⟨sound', list, ?_, fun short => absurd short small⟩
    -- A length past the inline bits is on the heap, before and after.
    have long := Nat.lt_of_not_le small
    have len : Storage.len h'.storage = Storage.len h.storage := by
      rw [← length_list, list, length_list]
    rw [sound'.onHeap_of_len (by rw [len]; exact long), sound.onHeap_of_len long,
      decide_eq_true long]
    rfl

end Holding

end PackedBits
