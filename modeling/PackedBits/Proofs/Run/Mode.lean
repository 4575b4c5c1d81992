import PackedBits.Proofs.Backend
import PackedBits.Proofs.Storage.Mode
import PackedBits.Proofs.Run.Edit

/-! Where a vector is. On a storage of two modes an edit moves a vector to the heap exactly if it
asks for more bits in all than fit inline, and back exactly if it shrinks to a length that does.
Nothing else moves it: neither a refused edit, nor what is done to its bits in place, nor any action
on other vectors. The bits come along unchanged. -/
namespace PackedBits

variable {S α β : Type} {w : Nat} [HasBits w] [Storage S w]

namespace Edit

/-- The mode that an edit leads to when it succeeds. -/
def heapAfter (edit : Edit) (bits other : List Bool) (heap : Bool) : Bool :=
  match edit with
  | shrinkToFit => heap && decide (inlineBits < bits.length)
  | inner => heap || decide (inlineBits < inner.total bits other)

/-- An edit that is not several edits in a row. -/
def Whole (edit : Edit) : Prop := ∀ announced bits, edit ≠ extend announced bits

theorem heapAfter_single {edit : Edit} (single : edit.Single) (bits other : List Bool)
    (heap : Bool) :
    edit.heapAfter bits other heap = (heap || decide (inlineBits < edit.total bits other)) := by
  cases edit with
  | shrinkToFit => exact single.elim
  | _ => rfl

theorem heapAfter_of_heap {edit : Edit} (unshrunk : edit ≠ shrinkToFit) (bits other : List Bool) :
    edit.heapAfter bits other true = true := by
  cases edit with
  | shrinkToFit => exact absurd rfl unshrunk
  | _ => rfl

theorem heapAfter_of_inline (edit : Edit) (bits other : List Bool) :
    edit.heapAfter bits other false = decide (inlineBits < edit.total bits other) := by
  cases edit with
  | shrinkToFit => exact (decide_eq_false (Nat.not_lt_zero _)).symm
  | _ => exact Bool.false_or _

theorem heapAfter_eq_false (edit : Edit) (bits other : List Bool) :
    edit.heapAfter bits other true = false ↔ edit = shrinkToFit ∧ bits.length ≤ inlineBits := by
  by_cases shrinks : edit = shrinkToFit
  · subst shrinks
    rw [heapAfter, Bool.true_and, decide_eq_false_iff_not, Nat.not_lt]
    exact (and_iff_right rfl).symm
  · rw [heapAfter_of_heap shrinks]
    exact iff_of_false nofun fun back => shrinks back.1

structure Leads (edit : Edit) (other : List Bool) (before after : S) : Prop where
  heap : Storage.onHeap after =
    edit.heapAfter (Container.span before).toList other (Storage.onHeap before)
  bits : ∃ reply, edit.onList other (Container.span before).toList =
    .ok reply (Container.span after).toList

end Edit

structure Storage.Alike (before after : S) : Prop where
  heap : Storage.onHeap after = Storage.onHeap before
  bits : (Container.span after).toList = (Container.span before).toList

omit [HasBits w] in
theorem Storage.Alike.refl (s : S) : Storage.Alike s s := ⟨rfl, rfl⟩

omit [HasBits w] in
theorem Edit.Leads.of_alike {edit : Edit} {other : List Bool} {before copy after : S}
    (leads : edit.Leads other copy after) (alike : Storage.Alike before copy) :
    edit.Leads other before after := by
  refine ⟨?_, ?_⟩
  · rw [← alike.heap, ← alike.bits]
    exact leads.heap
  · rw [← alike.bits]
    exact leads.bits

/-- What a failed edit may have done. Several edits in a row may have come some way. -/
structure Edit.Stays (edit : Edit) (before after : S) : Prop where
  alike : edit.Whole → Storage.Alike before after
  heap : Storage.onHeap before = true → Storage.onHeap after = true

omit [HasBits w] in
theorem Edit.Stays.of_alike {edit : Edit} {before after : S}
    (alike : Storage.Alike before after) : edit.Stays before after where
  alike _ := alike
  heap heap := alike.heap.trans heap

variable [StorageSpec S w]

/-- A change of sound vectors that does to mode and bits what an edit does. -/
def Edit.Moves (edit : Edit) (other : List Bool) (change : Attempt (Holding S) α) : Prop :=
  ∀ {policy : Policy} {refusals : Nat} {others : List Grant} {h : Holding S},
    h.Sound policy refusals others → change.Ends h
      (fun _ h' => h'.Sound policy refusals others ∧ edit.Leads other h.storage h'.storage)
      fun failure h' => failure ≠ .wild ∧ h'.Sound policy refusals others ∧
        edit.Stays h.storage h'.storage

variable [LawfulStorage S w] [InlineStorage S w] {edit : Edit} {policy : Policy} {refusals : Nat}
  {others : List Grant}

omit [HasBits w] [LawfulStorage S w] [InlineStorage S w] in
theorem Edit.Moves.map {other : List Bool} {change : Attempt (Holding S) α}
    (moves : edit.Moves other change) (answer : α → β) : edit.Moves other (answer <$> change) :=
  fun sound => (moves sound).map fun _ _ => id

theorem BitVector.pushes_ends {h : Holding S} (sound : h.Sound policy refusals others)
    (bits : List Bool) :
    (bits.forM BitVector.push : Attempt (Holding S) PUnit).Ends h
      (fun _ h' => h'.Sound policy refusals others ∧ h'.list = h.list ++ bits ∧
        Storage.onHeap h'.storage = (Storage.onHeap h.storage ||
          decide (inlineBits < BitVector.len h + bits.length)))
      fun failure h' => failure ≠ .wild ∧ h'.Sound policy refusals others ∧
        (Storage.onHeap h.storage = true → Storage.onHeap h'.storage = true) := by
  let left (rest : List Bool) (h' : Holding S) : Prop :=
    h'.Sound policy refusals others ∧ h'.list ++ rest = h.list ++ bits ∧
      Storage.onHeap h'.storage =
        (Storage.onHeap h.storage || decide (inlineBits < BitVector.len h'))
  have begun : left bits h := by
    refine ⟨sound, rfl, ?_⟩
    by_cases long : inlineBits < BitVector.len h
    · rw [sound.onHeap_of_len long, Bool.true_or]
    · rw [decide_eq_false long, Bool.or_false]
  refine (Attempt.Ends.forM left begun ?_).imp ?_ fun _ _ => id
  · rintro bit rest h₁ ⟨sound₁, list₁, mode₁⟩
    refine ((BitVector.tryPush_ends sound₁ bit).imp ?_ fun _ _ refused =>
      And.intro (BitVector.refused_keeps refused).1 refused).orPanic ?_
    · rintro ⟨⟩ h₂ ⟨sound₂, list₂, -, reserved⟩
      have len : BitVector.len h₂ = BitVector.len h₁ + 1 := by
        rw [← BitVector.length_list, list₂, List.length_append, BitVector.length_list]
        rfl
      refine ⟨sound₂, by rw [list₂, List.append_assoc]; exact list₁, ?_⟩
      rw [reserved.onHeap_eq sound₁, mode₁, len, Bool.or_assoc, ← Bool.decide_or]
      congr 2
      refine propext ?_
      omega
    · rintro failure h₂ ⟨tame, refused⟩
      refine ⟨Attempt.panicked_tame tame, refused.sound, fun heap => ?_⟩
      rw [refused.storage, mode₁, heap, Bool.true_or]
  · rintro ⟨⟩ h' ⟨sound', list', mode'⟩
    rw [List.append_nil] at list'
    have len : BitVector.len h' = BitVector.len h + bits.length := by
      rw [← BitVector.length_list, list', List.length_append, BitVector.length_list]
    exact ⟨sound', list', by rw [mode', len]⟩

theorem BitVector.extend_moves (announced : Nat) (bits other : List Bool) :
    (Edit.extend announced bits).Moves other
      (BitVector.extend announced bits : Attempt (Holding S) Unit) := by
  intro policy refusals others h sound
  refine (((BitVector.tryReserve_ends sound announced).imp (fun _ _ => id) fun _ _ refused =>
    And.intro (BitVector.refused_keeps refused).1 refused).orPanic ?_).bind ?_
  · rintro failure h' ⟨tame, refused⟩
    refine ⟨Attempt.panicked_tame tame, refused.sound, .of_alike ?_⟩
    rw [refused.storage]
    exact .refl _
  · rintro ⟨⟩ h₁ ⟨sound₁, list, -, reserved⟩
    have mode := reserved.onHeap_eq sound
    have len : BitVector.len h₁ = h.list.length := by
      rw [← BitVector.length_list, list]
    refine (BitVector.pushes_ends sound₁ bits).imp ?_ ?_
    · rintro ⟨⟩ h' ⟨sound', list', mode'⟩
      refine ⟨sound', ?_, .done, ?_⟩
      · rw [mode', mode, len, ← BitVector.length_list, Bool.or_assoc, ← Bool.decide_or]
        show _ = (_ || decide (inlineBits < h.list.length + max announced bits.length))
        congr 2
        refine propext ?_
        omega
      · show EStateM.Result.ok Reply.done (h.list ++ bits) = .ok .done h'.list
        rw [list', list]
    · rintro failure h' ⟨tame, sound', heap⟩
      exact ⟨tame, sound', fun whole => absurd rfl (whole announced bits),
        fun before => heap (by rw [mode, before, Bool.true_or])⟩

theorem Edit.attempt_moves (edit : Edit) {other : Span w} (held : other.Held) :
    edit.Moves other.toList (edit.attempt other : Attempt (Holding S) Reply) := by
  intro policy refusals others h sound
  by_cases single : edit.Single
  · have kept := edit.attempt_keeps (S := S) held h sound
    refine (Attempt.Ends.and (Edit.attempt_performs sound single held) kept).imp ?_ ?_
    · rintro reply h' ⟨⟨sound', same, reserved⟩, -⟩
      refine ⟨sound', ?_, reply, same⟩
      rw [reserved.onHeap_eq sound, heapAfter_single single]
      rfl
    · rintro failure h' ⟨⟨sound', -, list, room⟩ | denied, tame, -⟩
      · exact ⟨tame, sound', .of_alike ⟨room.onHeap, list⟩⟩
      · refine ⟨tame, denied.sound, .of_alike ?_⟩
        rw [denied.storage]
        exact .refl _
  · cases edit with
    | extend announced bits =>
        exact Edit.Moves.map (BitVector.extend_moves announced bits other.toList) _ sound
    | shrinkToFit =>
        refine Attempt.Ends.map (sound.shrink_ends.imp (fun _ _ => id) fun _ _ => False.elim) ?_
        rintro ⟨⟩ h' ⟨sound', list, mode, -⟩
        refine ⟨sound', ?_, .done, ?_⟩
        · rw [mode, ← Holding.length_list]
          rfl
        · show EStateM.Result.ok Reply.done h.list = .ok .done h'.list
          rw [list]
    | _ => exact absurd trivial single

theorem Edit.besideCopy_moves (edit : Edit) {s : S} (sound : StorageSpec.Sound s) :
    edit.Moves (Container.span s).toList
      (BitVector.besideCopy s fun copy => discard (edit.attempt copy)) := by
  intro policy refusals others h before
  refine BitVector.besideCopy_ends (edit.Leads (Container.span s).toList h.storage)
    (edit.Stays h.storage) sound before (fun copy others p held list besides => ?_)
    (.of_alike (.refl _))
  rw [← list]
  exact Edit.Moves.map (edit.attempt_moves held) (fun _ => ()) besides

theorem BitVector.tryClone_alike {s : S} {p : Provider} {blocks : List Grant}
    (sound : StorageSpec.Sound s) (books : Books policy refusals blocks p) :
    (BitVector.tryClone s).Ends p
      (fun s' p' => BitVector.Made policy refusals blocks s' p' ∧ Storage.Alike s s')
      (Declined policy refusals blocks False) := by
  refine ((BitVector.tryClone_ends sound books).and (InlineStorage.duplicate_onHeap s p)).imp ?_ ?_
  · rintro s' p' ⟨⟨made, list⟩, mode⟩
    exact ⟨made, mode, list⟩
  · rintro failure p' ⟨declined, -⟩
    exact declined.weaken False.elim

theorem BitVector.clone_alike {s : S} {p : Provider} {blocks : List Grant}
    (sound : StorageSpec.Sound s) (books : Books policy refusals blocks p) :
    (BitVector.clone s).Ends p
      (fun s' p' => BitVector.Made policy refusals blocks s' p' ∧ Storage.Alike s s')
      (Declined policy refusals blocks False) :=
  (BitVector.tryClone_alike sound books).orPanic fun _ _ declined =>
    ⟨Attempt.panicked_tame declined.tame, declined.books, False.elim⟩

omit [InlineStorage S w] in
theorem BitVector.onOwned_moves {s : S} {p : Provider} {blocks : List Grant} {other : List Bool}
    {change : Attempt (Holding S) Unit} (moves : edit.Moves other change)
    (made : BitVector.Made policy refusals blocks s p) :
    (BitVector.onOwned s change).Ends p
      (fun s' p' => BitVector.Made policy refusals blocks s' p' ∧ edit.Leads other s s')
      (Declined policy refusals blocks False) := by
  refine BitVector.onOwned_ends (edit.Leads other s) ((moves made.holding).imp (fun _ _ => id) ?_)
  rintro failure h' ⟨tame, sound, -⟩
  exact ⟨tame, sound, False.elim⟩

theorem BitVector.copied_moves {s : S} {p : Provider} {blocks : List Grant} {other : List Bool}
    {change : Attempt (Holding S) Unit} (moves : edit.Moves other change)
    (sound : StorageSpec.Sound s) (books : Books policy refusals blocks p) :
    (BitVector.copied s change).Ends p
      (fun s' p' => BitVector.Made policy refusals blocks s' p' ∧ edit.Leads other s s')
      (Declined policy refusals blocks False) := by
  refine (BitVector.clone_alike sound books).bind ?_
  rintro copy p' ⟨made, alike⟩
  refine (BitVector.onOwned_moves moves made).imp ?_ fun _ _ => id
  rintro s' p'' ⟨made', leads⟩
  exact ⟨made', leads.of_alike alike⟩

namespace Pool
variable {pool : Pool S} {name target : String}

section Leaves
omit [HasBits w] [StorageSpec S w] [LawfulStorage S w] [InlineStorage S w]

theorem onProvider_leaves (attempt : Attempt Provider α) (name : String) :
    (onProvider attempt).Leaves fun pool : Pool S => pool.vector name :=
  .within attempt fun _ _ => rfl

theorem work_leaves (other : name ≠ target) (attempt : Attempt (Holding S) α) :
    (work target attempt).Leaves fun pool : Pool S => pool.vector name :=
  .within attempt fun pool h => (vector_hold pool target name h).trans (if_neg other)

theorem assign_leaves (other : name ≠ target) (s : S) :
    (assign target s).Leaves fun pool : Pool S => pool.vector name :=
  .get_bind fun _ => (Attempt.Leaves.modified fun pool =>
    (vector_put pool target name s).trans (if_neg other)).bind fun _ => onProvider_leaves _ name

theorem make_leaves (other : name ≠ target) (attempt : Attempt Provider S) :
    (make target attempt).Leaves fun pool : Pool S => pool.vector name :=
  (onProvider_leaves attempt name).bind fun s => assign_leaves other s

theorem take_leaves (other : name ≠ target) :
    (take target).Leaves fun pool : Pool S => pool.vector name :=
  .get_bind fun _ => (Attempt.Leaves.modified fun pool =>
    (vector_put pool target name Storage.empty).trans (if_neg other)).bind fun s => .pure s

end Leaves

omit [InlineStorage S w] in
theorem splitOff_onHeap (sound : pool.Sound policy refusals others) (other : name ≠ target)
    (position : Nat) :
    (splitOff name target position).Ends pool
      (fun _ pool' => Storage.onHeap (pool'.vector name) = Storage.onHeap (pool.vector name))
      fun _ pool' => Storage.onHeap (pool'.vector name) = Storage.onHeap (pool.vector name) := by
  have split := BitVector.splitOff_ends (sound.holding name) position
  have here (h : Holding S) : (pool.hold name h).vector name = h.storage :=
    (vector_hold pool name name h).trans (if_pos rfl)
  refine ((work_ends split).imp (fun _ _ => id) ?_).bind ?_
  · rintro failure pool' ⟨h, stopped, rfl⟩
    rw [here]
    rcases stopped with ⟨-, rfl⟩ | ⟨extent, -, -, -, same, -⟩
    · rfl
    · rw [same]
  · rintro tail pool' ⟨h, ⟨-, -, extent, -, -, -, mode⟩, rfl⟩
    have kept (after : Pool S) (same : after.vector name = (pool.hold name h).vector name) :
        Storage.onHeap (after.vector name) = Storage.onHeap (pool.vector name) := by
      rw [same, here]
      exact mode
    exact (assign_leaves other tail (pool.hold name h)).imp (fun _ => kept) fun _ => kept

end Pool

/-- Working on a vector in any manner does to its mode and its bits what the edit does. A vector that
was used up when the edit failed is gone. -/
theorem Manner.perform_moves {pool : Pool S} (sound : pool.Sound policy refusals others)
    (manner : Manner) {name : String} {other : List Bool} {change : Attempt (Holding S) Reply}
    (moves : edit.Moves other change) :
    (manner.perform name change).Ends pool
      (fun _ pool' => edit.Leads other (pool.vector name) (pool'.vector name))
      fun _ pool' => manner ≠ .owned → edit.Stays (pool.vector name) (pool'.vector name) := by
  have here (pool : Pool S) (h : Holding S) : (pool.hold name h).vector name = h.storage :=
    (Pool.vector_hold pool name name h).trans (if_pos rfl)
  -- A vector that takes the place of the old one is what is found there.
  have replaced {pool₁ : Pool S} : ∀ (_ : Unit) (pool' : Pool S),
      (pool'.Sound policy refusals others ∧ ∃ s, edit.Leads other (pool.vector name) s ∧
        ∀ any, pool'.vector any = if any = name then s else pool₁.vector any) →
      edit.Leads other (pool.vector name) (pool'.vector name) := by
    rintro - pool' ⟨-, s, leads, vectors⟩
    rw [vectors, if_pos rfl]
    exact leads
  cases manner with
  | inPlace =>
      refine (Pool.work_ends (moves (sound.holding name))).imp ?_ ?_
      · rintro reply pool' ⟨h, ⟨-, leads⟩, rfl⟩
        rw [here]
        exact leads
      · rintro failure pool' ⟨h, ⟨-, -, stays⟩, rfl⟩ -
        rw [here]
        exact stays
  | owned =>
      refine Attempt.Ends.map (Attempt.Ends.bind ((Pool.take_ends sound name).imp (fun _ _ => id)
        fun _ _ => False.elim) ?_) fun _ _ => id
      rintro s pool₁ ⟨rfl, storage, -, held⟩
      have made : BitVector.Made policy refusals (pool₁.blocks ++ others) (pool.vector name)
          pool₁.provider := ⟨storage, held.books.perm (List.perm_append_comm_assoc ..)⟩
      exact (Pool.make_ends held.tidy (BitVector.onOwned_moves (moves.map fun _ => ()) made)).imp
        replaced fun _ _ _ gone => absurd rfl gone
  | copy =>
      refine Attempt.Ends.map (.get_bind ?_) fun _ _ => id
      have copied := BitVector.copied_moves (moves.map fun _ => ())
        (sound.tidy.vector_sound name) sound.books
      refine (Pool.make_ends sound.tidy copied).imp replaced ?_
      rintro failure pool' ⟨p, -, rfl⟩ -
      exact .of_alike (.refl _)

omit [HasBits w] [StorageSpec S w] [LawfulStorage S w] [InlineStorage S w] in
theorem Manner.perform_leaves {name target : String} (other : name ≠ target) (manner : Manner)
    (change : Attempt (Holding S) Reply) :
    (manner.perform target change).Leaves fun pool : Pool S => pool.vector name := by
  cases manner with
  | inPlace => exact Pool.work_leaves other change
  | owned =>
      exact ((Pool.take_leaves other).bind fun s => Pool.make_leaves other _).map _
  | copy => exact (Attempt.Leaves.get_bind fun pool => Pool.make_leaves other _).map _

namespace Action
variable {pool : Pool S} {name : String}

section
omit [StorageSpec S w] [LawfulStorage S w] [InlineStorage S w]

def edited (action : Action w) (pool : Pool S) (name : String) : Option (Edit × List Bool) :=
  match action with
  | .work _ target edit beside =>
      if name = target then some (edit, (beside.span pool).toList) else none
  | .workBesideCopy _ target edit other =>
      if name = target then some (edit, pool.list other) else none
  | _ => none

/-- The vector under a name may be edited, in place or in a copy that takes its place, but it is not
replaced by another one, used up or given up. -/
def Keeps (name : String) (action : Action w) : Prop :=
  match action with
  | .make target _ => name ≠ target
  | .work manner target _ _ => manner ≠ .owned ∨ name ≠ target
  | .workBesideCopy manner target _ _ => manner ≠ .owned ∨ name ≠ target
  | .glance .. => True
  | .slice _ target _ => name ≠ target
  | .splitOff _ target _ => name ≠ target
  | .clone _ target => name ≠ target
  | .tryClone _ target => name ≠ target
  | .move source target => name ≠ source ∧ name ≠ target
  | .drop target => name ≠ target
  | .exchange .. => True
  | .clear => False

end

theorem perform_edited (sound : pool.Sound policy refusals others) {action : Action w}
    {other : List Bool} (known : action.edited pool name = some (edit, other)) :
    action.perform.Ends pool
      (fun _ pool' => edit.Leads other (pool.vector name) (pool'.vector name))
      fun _ pool' => action.Keeps name → edit.Stays (pool.vector name) (pool'.vector name) := by
  have kept {manner : Manner} {target : String} (same : name = target)
      (keeps : manner ≠ .owned ∨ name ≠ target) : manner ≠ .owned :=
    keeps.resolve_right fun elsewhere => elsewhere same
  cases action with
  | work manner target inner beside =>
      change (if name = target then some (inner, (beside.span pool).toList) else none) =
        some (edit, other) at known
      by_cases same : name = target
      · rw [if_pos same] at known
        cases known
        cases same
        exact .get_bind ((manner.perform_moves sound (edit.attempt_moves
          (beside.span_held sound.tidy))).imp (fun _ _ => id)
            fun _ _ stays keeps => stays (kept rfl keeps))
      · rw [if_neg same] at known
        cases known
  | workBesideCopy manner target inner source =>
      change (if name = target then some (inner, pool.list source) else none) =
        some (edit, other) at known
      by_cases same : name = target
      · rw [if_pos same] at known
        cases known
        cases same
        exact .get_bind ((manner.perform_moves sound (Edit.Moves.map (edit.besideCopy_moves
          (sound.tidy.vector_sound source)) _)).imp (fun _ _ => id)
            fun _ _ stays keeps => stays (kept rfl keeps))
      · rw [if_neg same] at known
        cases known
  | _ => cases known

omit [InlineStorage S w] in
theorem perform_onHeap (sound : pool.Sound policy refusals others) {action : Action w}
    (kept : action.Keeps name) (aside : action.edited pool name = none) :
    action.perform.Ends pool
      (fun _ pool' => Storage.onHeap (pool'.vector name) = Storage.onHeap (pool.vector name))
      fun _ pool' => Storage.onHeap (pool'.vector name) = Storage.onHeap (pool.vector name) := by
  have left {attempt : Attempt (Pool S) Reply}
      (leaves : attempt.Leaves fun pool => pool.vector name) :
      attempt.Ends pool
        (fun _ pool' => Storage.onHeap (pool'.vector name) = Storage.onHeap (pool.vector name))
        fun _ pool' => Storage.onHeap (pool'.vector name) = Storage.onHeap (pool.vector name) :=
    (leaves pool).imp (fun _ _ same => congrArg Storage.onHeap same)
      fun _ _ same => congrArg Storage.onHeap same
  cases action with
  | make target making => exact left ((Pool.make_leaves kept _).map _)
  | work manner target inner beside =>
      have other : name ≠ target := by
        rintro rfl
        exact absurd aside (by simp [edited])
      exact left (.get_bind fun _ => manner.perform_leaves other _)
  | workBesideCopy manner target inner source =>
      have other : name ≠ target := by
        rintro rfl
        exact absurd aside (by simp [edited])
      exact left (.get_bind fun _ => manner.perform_leaves other _)
  | glance source inner beside =>
      exact left (.get_bind fun _ => (Pool.onProvider_leaves _ name).bind fun _ =>
        (Pool.onProvider_leaves _ name).bind fun _ => .pure _)
  | slice source target bounds =>
      exact left (.get_bind fun _ => (Pool.make_leaves kept _).map _)
  | splitOff source target position =>
      by_cases same : name = source
      · cases same
        exact (Pool.splitOff_onHeap sound kept position).map fun _ _ => id
      · exact left (((Pool.work_leaves same _).bind fun tail =>
          Pool.assign_leaves kept tail).map _)
  | clone source target => exact left (.get_bind fun _ => (Pool.make_leaves kept _).map _)
  | tryClone source target => exact left (.get_bind fun _ => (Pool.make_leaves kept _).map _)
  | move source target =>
      exact left (((Pool.take_leaves kept.1).bind fun s => Pool.assign_leaves kept.2 s).map _)
  | drop target =>
      exact left (((Pool.take_leaves kept).bind fun s => Pool.onProvider_leaves _ name).map _)
  | exchange first second =>
      exact ((Pool.exchange_ends sound first second).imp (fun _ _ reached => reached.2 name)
        fun _ _ reached => reached.2.2 name).map fun _ _ => id
  | clear => exact kept.elim

end Action

end PackedBits
