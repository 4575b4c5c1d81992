import PackedBits.Proofs.Backend
import PackedBits.Proofs.Run.Action
import PackedBits.Proofs.Storage.Mode

/-! How far a storage grows. It asks for another block only when a length within its limit has
passed the capacity, and then for what that length needs or for twice what there is. So a capacity
counted in bits stays a size, although no test looks at it: this is one more thing that every
operation keeps, beside the soundness that they keep anyway. -/
namespace PackedBits

section
variable {w total current : Nat} [HasBits w]

theorem double_fits (small : total ≤ maxSigned) (full : current * w < total) :
    2 * current ≤ maxSize := by
  have limit : maxSize = 2 * maxSigned + 1 := by decide
  have words : current ≤ current * w := Nat.le_mul_of_pos_right current width_pos
  omega

theorem grownCapacity_eq (small : total ≤ maxSigned) (full : current * w < total) :
    grownCapacity (wordsFor w total) current =
      max (max (wordsFor w total) (2 * current)) minBlockWords := by
  rw [grownCapacity, Nat.min_eq_left (double_fits small full)]

theorem grownCapacity_fits (narrow : w ≤ 64) (small : total ≤ maxSigned)
    (full : current * w < total) : grownCapacity (wordsFor w total) current * w ≤ maxSize := by
  have limit : maxSize = 2 * maxSigned + 1 := by decide
  have large : 64 * 4 ≤ maxSigned := by decide
  have needed := wordsFor_mul_le (w := w) total
  have doubled : 2 * current * w = 2 * (current * w) := Nat.mul_assoc ..
  have least : minBlockWords * w ≤ 4 * 64 := Nat.mul_le_mul_left 4 narrow
  rw [grownCapacity_eq small full, ← Nat.mul_max_mul_right, ← Nat.mul_max_mul_right]
  refine Nat.max_le.mpr ⟨Nat.max_le.mpr ⟨?_, ?_⟩, ?_⟩
  · omega
  · omega
  · omega

end

/-- No operation leads from a capacity that fits to one that does not. -/
structure Storage.Confined (S : Type) {w : Nat} [Storage S w] [StorageSpec S w]
    (fits : Nat → Prop) : Prop where
  empty : fits (Storage.capacity (Storage.empty : S))
  reserve {policy : Policy} {refusals : Nat} {others : List Grant} {h : Holding S} :
    h.Sound policy refusals others → fits (Storage.capacity h.storage) → ∀ total,
    (Storage.reserve total).Ends h (fun _ h' => fits (Storage.capacity h'.storage))
      fun _ _ => True
  shrinkToFit {policy : Policy} {refusals : Nat} {others : List Grant} {h : Holding S} :
    h.Sound policy refusals others → fits (Storage.capacity h.storage) →
    Storage.shrinkToFit.Ends h (fun _ h' => fits (Storage.capacity h'.storage)) fun _ _ => True
  duplicate {policy : Policy} {refusals : Nat} {blocks : List Grant} {s : S} {p : Provider} :
    StorageSpec.Sound s → Books policy refusals blocks p → fits (Storage.capacity s) →
    (Storage.duplicate s).Ends p (fun s' _ => fits (Storage.capacity s')) fun _ _ => True

section
variable {S : Type} {w : Nat} [Storage S w] [StorageSpec S w] {fits : Nat → Prop}
  {policy : Policy} {refusals : Nat} {others : List Grant} {h : Holding S}

/-- A storage under a closer look, which takes it as sound only while its capacity fits. -/
def Watched (S : Type) (_ : Nat → Prop) : Type := S

instance : Storage (Watched S fits) w := inferInstanceAs (Storage S w)

instance : StorageSpec (Watched S fits) w where
  Sound (s : S) := StorageSpec.Sound s ∧ fits (Storage.capacity s)
  block (s : S) := StorageSpec.block s
  header := StorageSpec.header S
  blockWords := StorageSpec.blockWords S
  admits := StorageSpec.admits S

namespace Holding

theorem sound_watched_iff {h : Holding S} :
    Sound (S := Watched S fits) policy refusals others h ↔
      h.Sound policy refusals others ∧ fits (Storage.capacity h.storage) := by
  constructor
  · rintro ⟨⟨sound, room⟩, books⟩
    exact ⟨⟨sound, books⟩, room⟩
  · rintro ⟨⟨sound, books⟩, room⟩
    exact ⟨⟨sound, room⟩, books⟩

theorem Refused.watched {cause : Option Error} {certain : Prop} {failure : Failure}
    {h' : Holding S} (refused : h.Refused policy refusals others cause certain failure h')
    (room : fits (Storage.capacity h.storage)) :
    Refused (S := Watched S fits) policy refusals others h cause certain failure h' := by
  have same : fits (Storage.capacity h'.storage) := by
    rw [refused.storage]
    exact room
  exact ⟨refused.cause, refused.storage, refused.live, sound_watched_iff.mpr ⟨refused.sound, same⟩,
    fun sure => sound_watched_iff.mpr ⟨refused.counted sure, same⟩⟩

theorem unlessRefused_capacity {request : Request} {capacity limit : Nat} {cause : Option Error}
    {certain : Prop} {move : Attempt (Holding S) Unit}
    (moved : move.Ends h (fun _ => h.Moved policy refusals others request capacity)
      (h.Refused policy refusals others cause certain))
    (fits : capacity * w ≤ limit) (room : Storage.capacity h.storage ≤ limit) :
    move.unlessRefused.Ends h (fun _ h' => Storage.capacity h'.storage ≤ limit)
      fun _ _ => True := by
  have bounded : move.Ends h (fun _ h' => Storage.capacity h'.storage ≤ limit) _ :=
    moved.imp (fun _ _ became => Nat.le_trans (Nat.le_of_eq became.capacity) fits) fun _ _ => id
  refine (bounded.unlessRefused ?_).imp (fun _ _ => id) fun _ _ _ => trivial
  intro error h' refused
  rw [refused.storage]
  exact room

end Holding

variable [HasBits w] [LawfulStorage S w]

theorem Storage.Confined.of_sound
    (bound : ∀ s : S, StorageSpec.Sound s → fits (Storage.capacity s)) :
    Storage.Confined S fits where
  empty := bound _ LawfulStorage.empty_sound
  reserve sound _ total := (LawfulStorage.reserve_ends sound total).imp
    (fun _ _ reached => bound _ reached.1.storage) fun _ _ _ => trivial
  shrinkToFit sound _ := (LawfulStorage.shrinkToFit_ends sound).imp
    (fun _ _ reached => bound _ reached.1.storage) fun _ _ _ => trivial
  duplicate sound books _ := (LawfulStorage.duplicate_ends sound books).imp
    (fun _ _ reached => bound _ reached.1) fun _ _ _ => trivial

/-- Under the closer look a storage that makes no other capacities is lawful too. -/
theorem Storage.Confined.lawful (confined : Storage.Confined S fits) :
    LawfulStorage (Watched S fits) w where
  maxBits_lt := LawfulStorage.maxBits_lt (S := S)
  len_span := LawfulStorage.len_span (S := S)
  room sound := LawfulStorage.room (S := S) sound.1
  len_le_capacity sound := LawfulStorage.len_le_capacity (S := S) sound.1
  len_le_maxBits sound := LawfulStorage.len_le_maxBits (S := S) sound.1
  spare sound := LawfulStorage.spare (S := S) sound.1
  onHeap sound := LawfulStorage.onHeap (S := S) sound.1
  block_words sound := LawfulStorage.block_words (S := S) sound.1
  words_size sound := LawfulStorage.words_size (S := S) sound.1
  words_bit sound := LawfulStorage.words_bit (S := S) sound.1
  putWords sound within := by
    have put := LawfulStorage.putWords (S := S) sound.1 within
    exact ⟨⟨put.sound, put.capacity ▸ sound.2⟩, put.span, put.capacity, put.block⟩
  setLen sound room small clear := by
    have set := LawfulStorage.setLen (S := S) sound.1 room small clear
    exact ⟨⟨set.sound, set.capacity ▸ sound.2⟩, set.bit, set.len, set.capacity, set.block⟩
  empty_sound := ⟨LawfulStorage.empty_sound, confined.empty⟩
  empty_len := LawfulStorage.empty_len (S := S)
  empty_block := LawfulStorage.empty_block (S := S)
  reserve_ends watched total := by
    obtain ⟨sound, room⟩ := (Holding.sound_watched_iff (S := S)).mp watched
    refine ((LawfulStorage.reserve_ends (S := S) sound total).and
      (confined.reserve sound room total)).imp ?_ fun _ _ stopped => stopped.1.watched room
    rintro ⟨⟩ h' ⟨⟨sound', list, reached⟩, room'⟩
    exact ⟨(Holding.sound_watched_iff (S := S)).mpr ⟨sound', room'⟩, list, reached⟩
  reserve_inside := LawfulStorage.reserve_inside (S := S)
  shrinkToFit_ends watched := by
    obtain ⟨sound, room⟩ := (Holding.sound_watched_iff (S := S)).mp watched
    refine ((LawfulStorage.shrinkToFit_ends (S := S) sound).and
      (confined.shrinkToFit sound room)).imp ?_ fun _ _ never => never.1
    rintro ⟨⟩ h' ⟨⟨sound', list⟩, room'⟩
    exact ⟨(Holding.sound_watched_iff (S := S)).mpr ⟨sound', room'⟩, list⟩
  duplicate_ends sound books := by
    refine ((LawfulStorage.duplicate_ends (S := S) sound.1 books).and
      (confined.duplicate sound.1 books sound.2)).imp ?_ fun _ _ stopped => stopped.1
    rintro s' p' ⟨⟨sound', list, books'⟩, room'⟩
    exact ⟨⟨sound', room'⟩, list, books'⟩
  release_ends sound := LawfulStorage.release_ends (S := S) sound.1

end

theorem Backend.capacity_confined (b : Backend) {fits : Nat → Prop}
    (confined : Storage.Confined b.Carrier fits) {policy : Policy} (lawful : policy.Lawful)
    (actions : List (Action b.width)) (name : String) :
    let pool : Pool b.Carrier := (Action.run actions (Action.start policy)).2
    fits (Storage.capacity (pool.vector name)) := by
  have := confined.lawful
  exact ((Action.reached_sound (S := Watched b.Carrier fits) lawful actions).holding name).storage.2

namespace Plain
variable {w : Nat} [HasBits w] {policy : Policy} {refusals : Nat} {others : List Grant}
  {h : Holding (Plain w)}

omit [HasBits w] in
theorem no_capacity : 0 * w ≤ maxSize := Nat.le_trans (Nat.le_of_eq (Nat.zero_mul w)) (Nat.zero_le _)

theorem reserve_capacity (narrow : w ≤ 64) (sound : h.Sound policy refusals others)
    (room : h.storage.capacity * w ≤ maxSize) (total : Nat) :
    (reserve total).Ends h (fun _ h' => h'.storage.capacity * w ≤ maxSize) fun _ _ => True := by
  refine Holding.reserve_reaches
    (fun s => move (grownCapacity (wordsFor w total) s.capacity)) room ?_
  intro small full
  refine (grow_ends sound full _).imp ?_ fun _ _ _ => trivial
  intro _ h' became
  exact Nat.le_trans (Nat.le_of_eq became.capacity) (grownCapacity_fits narrow small full)

theorem shrink_capacity (sound : h.Sound policy refusals others)
    (room : h.storage.capacity * w ≤ maxSize) :
    shrinkToFit.Ends h (fun _ h' => h'.storage.capacity * w ≤ maxSize) fun _ _ => True := by
  refine .get_bind ?_
  by_cases fits : wordsFor w h.storage.len = h.storage.capacity
  · rw [if_pos fits]
    exact room
  · rw [if_neg fits]
    by_cases nothing : wordsFor w h.storage.len = 0
    · rw [if_pos nothing]
      exact (Attempt.Ends.any _ h).bind fun _ _ _ => no_capacity
    · rw [if_neg nothing]
      have fewer : wordsFor w h.storage.len * w ≤ h.storage.capacity * w :=
        Nat.mul_le_mul_right w (wordsFor_le_iff.mpr sound.storage.room)
      exact Holding.unlessRefused_capacity (move_ends sound (Nat.le_refl _) nothing)
        (Nat.le_trans fewer room) room

theorem duplicate_capacity (narrow : w ≤ 64) {s : Plain w} {p : Provider}
    (books : Books policy refusals others p) :
    (duplicate s).Ends p (fun s' _ => s'.capacity * w ≤ maxSize) fun _ _ => True := by
  have start : Holding.Sound policy refusals others ⟨(empty : Plain w), p⟩ := ⟨empty_sound, books⟩
  have none : (empty : Plain w).capacity * w ≤ maxSize := no_capacity
  have built : (Holding.build empty (reserve s.len)).Ends p
      (fun (out : Plain w) _ => out.capacity * w ≤ maxSize) fun _ _ => True :=
    Holding.build_ends (reserve_capacity narrow start none s.len)
  exact built.bind fun _ _ reached => reached

theorem confined (narrow : w ≤ 64) : Storage.Confined (Plain w) (· ≤ maxSize) where
  empty := no_capacity
  reserve sound room total := reserve_capacity narrow sound room total
  shrinkToFit sound room := shrink_capacity sound room
  duplicate _ books _ := duplicate_capacity narrow books

end Plain

namespace SmallBuffer
variable {policy : Policy} {refusals : Nat} {others : List Grant} {h : Holding SmallBuffer}

theorem reserve_capacity (sound : h.Sound policy refusals others)
    (room : h.storage.capacity ≤ maxSize) (total : Nat) :
    (reserve total).Ends h (fun _ h' => h'.storage.capacity ≤ maxSize) fun _ _ => True := by
  refine Holding.reserve_reaches (fun s => moveToHeap
    (grownCapacity (wordsFor 64 total) (if s.onHeap then s.heapCapacity else 0))) room ?_
  intro small full
  have signed : total ≤ maxSigned := Nat.le_trans small (by decide)
  have passed := Nat.lt_of_le_of_lt (Storage.heldWords_mul_le h.storage) full
  rw [heldWords_eq sound.storage] at passed
  refine (grow_ends sound full _).imp ?_ fun _ _ _ => trivial
  intro _ h' became
  exact Nat.le_trans (Nat.le_of_eq became.capacity)
    (grownCapacity_fits (Nat.le_refl 64) signed passed)

theorem shrink_capacity (sound : h.Sound policy refusals others)
    (room : h.storage.capacity ≤ maxSize) :
    shrinkToFit.Ends h (fun _ h' => h'.storage.capacity ≤ maxSize) fun _ _ => True := by
  refine .get_bind ?_
  refine Holding.shrink_reaches room ?_ ?_
  · intro short
    have inline : (⟨ControlBlock.ofInline h.storage.words h.storage.len⟩ : SmallBuffer).onHeap =
        false := (ofInline_same sound.storage short).1.onHeap
    refine (Holding.settle_inline inline release_leaves).imp ?_ fun _ _ _ => trivial
    intro _ h' settled
    exact Nat.le_trans (Nat.le_of_eq (InlineStorage.capacity_inline settled.1)) (by decide)
  · intro heap need positive less longer
    have fits : need * 64 ≤ h.storage.capacity := by
      rw [capacity, if_pos heap]
      omega
    exact Holding.unlessRefused_capacity (moveToHeap_ends sound positive longer)
      (Nat.le_trans fits room) room

theorem duplicate_capacity {s : SmallBuffer} {p : Provider} (sound : Sound s)
    (books : Books policy refusals others p) :
    (duplicate s).Ends p (fun s' _ => s'.capacity =
      if s.onHeap then max (wordsFor 64 s.len) minBlockWords * 64 else inlineBits)
      fun _ _ => True := by
  by_cases mode : s.onHeap = true
  · obtain ⟨old, held, bits, heap⟩ : ∃ old held bits, Heap s old held bits := by
      rcases sound with inline | heap
      · exact absurd mode (inline_mode inline)
      · exact heap
    have positive : 0 < max (wordsFor 64 s.len) minBlockWords :=
      Nat.lt_of_lt_of_le (by decide) (Nat.le_max_right ..)
    rw [duplicate, if_pos mode, if_pos mode]
    refine ((build_empty_ends books positive).imp (fun _ _ => id) fun _ _ _ => trivial).bind ?_
    rintro out p' ⟨address, heapOut, -⟩
    exact (filled_heap heapOut heap (Nat.le_max_left ..)).1.capacity_eq
  · rw [if_neg mode]
    exact Holding.duplicate_inline (eq_false_of_ne_true mode) p

theorem duplicate_fits {s : SmallBuffer} {p : Provider} (sound : Sound s)
    (books : Books policy refusals others p) :
    (duplicate s).Ends p (fun s' _ => s'.capacity ≤ maxSize) fun _ _ => True := by
  have limit : maxBits + 63 ≤ maxSize := by decide
  have needed := wordsFor_mul_le (w := 64) s.len
  have small := len_le_maxBits sound
  refine (duplicate_capacity sound books).imp ?_ fun _ _ => id
  intro s' p' capacity
  rw [capacity]
  split
  · rw [← Nat.mul_max_mul_right]
    exact Nat.max_le.mpr ⟨by omega, by decide⟩
  · decide

theorem confined : Storage.Confined SmallBuffer (· ≤ maxSize) where
  empty := by decide
  reserve sound room total := reserve_capacity sound room total
  shrinkToFit sound room := shrink_capacity sound room
  duplicate sound books _ := duplicate_fits sound books

end SmallBuffer

namespace Tagged

theorem duplicate_capacity {policy : Policy} {refusals : Nat} {others : List Grant} {s : Tagged}
    {p : Provider} (sound : Sound s) (books : Books policy refusals others p) :
    (duplicate s).Ends p (fun s' _ => s'.capacity =
      if s.onHeap then max (wordsFor 64 s.len) minBlockWords * 64 else inlineBits)
      fun _ _ => True := by
  by_cases mode : s.onHeap = true
  · obtain ⟨old, held, bits, heap⟩ : ∃ old held bits, Heap s old held bits := by
      rcases sound with inline | heap
      · exact absurd mode (inline_mode inline)
      · exact heap
    have positive : 0 < max (wordsFor 64 s.len) minBlockWords :=
      Nat.lt_of_lt_of_le (by decide) (Nat.le_max_right ..)
    have count : max (wordsFor 64 s.len) minBlockWords < 2 ^ 32 :=
      Nat.max_lt.mpr ⟨Nat.lt_of_le_of_lt (wordsFor_mono (len_le_maxBits sound)) (by decide),
        by decide⟩
    rw [duplicate, if_pos mode, if_pos mode]
    refine ((build_empty_ends books positive count).imp (fun _ _ => id)
      fun _ _ _ => trivial).bind ?_
    rintro out p' ⟨address, heapOut, -⟩
    exact (filled_heap heapOut heap (Nat.le_max_left ..)).1.capacity_eq
  · rw [if_neg mode]
    exact Holding.duplicate_inline (eq_false_of_ne_true mode) p

theorem confined : Storage.Confined Tagged (· ≤ maxSize) := by
  refine .of_sound fun s sound => ?_
  rcases sound with inline | ⟨address, capacity, bits, heap⟩
  · exact Nat.le_trans (Nat.le_of_eq (inline_capacity inline)) (by decide)
  · have count := heap.count
    have limit : 2 ^ 32 * 64 ≤ maxSize := by decide
    refine Nat.le_trans (Nat.le_of_eq heap.capacity_eq) ?_
    omega

end Tagged

theorem Backend.capacity_fits (b : Backend) (narrow : b.width ≤ 64) {policy : Policy}
    (lawful : policy.Lawful) (actions : List (Action b.width)) (name : String) :
    let pool : Pool b.Carrier := (Action.run actions (Action.start policy)).2
    Storage.capacity (pool.vector name) ≤ maxSize := by
  have confined : Storage.Confined b.Carrier (· ≤ maxSize) := by
    cases b with
    | plain width positive =>
        have : HasBits width := ⟨Nat.ne_of_gt positive⟩
        exact Plain.confined narrow
    | smallBuffer => exact SmallBuffer.confined
    | tagged => exact Tagged.confined
  exact b.capacity_confined confined lawful actions name

end PackedBits
