import PackedBits.Proofs.Storage.Requests

/-! What a storage asks of its provider when it is shrunk: one block at most, for exactly the words in
use, and none if there is nothing to gain or no block is needed any more. Afterwards the storage is
tight, unless that block is refused, and shrinking a tight one again does nothing. -/
namespace PackedBits

namespace Storage
variable {S : Type} {w : Nat} [HasBits w] [Storage S w] {room : Nat} {s : S}

def Loose (room : Nat) (s : S) : Prop := room < len s ∧ capacity s ≠ wordsFor w (len s) * w

instance : Decidable (Loose room s) := inferInstanceAs (Decidable (_ ∧ _))

/-- No block is held where none is needed, and otherwise one for exactly the words in use. -/
structure Tight (room : Nat) (s : S) : Prop where
  onHeap : onHeap s = decide (room < len s)
  capacity : capacity s = if room < len s then wordsFor w (len s) * w else room

theorem Tight.room_le (tight : Tight room s) : room ≤ Storage.capacity s := by
  rw [tight.capacity]
  split
  case isTrue long => exact Nat.le_trans (Nat.le_of_lt long) (le_wordsFor (len s))
  case isFalse => exact Nat.le_refl room

variable [StorageSpec S w]

def trimRequest (h : Holding S) : Request :=
  ⟨h.provider.requests, w, wordsFor w (len h.storage) + StorageSpec.header S⟩

def trimming (room : Nat) (h : Holding S) : Option Error :=
  if Loose room h.storage then refusal S h.provider.policy (trimRequest h) else none

end Storage

section
variable {S : Type} {w : Nat} [Storage S w] [StorageSpec S w] {policy : Policy} {refusals : Nat}
  {others : List Grant} {h : Holding S}

/-- A request for a block of `capacity` words has been made, and with the block the bits have moved
or without it they have stayed. -/
def Holding.Trimmed (policy : Policy) (h : Holding S) (request : Request) (capacity : Nat)
    (h' : Holding S) : Prop :=
  h'.provider.requests = h.provider.requests + 1 ∧
    match Storage.refusal S policy request with
    | some _ => h'.storage = h.storage ∧ h'.provider.live = h.provider.live
    | none => Storage.capacity h'.storage = capacity * w

theorem Holding.trimmed_of_move {request : Request} {capacity : Nat} {certain : Prop}
    {move : Attempt (Holding S) Unit}
    (moved : move.Ends h (fun _ => h.Moved policy refusals others request capacity)
      (h.Refused policy refusals others (Storage.refusal S policy request) certain))
    (served : move.Ends h (fun _ h' => h.provider.Served h'.provider)
      fun _ h' => h'.provider.requests = h.provider.requests + 1) :
    move.unlessRefused.Ends h (fun _ => h.Trimmed policy request capacity) fun _ _ => True := by
  have outcome : move.Ends h (fun _ => h.Trimmed policy request capacity) _ :=
    (moved.and served).imp (fun _ h' ⟨became, asked⟩ => ⟨asked.requests, by
      rw [became.granted]
      exact became.capacity⟩) fun _ _ => id
  refine (outcome.unlessRefused ?_).imp (fun _ _ => id) fun _ _ _ => trivial
  rintro error h' ⟨stopped, requests⟩
  obtain ⟨_, -, refused⟩ := stopped.cause
  refine ⟨requests, ?_⟩
  rw [refused]
  exact ⟨stopped.storage, stopped.live⟩

end

/-- A storage that asks for one block at most to become tight. -/
structure Storage.Trims (S : Type) {w : Nat} [HasBits w] [Storage S w] [StorageSpec S w]
    (room : Nat) : Prop extends Storage.HasRoom S room where
  settle {policy : Policy} {refusals : Nat} {others : List Grant} {h : Holding S} :
    h.Sound policy refusals others → Storage.len h.storage ≤ room →
    Storage.shrinkToFit.Ends h (fun _ h' => Storage.onHeap h'.storage = false ∧
      h'.provider.requests = h.provider.requests) fun _ _ => True
  idle {h : Holding S} : StorageSpec.Sound h.storage → Storage.Tight room h.storage →
    Storage.shrinkToFit h = .ok () h
  trim {policy : Policy} {refusals : Nat} {others : List Grant} {h : Holding S} :
    h.Sound policy refusals others → Storage.Loose room h.storage →
    Storage.shrinkToFit.Ends h (fun _ => h.Trimmed policy (Storage.trimRequest h)
      (wordsFor w (Storage.len h.storage))) fun _ _ => True
  duplicate {policy : Policy} {refusals : Nat} {blocks : List Grant} {s : S} {p : Provider} :
    StorageSpec.Sound s → Books policy refusals blocks p →
    (Storage.duplicate s).Ends p (fun s' _ => room ≤ Storage.capacity s') fun _ _ => True

namespace Storage
variable {S : Type} {w room : Nat} [HasBits w] [Storage S w] [StorageSpec S w] [LawfulStorage S w]
  {s : S}

theorem HasRoom.onHeap (rooms : HasRoom S room) (sound : StorageSpec.Sound s)
    (long : room < len s) : Storage.onHeap s = true := by
  refine eq_true_of_ne_false fun inline => ?_
  have fits := LawfulStorage.len_le_capacity sound
  rw [rooms.blockless sound inline] at fits
  omega

theorem HasRoom.le_heldWords (rooms : HasRoom S room) (sound : StorageSpec.Sound s)
    (long : room < len s) : wordsFor w (len s) ≤ heldWords s := by
  have fits := LawfulStorage.len_le_capacity sound
  rw [rooms.whole sound (rooms.onHeap sound long)] at fits
  exact wordsFor_le_iff.mpr fits

theorem HasRoom.loose_iff (rooms : HasRoom S room) (sound : StorageSpec.Sound s)
    (long : room < len s) : Loose room s ↔ wordsFor w (len s) < heldWords s := by
  have least := rooms.le_heldWords sound long
  have positive : 0 < w := width_pos
  rw [Loose, and_iff_right long, rooms.whole sound (rooms.onHeap sound long), Nat.lt_iff_le_and_ne,
    and_iff_right least, ne_comm, Ne, Ne, Nat.mul_left_inj (Nat.ne_of_gt positive)]

end Storage

namespace Plain
variable {w : Nat} [HasBits w] {policy : Policy} {refusals : Nat} {others : List Grant}
  {h : Holding (Plain w)}

theorem shrink_empty (clear : h.storage.len = 0) :
    shrinkToFit.Ends h (fun _ h' => Storage.onHeap h'.storage = false ∧
      h'.provider.requests = h.provider.requests) fun _ _ => True := by
  have nothing : wordsFor w h.storage.len = 0 := wordsFor_eq_zero.mpr clear
  refine .get_bind ?_
  by_cases none : wordsFor w h.storage.len = h.storage.capacity
  · rw [if_pos none]
    exact ⟨bne_eq_false_iff_eq.mpr (none.symm.trans nothing), rfl⟩
  · rw [if_neg none, if_pos nothing]
    have released := Provider.release_leaves h.storage.address h.storage.capacity h.provider
    refine ((Holding.onProvider_ends released).imp (fun _ _ => id) fun _ _ _ => trivial).bind ?_
    rintro ⟨⟩ h' ⟨-, counts⟩
    exact ⟨rfl, congrArg Prod.fst counts⟩

theorem shrink_tight (tight : Storage.Tight 0 h.storage) : shrinkToFit h = .ok () h := by
  have words : h.storage.capacity * w = wordsFor w h.storage.len * w := by
    refine (tight.capacity : h.storage.capacity * w = _).trans ?_
    split
    case isTrue => rfl
    case isFalse clear =>
      have nothing : h.storage.len = 0 := Nat.eq_zero_of_not_pos clear
      rw [nothing, wordsFor_eq_zero.mpr rfl, Nat.zero_mul]
  have same := (Nat.eq_of_mul_eq_mul_right width_pos words).symm
  show (if wordsFor w h.storage.len = h.storage.capacity then pure () else _ : Attempt _ _) h = _
  rw [if_pos same]
  rfl

theorem shrink_loose (sound : h.Sound policy refusals others)
    (loose : Storage.Loose 0 h.storage) :
    shrinkToFit.Ends h (fun _ => h.Trimmed policy (Storage.trimRequest h)
      (wordsFor w h.storage.len)) fun _ _ => True := by
  have other : wordsFor w h.storage.len ≠ h.storage.capacity := by
    refine fun same => loose.2 ?_
    exact congrArg (· * w) same.symm
  have some : wordsFor w h.storage.len ≠ 0 := Nat.ne_of_gt (wordsFor_pos loose.1)
  refine .get_bind ?_
  rw [if_neg other, if_neg some]
  exact Holding.trimmed_of_move (move_ends sound (Nat.le_refl _) some) (move_served ..)

theorem trims (w : Nat) [HasBits w] : Storage.Trims (Plain w) 0 where
  toHasRoom := (doubles w).toHasRoom
  settle _ clear := shrink_empty (Nat.le_zero.mp clear)
  idle _ := shrink_tight
  trim := shrink_loose
  duplicate sound books := (duplicate_ends sound books).imp (fun _ _ _ => Nat.zero_le _)
    fun _ _ _ => trivial

end Plain

namespace Storage
variable {S : Type} [Storage S 64] [StorageSpec S 64] [LawfulStorage S 64] {h : Holding S}
  {held : Nat} {moveInline : Attempt (Holding S) Unit} {moveToHeap : Nat → Attempt (Holding S) Unit}
  {done : Unit → Holding S → Prop} {failed : Failure → Holding S → Prop}

theorem room_le_copied (heap : Bool) (bits : Nat) :
    inlineBits ≤ if heap then max (wordsFor 64 bits) minBlockWords * 64 else inlineBits := by
  split
  · exact Nat.le_trans (by decide) (Nat.mul_le_mul_right 64 (Nat.le_max_right ..))
  · exact Nat.le_refl _

theorem Loose.shrink_moves (loose : Loose inlineBits h.storage) (rooms : HasRoom S inlineBits)
    (sound : StorageSpec.Sound h.storage)
    (words : heldWords h.storage = if onHeap h.storage then held else 0)
    (moved : 0 < wordsFor 64 (len h.storage) →
      (moveToHeap (wordsFor 64 (len h.storage))).unlessRefused.Ends h done failed) :
    (if onHeap h.storage then
        if len h.storage ≤ inlineBits then moveInline
        else
          let need := wordsFor 64 (len h.storage)
          if need < held then Attempt.unlessRefused (moveToHeap need) else pure ()
      else pure () : Attempt (Holding S) Unit).Ends h done failed := by
  have heap := rooms.onHeap sound loose.1
  have less := (rooms.loose_iff sound loose.1).mp loose
  rw [words, if_pos heap] at less
  rw [if_pos heap, if_neg (Nat.not_le.mpr loose.1)]
  simpa only [if_pos less] using moved (wordsFor_pos (Nat.zero_lt_of_lt loose.1))

theorem Tight.shrink_rests (tight : Tight inlineBits h.storage) (rooms : HasRoom S inlineBits)
    (sound : StorageSpec.Sound h.storage)
    (words : heldWords h.storage = if Storage.onHeap h.storage then held else 0) :
    (if Storage.onHeap h.storage then
        if len h.storage ≤ inlineBits then moveInline
        else
          let need := wordsFor 64 (len h.storage)
          if need < held then Attempt.unlessRefused (moveToHeap need) else pure ()
      else pure () : Attempt (Holding S) Unit) h = .ok () h := by
  by_cases heap : Storage.onHeap h.storage = true
  · have long : inlineBits < len h.storage := of_decide_eq_true (tight.onHeap.symm.trans heap)
    have whole : ¬ wordsFor 64 (len h.storage) < held := by
      intro less
      rw [if_pos heap] at words
      rw [← words] at less
      refine ((rooms.loose_iff sound long).mpr less).2 ?_
      rw [tight.capacity, if_pos long]
    rw [if_pos heap, if_neg (Nat.not_le.mpr long)]
    simp only [if_neg whole]
    rfl
  · rw [if_neg heap]
    rfl

end Storage

theorem SmallBuffer.trims : Storage.Trims SmallBuffer inlineBits where
  toHasRoom := doubles.toHasRoom
  settle sound small := shrink_inline sound.storage small
  idle sound tight := tight.shrink_rests doubles.toHasRoom sound (heldWords_eq sound)
  trim sound loose := .get_bind (loose.shrink_moves doubles.toHasRoom sound.storage
    (heldWords_eq sound.storage) fun some => Holding.trimmed_of_move
      (moveToHeap_ends sound some (le_wordsFor _)) (moveToHeap_served ..))
  duplicate {_ _ _ s _} sound books := (duplicate_capacity sound books).imp
    (fun _ _ same => Nat.le_trans (Storage.room_le_copied s.onHeap s.len) (Nat.le_of_eq same.symm))
    fun _ _ => id

theorem Tagged.trims : Storage.Trims Tagged inlineBits where
  toHasRoom := doubles.toHasRoom
  settle sound small := shrink_inline sound.storage small
  idle sound tight := tight.shrink_rests doubles.toHasRoom sound (heldWords_eq sound)
  trim {_ _ _ h} sound loose := by
    have count : wordsFor 64 h.storage.len < 2 ^ 32 :=
      Nat.lt_of_le_of_lt (wordsFor_mono (len_le_maxBits sound.storage)) (by decide)
    exact .get_bind (loose.shrink_moves doubles.toHasRoom sound.storage
      (heldWords_eq sound.storage) fun some => Holding.trimmed_of_move
        (moveToHeap_ends sound some count (le_wordsFor _)) (moveToHeap_served ..))
  duplicate {_ _ _ s _} sound books := (duplicate_capacity sound books).imp
    (fun _ _ same => Nat.le_trans (Storage.room_le_copied s.onHeap s.len) (Nat.le_of_eq same.symm))
    fun _ _ => id

theorem Backend.trims (b : Backend) : Storage.Trims b.Carrier b.room := by
  cases b with
  | plain width positive =>
      have : HasBits width := ⟨Nat.ne_of_gt positive⟩
      exact Plain.trims width
  | smallBuffer => exact SmallBuffer.trims
  | tagged => exact Tagged.trims

end PackedBits
