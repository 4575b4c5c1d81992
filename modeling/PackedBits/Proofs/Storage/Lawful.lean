import PackedBits.Proofs.Provider
import PackedBits.Proofs.Words
import PackedBits.Proofs.Span.Frame

/-! What every storage keeps true, and what its operations do to the list of its bits and to the
books of its provider. A lawful storage says when it is sound, which block it owns, and how it asks
for the next one; resizing, clearing and working in place are then settled for all of them. -/
namespace PackedBits

theorem le_grownCapacity (needed current : Nat) : needed ≤ grownCapacity needed current :=
  Nat.le_trans (Nat.le_max_left ..) (Nat.le_max_left ..)

theorem grownCapacity_pos (needed current : Nat) : 0 < grownCapacity needed current :=
  Nat.lt_of_lt_of_le (by decide : 0 < minBlockWords) (Nat.le_max_right ..)

/-- How a storage is to be looked at: when it is sound, and how it deals with its provider. -/
class StorageSpec (S : Type) (w : outParam Nat) [Storage S w] where
  Sound : S → Prop
  /-- The block that the storage owns. -/
  block : S → Option Grant
  /-- The words of a block that hold no bits. -/
  header : Nat
  /-- The size of the block asked for when `needed` words have to fit and `current` do. -/
  blockWords : (needed current : Nat) → Nat
  /-- Whether a block at an address can be kept. -/
  admits : Nat → Bool

namespace Storage
variable {S : Type} {w : Nat} [Storage S w] [StorageSpec S w]

def heldWords (s : S) : Nat := if onHeap s then capacity s / w else 0

omit [StorageSpec S w] in
theorem heldWords_mul_le (s : S) : heldWords s * w ≤ capacity s := by
  unfold heldWords
  split
  · exact Nat.div_mul_le_self ..
  · exact Nat.le_trans (Nat.le_of_eq (Nat.zero_mul w)) (Nat.zero_le _)

/-- Why a request brings no block that the storage can keep. -/
def refusal (S : Type) {w : Nat} [Storage S w] [StorageSpec S w] (policy : Policy)
    (request : Request) : Option Error :=
  match policy request with
  | .error error => some error
  | .ok address =>
      if StorageSpec.admits S address then none else some (.allocFailed request.words)

section
variable {policy : Policy} {request : Request}

theorem refusal_of_refused {error : Error} (answer : policy request = .error error) :
    refusal S policy request = some error := by
  rw [refusal, answer]

theorem refusal_of_granted {address : Nat} (answer : policy request = .ok address) :
    refusal S policy request =
      if StorageSpec.admits S address then none else some (.allocFailed request.words) := by
  rw [refusal, answer]

end

/-- Why room for `total` bits in all cannot be made. -/
def shortage (h : Holding S) (total : Nat) : Option Error :=
  if maxBits S < total then some (.capacityExceeded total (maxBits S))
  else if total ≤ capacity h.storage then none
  else refusal S h.provider.policy ⟨h.provider.requests, w,
    StorageSpec.blockWords S (wordsFor w total) (heldWords h.storage)⟩

def Admitted (S : Type) {w : Nat} [Storage S w] [StorageSpec S w] (policy : Policy) : Prop :=
  ∀ request address, policy request = .ok address → StorageSpec.admits S address

/-- A total that only the provider can refuse. -/
def Allows (S : Type) {w : Nat} [Storage S w] [StorageSpec S w] (policy : Policy) (total : Nat) :
    Prop :=
  total ≤ maxBits S ∧ Admitted S policy

structure Rewritten (s s' : S) (words : Array (BitVec w)) : Prop where
  sound : StorageSpec.Sound s'
  span : Container.span s' = { Container.span s with words := words }
  capacity : capacity s' = capacity s
  block : StorageSpec.block s' = StorageSpec.block s

structure Relengthened (s s' : S) (bits : Nat) : Prop where
  sound : StorageSpec.Sound s'
  bit : ∀ k < capacity s, (Container.span s').bit k = (Container.span s).bit k
  len : len s' = bits
  capacity : capacity s' = capacity s
  block : StorageSpec.block s' = StorageSpec.block s

end Storage

namespace Holding
variable {S : Type} {w : Nat} [Storage S w]

def list (h : Holding S) : List Bool := (Container.span h.storage).toList

variable [StorageSpec S w]

/-- A sound storage whose block is on the books of its provider, beside the blocks of others. -/
structure Sound (policy : Policy) (refusals : Nat) (others : List Grant) (h : Holding S) :
    Prop where
  storage : StorageSpec.Sound h.storage
  books : Books policy refusals ((StorageSpec.block h.storage).toList ++ others) h.provider

/-- The bits are in a block of `capacity` words of their own, the answer to a request. -/
structure Moved (policy : Policy) (refusals : Nat) (others : List Grant) (h : Holding S)
    (request : Request) (capacity : Nat) (h' : Holding S) : Prop where
  sound : h'.Sound policy refusals others
  list : h'.list = h.list
  capacity : Storage.capacity h'.storage = capacity * w
  granted : Storage.refusal S policy request = none

/-- A refusal: nothing has changed but the number of requests. Where it is `certain` that the
provider was asked and refused, that has been counted. -/
structure Refused (policy : Policy) (refusals : Nat) (others : List Grant) (h : Holding S)
    (cause : Option Error) (certain : Prop) (failure : Failure) (h' : Holding S) : Prop where
  cause : ∃ error, failure = .error error ∧ cause = some error
  storage : h'.storage = h.storage
  live : h'.provider.live = h.provider.live
  sound : h'.Sound policy refusals others
  counted : certain → h'.Sound policy (refusals + 1) others

end Holding

namespace Holding
variable {S α : Type} {w : Nat} {h : Holding S}

theorem onProvider_ends {attempt : Attempt Provider α} {done : α → Provider → Prop}
    {failed : Failure → Provider → Prop} (ends : attempt.Ends h.provider done failed) :
    (onProvider attempt).Ends h (fun value h' => h'.storage = h.storage ∧ done value h'.provider)
      fun failure h' => h'.storage = h.storage ∧ failed failure h'.provider :=
  Attempt.Ends.within h ends (fun _ _ reached => ⟨rfl, reached⟩) fun _ _ reached => ⟨rfl, reached⟩

theorem build_ends {s : S} {p : Provider} {attempt : Attempt (Holding S) Unit}
    {done : S → Provider → Prop} {failed : Failure → Provider → Prop}
    (ends : attempt.Ends ⟨s, p⟩ (fun _ h' => done h'.storage h'.provider)
      fun failure h' => failed failure h'.provider) :
    (build s attempt).Ends p done failed := by
  unfold Attempt.Ends build
  obtain ⟨value, h', ran, reached⟩ | ⟨failure, h', ran, stopped⟩ := ends.ran
  · rw [ran]
    exact reached
  · rw [ran]
    exact stopped

variable [Storage S w] [StorageSpec S w] {policy : Policy} {refusals : Nat} {others : List Grant}

omit [Storage S w] [StorageSpec S w] in
theorem modifyStorage_bind {β : Type} {change : S → S} {next : Unit → Attempt (Holding S) β}
    {done : β → Holding S → Prop} {failed : Failure → Holding S → Prop}
    (rest : (next ()).Ends { h with storage := change h.storage } done failed) :
    (modifyStorage change >>= next).Ends h done failed := rest

theorem replaced_ends {s : S} {p : Provider} {blocks : List Grant}
    {giveBack : Attempt Provider Unit} (sound : StorageSpec.Sound s)
    (books : Books policy refusals ((StorageSpec.block s).toList ++ (blocks ++ others)) p)
    (released : ∀ rest, Books policy refusals (blocks ++ rest) p →
      giveBack.Ends p (fun _ p' => Books policy refusals rest p') fun _ _ => False) :
    (onProvider giveBack).Ends ⟨s, p⟩
      (fun _ h' => h'.storage = s ∧ h'.Sound policy refusals others) fun _ _ => False := by
  have ends := released _ (books.perm (List.perm_append_comm_assoc ..))
  have ends' : giveBack.Ends (Holding.provider ⟨s, p⟩) _ _ := ends
  refine (onProvider_ends ends').imp ?_ fun _ _ never => never.2
  rintro ⟨⟩ h' ⟨same, books'⟩
  refine ⟨same, ?_, ?_⟩
  · rw [same]
    exact sound
  · rw [same]
    exact books'

theorem move_ends {words capacity : Nat} {allocate : Attempt Provider Nat} {put : Nat → S → S}
    {giveBack : S → Attempt Provider Unit} (sound : h.Sound policy refusals others)
    (allocated : allocate.Ends h.provider
      (fun address p' => Storage.refusal S policy ⟨h.provider.requests, w, words⟩ = none ∧
        policy ⟨h.provider.requests, w, words⟩ = .ok address ∧ Books policy refusals
          (⟨address, words⟩ :: ((StorageSpec.block h.storage).toList ++ others)) p')
      fun failure p' => (∃ error, failure = .error error ∧
          Storage.refusal S policy ⟨h.provider.requests, w, words⟩ = some error) ∧
        p'.live = h.provider.live ∧ Declined policy refusals
          ((StorageSpec.block h.storage).toList ++ others) (Storage.Admitted S policy) failure p')
    (becomes : ∀ address, policy ⟨h.provider.requests, w, words⟩ = .ok address →
      Storage.refusal S policy ⟨h.provider.requests, w, words⟩ = none →
      StorageSpec.Sound (put address h.storage) ∧
        StorageSpec.block (put address h.storage) = some ⟨address, words⟩ ∧
        (Container.span (put address h.storage)).toList = (Container.span h.storage).toList ∧
        Storage.capacity (put address h.storage) = capacity * w)
    (released : ∀ rest p, Books policy refusals ((StorageSpec.block h.storage).toList ++ rest) p →
      (giveBack h.storage).Ends p (fun _ p' => Books policy refusals rest p') fun _ _ => False) :
    (do
      let address ← onProvider allocate
      let old := (← get).storage
      modifyStorage (put address)
      onProvider (giveBack old) : Attempt (Holding S) Unit).Ends h
      (fun _ => h.Moved policy refusals others ⟨h.provider.requests, w, words⟩ capacity)
      (h.Refused policy refusals others
        (Storage.refusal S policy ⟨h.provider.requests, w, words⟩)
        (Storage.Admitted S policy)) := by
  refine ((onProvider_ends allocated).imp (fun _ _ => id) ?_).bind ?_
  · rintro failure ⟨s₁, p₁⟩ ⟨same, cause, live, declined⟩
    obtain rfl : s₁ = h.storage := same
    exact ⟨cause, rfl, live, ⟨sound.storage, declined.books⟩,
      fun admitted => ⟨sound.storage, declined.counted admitted⟩⟩
  · rintro address ⟨s₁, p₁⟩ ⟨same, granted, answer, books⟩
    obtain rfl : s₁ = h.storage := same
    obtain ⟨soundPut, owned, list, capacity⟩ := becomes address answer granted
    refine .get_bind (modifyStorage_bind ?_)
    -- The new block is on the books before the old one goes back.
    have books' : Books policy refusals ((StorageSpec.block (put address h.storage)).toList ++
        ((StorageSpec.block h.storage).toList ++ others)) p₁ := by
      rw [owned]
      exact books
    refine (replaced_ends soundPut books' fun rest => released rest p₁).imp ?_ fun _ _ => False.elim
    rintro ⟨⟩ h₂ ⟨same, sound₂⟩
    refine ⟨sound₂, ?_, ?_, granted⟩
    · rw [Holding.list, same]
      exact list
    · rw [same]
      exact capacity

theorem allocate_ends {p : Provider} {blocks : List Grant} (books : Books policy refusals blocks p)
    (width words : Nat) (anywhere : ∀ address, StorageSpec.admits S address = true) :
    (Provider.allocate width words).Ends p
      (fun address p' => Storage.refusal S policy ⟨p.requests, width, words⟩ = none ∧
        policy ⟨p.requests, width, words⟩ = .ok address ∧
        Books policy refusals (⟨address, words⟩ :: blocks) p')
      fun failure p' => (∃ error, failure = .error error ∧
          Storage.refusal S policy ⟨p.requests, width, words⟩ = some error) ∧
        p'.live = p.live ∧
        Declined policy refusals blocks (Storage.Admitted S policy) failure p' := by
  refine (books.allocate_ends width words).imp ?_ ?_
  · rintro address p' ⟨answer, -, books'⟩
    exact ⟨(Storage.refusal_of_granted answer).trans (if_pos (anywhere address)), answer, books'⟩
  · rintro failure p' ⟨error, rfl, answer, live, books'⟩
    exact ⟨⟨error, rfl, Storage.refusal_of_refused answer⟩, live, Attempt.error_tame _,
      books'.fewer, fun _ => books'⟩

theorem grow_ends_of_move {total capacity words : Nat} {move : Attempt (Holding S) Unit}
    (sound : h.Sound policy refusals others) (small : total ≤ Storage.maxBits S)
    (full : Storage.capacity h.storage < total) (enough : wordsFor w total ≤ capacity)
    [HasBits w]
    (asked : StorageSpec.blockWords S (wordsFor w total) (Storage.heldWords h.storage) = words)
    (moved : move.Ends h
      (fun _ => h.Moved policy refusals others ⟨h.provider.requests, w, words⟩ capacity)
      (h.Refused policy refusals others
        (Storage.refusal S policy ⟨h.provider.requests, w, words⟩) (Storage.Admitted S policy))) :
    move.Ends h
      (fun _ h' => h'.Sound policy refusals others ∧ h'.list = h.list ∧
        total ≤ Storage.capacity h'.storage ∧ Storage.shortage h total = none)
      (h.Refused policy refusals others (Storage.shortage h total)
        (Storage.Allows S policy total)) := by
  have short : Storage.shortage h total =
      Storage.refusal S policy ⟨h.provider.requests, w, words⟩ := by
    rw [Storage.shortage, if_neg (Nat.not_lt.mpr small), if_neg (Nat.not_le.mpr full), asked,
      sound.books.policy]
  refine moved.imp ?_ ?_
  · intro _ h' became
    refine ⟨became.sound, became.list, ?_, short.trans became.granted⟩
    rw [became.capacity]
    exact wordsFor_le_iff.mp enough
  · intro failure h' stopped
    exact ⟨by rw [short]; exact stopped.cause, stopped.storage, stopped.live, stopped.sound,
      fun allowed => stopped.counted allowed.2⟩

theorem settle_ends {put : S → S} {giveBack : S → Attempt Provider Unit}
    (sound : h.Sound policy refusals others) (settled : StorageSpec.Sound (put h.storage))
    (unowned : StorageSpec.block (put h.storage) = none)
    (list : (Container.span (put h.storage)).toList = (Container.span h.storage).toList)
    (released : ∀ rest p, Books policy refusals ((StorageSpec.block h.storage).toList ++ rest) p →
      (giveBack h.storage).Ends p (fun _ p' => Books policy refusals rest p') fun _ _ => False) :
    (do
      let old := (← get).storage
      modifyStorage put
      onProvider (giveBack old) : Attempt (Holding S) Unit).Ends h
      (fun _ h' => h'.Sound policy refusals others ∧ h'.list = h.list) fun _ _ => False := by
  refine .get_bind (modifyStorage_bind ?_)
  have books : Books policy refusals ((StorageSpec.block (put h.storage)).toList ++
      ((StorageSpec.block h.storage).toList ++ others)) h.provider := by
    rw [unowned]
    exact sound.books
  have replaced := replaced_ends settled books fun rest => released rest h.provider
  refine replaced.imp ?_ fun _ _ => False.elim
  rintro ⟨⟩ h' ⟨same, sound'⟩
  exact ⟨sound', by rw [Holding.list, same]; exact list⟩

theorem build_ends_of_move {p : Provider} {blocks : List Grant} {request : Request}
    {capacity : Nat} {cause : Option Error} {move : Attempt (Holding S) Unit} {s : S}
    (unowned : StorageSpec.block s = none)
    (moved : move.Ends ⟨s, p⟩ (fun _ => Moved policy refusals blocks ⟨s, p⟩ request capacity)
      (Refused policy refusals blocks ⟨s, p⟩ cause (Storage.Admitted S policy))) :
    (build s move).Ends p
      (fun out p' => StorageSpec.Sound out ∧
        (Container.span out).toList = (Container.span s).toList ∧
        Storage.capacity out = capacity * w ∧
        Books policy refusals ((StorageSpec.block out).toList ++ blocks) p')
      (Declined policy refusals blocks (Storage.Admitted S policy)) := by
  refine build_ends (moved.imp ?_ ?_)
  · intro _ h' became
    exact ⟨became.sound.storage, became.list, became.capacity, became.sound.books⟩
  · rintro failure ⟨s', p'⟩ stopped
    obtain rfl : s' = s := stopped.storage
    obtain ⟨error, rfl, -⟩ := stopped.cause
    have books (count : Nat) (sound : Sound policy count blocks ⟨s', p'⟩) :
        Books policy count blocks p' := by
      have listed := sound.books
      rwa [unowned] at listed
    exact ⟨Attempt.error_tame _, books _ stopped.sound,
      fun admitted => books _ (stopped.counted admitted)⟩

theorem unlessRefused_ends_of_move {request : Request} {capacity : Nat} {cause : Option Error}
    {certain : Prop} {move : Attempt (Holding S) Unit}
    (moved : move.Ends h (fun _ => h.Moved policy refusals others request capacity)
      (h.Refused policy refusals others cause certain)) :
    move.unlessRefused.Ends h (fun _ h' => h'.Sound policy refusals others ∧ h'.list = h.list)
      fun _ _ => False := by
  have kept : move.Ends h (fun _ h' => h'.Sound policy refusals others ∧ h'.list = h.list) _ :=
    moved.imp (fun _ _ became => ⟨became.sound, became.list⟩) fun _ _ => id
  refine (kept.unlessRefused ?_).imp (fun _ _ => id) ?_
  · intro error h' stopped
    exact ⟨stopped.sound, by rw [list, list, stopped.storage]⟩
  · rintro failure h' ⟨stopped, other⟩
    obtain ⟨error, refused, -⟩ := stopped.cause
    exact other error refused

omit [StorageSpec S w] in
theorem reserve_inside {total : Nat} (grow : S → Attempt (Holding S) Unit)
    (small : total ≤ Storage.maxBits S) (room : total ≤ Storage.capacity h.storage) :
    (do
      checkBits total (Storage.maxBits S)
      let s := (← get).storage
      if Storage.capacity s < total then grow s : Attempt (Holding S) Unit) h = .ok () h := by
  have checked : (checkBits total (Storage.maxBits S) : Attempt (Holding S) Unit) = pure () :=
    if_neg (Nat.not_lt.mpr small)
  have idle : (if Storage.capacity h.storage < total then grow h.storage else pure ()) = pure () :=
    if_neg (Nat.not_lt.mpr room)
  rw [checked, pure_bind]
  show (if Storage.capacity h.storage < total then grow h.storage else pure ()) h = _
  rw [idle]
  rfl

omit [StorageSpec S w] in
theorem reserve_full {total : Nat} {done : Unit → Holding S → Prop}
    {failed : Failure → Holding S → Prop} (grow : S → Attempt (Holding S) Unit)
    (small : total ≤ Storage.maxBits S) (full : Storage.capacity h.storage < total)
    (grown : (grow h.storage).Ends h done failed) :
    (do
      checkBits total (Storage.maxBits S)
      let s := (← get).storage
      if Storage.capacity s < total then grow s : Attempt (Holding S) Unit).Ends h done failed := by
  have checked : (checkBits total (Storage.maxBits S) : Attempt (Holding S) Unit) = pure () :=
    if_neg (Nat.not_lt.mpr small)
  rw [checked, pure_bind]
  refine .get_bind ?_
  rw [if_pos full]
  exact grown

omit [StorageSpec S w] in
theorem reserve_reaches {total : Nat} {reached : Holding S → Prop}
    (grow : S → Attempt (Holding S) Unit) (idle : reached h)
    (grown : total ≤ Storage.maxBits S → Storage.capacity h.storage < total →
      (grow h.storage).Ends h (fun _ => reached) fun _ _ => True) :
    (do
      checkBits total (Storage.maxBits S)
      let s := (← get).storage
      if Storage.capacity s < total then grow s : Attempt (Holding S) Unit).Ends h
      (fun _ => reached) fun _ _ => True := by
  have checked : (checkBits total (Storage.maxBits S) : Attempt (Holding S) Unit).Ends h
      (fun _ h' => h' = h ∧ total ≤ Storage.maxBits S) fun _ _ => True := by
    rw [checkBits]
    split
    case isTrue => exact trivial
    case isFalse inside => exact ⟨rfl, Nat.le_of_not_lt inside⟩
  refine checked.bind ?_
  rintro ⟨⟩ h' ⟨rfl, small⟩
  refine .get_bind ?_
  by_cases full : Storage.capacity h'.storage < total
  · rw [if_pos full]
    exact grown small full
  · rw [if_neg full]
    exact idle

theorem reserve_ends_of_grow {total : Nat} (grow : S → Attempt (Holding S) Unit)
    (sound : h.Sound policy refusals others)
    (grown : total ≤ Storage.maxBits S → Storage.capacity h.storage < total →
      (grow h.storage).Ends h
        (fun _ h' => h'.Sound policy refusals others ∧ h'.list = h.list ∧
          total ≤ Storage.capacity h'.storage ∧ Storage.shortage h total = none)
        (h.Refused policy refusals others (Storage.shortage h total)
          (Storage.Allows S policy total))) :
    (do
      checkBits total (Storage.maxBits S)
      let s := (← get).storage
      if Storage.capacity s < total then grow s : Attempt (Holding S) Unit).Ends h
      (fun _ h' => h'.Sound policy refusals others ∧ h'.list = h.list ∧
        total ≤ Storage.capacity h'.storage ∧ total ≤ Storage.maxBits S ∧
        Storage.shortage h total = none)
      (h.Refused policy refusals others (Storage.shortage h total)
        (Storage.Allows S policy total)) := by
  -- Of the three causes a shortage can have, the size is looked at first.
  have short : Storage.shortage h total = if Storage.maxBits S < total then
      some (.capacityExceeded total (Storage.maxBits S)) else Storage.shortage h total := by
    rw [Storage.shortage]
    split <;> rfl
  have checked : (checkBits total (Storage.maxBits S) : Attempt (Holding S) Unit).Ends h
      (fun _ h' => h' = h ∧ total ≤ Storage.maxBits S)
      (h.Refused policy refusals others (Storage.shortage h total)
        (Storage.Allows S policy total)) := by
    rw [checkBits]
    by_cases excess : Storage.maxBits S < total
    · rw [if_pos excess]
      rw [if_pos excess] at short
      exact ⟨⟨_, rfl, short⟩, rfl, rfl, sound,
        fun allowed => absurd excess (Nat.not_lt.mpr allowed.1)⟩
    · rw [if_neg excess]
      exact ⟨rfl, Nat.le_of_not_lt excess⟩
  refine checked.bind ?_
  rintro ⟨⟩ h' ⟨rfl, small⟩
  refine .get_bind ?_
  by_cases full : Storage.capacity h'.storage < total
  · rw [if_pos full]
    refine (grown small full).imp ?_ fun _ _ => id
    rintro ⟨⟩ h₁ ⟨sound₁, list, room, free⟩
    exact ⟨sound₁, list, room, small, free⟩
  · rw [if_neg full]
    refine ⟨sound, rfl, Nat.le_of_not_lt full, small, ?_⟩
    rw [Storage.shortage, if_neg (Nat.not_lt.mpr small), if_pos (Nat.le_of_not_lt full)]

end Holding

/-- The laws of a storage. -/
class LawfulStorage (S : Type) (w : outParam Nat) [HasBits w] [Storage S w] [StorageSpec S w] :
    Prop where
  maxBits_lt : Storage.maxBits S < maxSize
  len_span (s : S) : (Container.span s).len = Storage.len s
  room {s : S} : StorageSpec.Sound s →
    (Container.span s).start + Storage.capacity s ≤ (Container.span s).words.size * w
  len_le_capacity {s : S} : StorageSpec.Sound s → Storage.len s ≤ Storage.capacity s
  len_le_maxBits {s : S} : StorageSpec.Sound s → Storage.len s ≤ Storage.maxBits S
  /-- The bits from the length up to the capacity are clear. -/
  spare {s : S} : StorageSpec.Sound s → ∀ k, Storage.len s ≤ k → k < Storage.capacity s →
    (Container.span s).bit k = false
  onHeap {s : S} : StorageSpec.Sound s → Storage.onHeap s = (StorageSpec.block s).isSome
  block_words {s : S} {grant : Grant} : StorageSpec.Sound s → StorageSpec.block s = some grant →
    grant.words = Storage.capacity s / w + StorageSpec.header S
  words_size {s : S} : StorageSpec.Sound s →
    (Storage.words s).size = wordsFor w (Storage.len s)
  words_bit {s : S} : StorageSpec.Sound s → ∀ k, bitIn (Storage.words s) k =
    (decide (k < Storage.len s) && (Container.span s).bit k)
  putWords {s : S} {words : Array (BitVec w)} : StorageSpec.Sound s →
    Span.Within (Container.span s) { Container.span s with words := words } →
    Storage.Rewritten s (Container.putWords s words) words
  setLen {s : S} {bits : Nat} : StorageSpec.Sound s → bits ≤ Storage.capacity s →
    bits ≤ Storage.maxBits S →
    (∀ k, bits ≤ k → k < Storage.len s → (Container.span s).bit k = false) →
    Storage.Relengthened s (Storage.setLen bits s) bits
  empty_sound : StorageSpec.Sound (Storage.empty : S)
  empty_len : Storage.len (Storage.empty : S) = 0
  empty_block : StorageSpec.block (Storage.empty : S) = none
  reserve_ends {policy : Policy} {refusals : Nat} {others : List Grant} {h : Holding S} :
    h.Sound policy refusals others → ∀ total, (Storage.reserve total).Ends h
      (fun _ h' => h'.Sound policy refusals others ∧ h'.list = h.list ∧
        total ≤ Storage.capacity h'.storage ∧ total ≤ Storage.maxBits S ∧
        Storage.shortage h total = none)
      (h.Refused policy refusals others (Storage.shortage h total) (Storage.Allows S policy total))
  reserve_inside {h : Holding S} {total : Nat} : total ≤ Storage.maxBits S →
    total ≤ Storage.capacity h.storage → Storage.reserve total h = .ok () h
  shrinkToFit_ends {policy : Policy} {refusals : Nat} {others : List Grant} {h : Holding S} :
    h.Sound policy refusals others → Storage.shrinkToFit.Ends h
      (fun _ h' => h'.Sound policy refusals others ∧ h'.list = h.list) fun _ _ => False
  duplicate_ends {policy : Policy} {refusals : Nat} {blocks : List Grant} {s : S}
    {p : Provider} : StorageSpec.Sound s → Books policy refusals blocks p →
    (Storage.duplicate s).Ends p
      (fun s' p' => StorageSpec.Sound s' ∧
        (Container.span s').toList = (Container.span s).toList ∧
        Books policy refusals ((StorageSpec.block s').toList ++ blocks) p')
      (Declined policy refusals blocks (Storage.Admitted S policy))
  release_ends {policy : Policy} {refusals : Nat} {others : List Grant} {s : S} {p : Provider} :
    StorageSpec.Sound s →
    Books policy refusals ((StorageSpec.block s).toList ++ others) p →
    (Storage.release s).Ends p (fun _ p' => Books policy refusals others p') fun _ _ => False

theorem Storage.Rewritten.onHeap {S : Type} {w : Nat} [HasBits w] [Storage S w] [StorageSpec S w]
    [LawfulStorage S w] {s s' : S} {words : Array (BitVec w)} (sound : StorageSpec.Sound s)
    (rewritten : Storage.Rewritten s s' words) : Storage.onHeap s' = Storage.onHeap s := by
  rw [LawfulStorage.onHeap sound, LawfulStorage.onHeap rewritten.sound, rewritten.block]

end PackedBits
