import PackedBits.Proofs.Storage.Growth

/-! What a storage asks of its provider when it grows. A storage holds some bits without a block, none
or those that fit its control words. When more are reserved it asks once, for the least block or for
twice the block there is. -/
namespace PackedBits

/-- One request more than before, and that was granted. -/
structure Provider.Served (p p' : Provider) : Prop where
  requests : p'.requests = p.requests + 1
  grants : p'.grants = p.grants + 1

theorem Provider.allocate_served (width words : Nat) (p : Provider) :
    (Provider.allocate width words).Ends p (fun _ p' => p.Served p')
      fun _ p' => p'.requests = p.requests + 1 := by
  refine .get_bind ?_
  split
  · exact ⟨rfl, rfl⟩
  · exact rfl

theorem Tagged.allocate_served (words : Nat) (p : Provider) :
    (Tagged.allocate words).Ends p (fun _ p' => p.Served p')
      fun _ p' => p'.requests = p.requests + 1 := by
  refine (Provider.allocate_served 64 words p).bind fun address p₁ served => ?_
  split
  · have released := Provider.release_leaves address words p₁
    refine (released.imp (fun _ _ => id) fun _ p₂ counts => ?_).bind fun _ p₂ counts => ?_
    · exact (congrArg Prod.fst counts).trans served.requests
    · exact (congrArg Prod.fst counts).trans served.requests
  · exact served

namespace Holding
variable {S : Type} {h : Holding S}

theorem move_served {allocate : Attempt Provider Nat} {put : Nat → S → S}
    {giveBack : S → Attempt Provider Unit}
    (allocated : allocate.Ends h.provider (fun _ p' => h.provider.Served p')
      fun _ p' => p'.requests = h.provider.requests + 1)
    (released : ∀ s, (giveBack s).Leaves fun p => (p.requests, p.grants)) :
    (do
      let address ← onProvider allocate
      let old := (← get).storage
      modifyStorage (put address)
      onProvider (giveBack old) : Attempt (Holding S) Unit).Ends h
      (fun _ h' => h.provider.Served h'.provider)
      fun _ h' => h'.provider.requests = h.provider.requests + 1 := by
  refine ((onProvider_ends allocated).imp (fun _ _ => id) fun _ _ => And.right).bind ?_
  rintro address h₁ ⟨-, served⟩
  refine .get_bind (modifyStorage_bind ?_)
  have ends : (onProvider (giveBack h₁.storage)).Ends
      ({ h₁ with storage := put address h₁.storage } : Holding S) _ _ :=
    onProvider_ends (released h₁.storage h₁.provider)
  refine ends.imp ?_ ?_
  · rintro ⟨⟩ h' ⟨-, counts⟩
    obtain ⟨requests, grants⟩ := Prod.mk.inj counts
    exact ⟨requests.trans served.requests, grants.trans served.grants⟩
  · rintro failure h' ⟨-, counts⟩
    exact (congrArg Prod.fst counts).trans served.requests

end Holding

theorem Plain.move_served {w : Nat} (capacity : Nat) (h : Holding (Plain w)) :
    (move capacity).Ends h (fun _ h' => h.provider.Served h'.provider)
      fun _ h' => h'.provider.requests = h.provider.requests + 1 := by
  rw [move_eq]
  refine Holding.move_served (Provider.allocate_served ..) fun s => ?_
  rw [release]
  split
  · exact Provider.release_leaves _ _
  · exact .pure ()

theorem SmallBuffer.moveToHeap_served (capacity : Nat) (h : Holding SmallBuffer) :
    (moveToHeap capacity).Ends h (fun _ h' => h.provider.Served h'.provider)
      fun _ h' => h'.provider.requests = h.provider.requests + 1 :=
  Holding.move_served (Provider.allocate_served ..) release_leaves

theorem Tagged.moveToHeap_served (capacity : Nat) (h : Holding Tagged) :
    (moveToHeap capacity).Ends h (fun _ h' => h.provider.Served h'.provider)
      fun _ h' => h'.provider.requests = h.provider.requests + 1 :=
  Holding.move_served (allocate_served ..) release_leaves

section
variable (S : Type) {w : Nat} [HasBits w] [Storage S w] [StorageSpec S w]

/-- A storage that holds up to `room` bits without a block, and on a block whole words. -/
structure Storage.HasRoom (room : Nat) : Prop where
  empty : Storage.onHeap (Storage.empty : S) = false
  blockless {s : S} : StorageSpec.Sound s → Storage.onHeap s = false → Storage.capacity s = room
  whole {s : S} : StorageSpec.Sound s → Storage.onHeap s = true →
    Storage.capacity s = Storage.heldWords s * w

/-- A storage whose first block is the least one and whose next ones are twice as large each. -/
structure Storage.Doubles (room : Nat) : Prop extends Storage.HasRoom S room where
  room_lt : room < minBlockWords * w
  grow {policy : Policy} {refusals : Nat} {others : List Grant} {h : Holding S} {total : Nat} :
    h.Sound policy refusals others → total ≤ Storage.maxBits S →
    Storage.capacity h.storage < total → ∀ words,
    StorageSpec.blockWords S (wordsFor w total) (Storage.heldWords h.storage) =
      words + StorageSpec.header S →
    (Storage.reserve total).Ends h (fun _ h' => Storage.capacity h'.storage = words * w ∧
      h.provider.Served h'.provider) fun _ _ => True
  first : StorageSpec.blockWords S (wordsFor w (room + 1)) 0 = minBlockWords + StorageSpec.header S
  double (j : Nat) : minBlockWords * 2 ^ j * w < Storage.maxBits S →
    StorageSpec.blockWords S (wordsFor w (minBlockWords * 2 ^ j * w + 1)) (minBlockWords * 2 ^ j) =
      minBlockWords * 2 ^ (j + 1) + StorageSpec.header S

end

section
variable {w room : Nat} [HasBits w]

theorem grownCapacity_first (small : room < minBlockWords * w) :
    grownCapacity (wordsFor w (room + 1)) 0 = minBlockWords := by
  have needed : wordsFor w (room + 1) ≤ minBlockWords := wordsFor_le_iff.mpr small
  rw [grownCapacity, Nat.mul_zero, Nat.min_eq_left (Nat.zero_le _), Nat.max_eq_left (Nat.zero_le _),
    Nat.max_eq_right needed]

theorem grownCapacity_double {words : Nat} (least : minBlockWords ≤ words)
    (small : words * w < maxSigned) :
    grownCapacity (wordsFor w (words * w + 1)) words = 2 * words := by
  have needed : wordsFor w (words * w + 1) ≤ words + 1 := by
    refine wordsFor_le_iff.mpr ?_
    have positive : 0 < w := width_pos
    rw [Nat.add_mul]
    omega
  have some : 0 < minBlockWords := by decide
  have signed : words * w + 1 ≤ maxSigned := small
  rw [grownCapacity_eq signed (Nat.lt_succ_self _)]
  omega

theorem doubled_words (j : Nat) : minBlockWords ≤ minBlockWords * 2 ^ j ∧
    2 * (minBlockWords * 2 ^ j) = minBlockWords * 2 ^ (j + 1) := by
  refine ⟨Nat.le_mul_of_pos_right _ (Nat.two_pow_pos j), ?_⟩
  rw [Nat.pow_succ, Nat.mul_comm (2 ^ j), Nat.mul_left_comm]

end

namespace Holding
variable {S : Type} {w : Nat} [Storage S w] [StorageSpec S w] {policy : Policy} {refusals : Nat}
  {others : List Grant} {h : Holding S}

theorem grown_of_move {request : Request} {capacity : Nat} {cause : Option Error} {certain : Prop}
    {move : Attempt (Holding S) Unit} {failed : Failure → Holding S → Prop}
    (moved : move.Ends h (fun _ => h.Moved policy refusals others request capacity)
      (h.Refused policy refusals others cause certain))
    (served : move.Ends h (fun _ h' => h.provider.Served h'.provider) failed) :
    move.Ends h (fun _ h' => Storage.capacity h'.storage = capacity * w ∧
      h.provider.Served h'.provider) fun _ _ => True :=
  (moved.and served).imp (fun _ _ both => ⟨both.1.capacity, both.2⟩) fun _ _ _ => trivial

end Holding

theorem Plain.doubles (w : Nat) [HasBits w] : Storage.Doubles (Plain w) 0 where
  empty := rfl
  blockless {s} _ inline := by
    have none : s.capacity = 0 := bne_eq_false_iff_eq.mp inline
    show s.capacity * w = 0
    rw [none, Nat.zero_mul]
  whole {s} _ _ := by
    rw [heldWords_eq]
    rfl
  room_lt := Nat.mul_pos (by decide) width_pos
  grow {_ _ _ h total} sound small full words asked := by
    rw [heldWords_eq] at asked
    obtain rfl : grownCapacity (wordsFor w total) h.storage.capacity = words := asked
    exact Holding.reserve_full (fun s => move (grownCapacity (wordsFor w total) s.capacity)) small
      full (Holding.grown_of_move (grow_ends sound full _) (move_served ..))
  first := grownCapacity_first (Nat.mul_pos (by decide) width_pos)
  double j small := (grownCapacity_double (doubled_words j).1 small).trans (doubled_words j).2

theorem SmallBuffer.doubles : Storage.Doubles SmallBuffer inlineBits where
  empty := by decide
  blockless _ := InlineStorage.capacity_inline
  whole {s} sound heap := by
    have mode : s.onHeap = true := heap
    rw [heldWords_eq sound, if_pos mode]
    exact if_pos mode
  room_lt := by decide
  grow {_ _ _ h total} sound small full words asked := by
    rw [heldWords_eq sound.storage] at asked
    obtain rfl := Nat.add_right_cancel asked
    exact Holding.reserve_full (fun s => moveToHeap (grownCapacity (wordsFor 64 total)
      (if s.onHeap then s.heapCapacity else 0))) small full
      (Holding.grown_of_move (grow_ends sound full _) (moveToHeap_served ..))
  first := congrArg (· + 1) (grownCapacity_first (by decide))
  double j small := by
    have signed : minBlockWords * 2 ^ j * 64 < maxSigned :=
      Nat.lt_of_lt_of_le small (by decide)
    exact congrArg (· + 1)
      ((grownCapacity_double (doubled_words j).1 signed).trans (doubled_words j).2)

theorem Tagged.doubles : Storage.Doubles Tagged inlineBits where
  empty := by decide
  blockless _ := InlineStorage.capacity_inline
  whole {s} sound heap := by
    have mode : s.onHeap = true := heap
    rw [heldWords_eq sound, if_pos mode]
    exact if_pos mode
  room_lt := by decide
  grow {_ _ _ h total} sound small full words asked := by
    rw [heldWords_eq sound.storage] at asked
    obtain rfl : min (grownCapacity (wordsFor 64 total)
      (if h.storage.onHeap then h.storage.heapCapacity else 0)) (wordsFor 64 maxBits) = words := asked
    exact Holding.reserve_full (fun s => moveToHeap (min (grownCapacity (wordsFor 64 total)
      (if s.onHeap then s.heapCapacity else 0)) (wordsFor 64 maxBits))) small full
      (Holding.grown_of_move (grow_ends sound small full _) (moveToHeap_served ..))
  first := by decide
  double j small := by
    have limit : Storage.maxBits Tagged < minBlockWords * 2 ^ 21 * 64 := by decide
    have below : j < 21 := by
      refine Nat.lt_of_not_le fun many => ?_
      have large := Nat.mul_le_mul_right 64 (Nat.mul_le_mul_left minBlockWords
        (Nat.pow_le_pow_right Nat.two_pos many))
      omega
    have signed : minBlockWords * 2 ^ j * 64 < maxSigned := Nat.lt_of_lt_of_le small (by decide)
    -- Doubling ends below the greatest length, so it does not meet the limit on words.
    have used : minBlockWords * 2 ^ (j + 1) ≤ wordsFor 64 maxBits :=
      Nat.le_trans (Nat.mul_le_mul_left _ (Nat.pow_le_pow_right Nat.two_pos below)) (by decide)
    have grown := (grownCapacity_double (doubled_words j).1 signed).trans (doubled_words j).2
    exact (congrArg (min · (wordsFor 64 maxBits)) grown).trans (Nat.min_eq_left used)

namespace Backend

def room : Backend → Nat
  | plain _ _ => 0
  | smallBuffer => inlineBits
  | tagged => inlineBits

theorem doubles (b : Backend) : Storage.Doubles b.Carrier b.room := by
  cases b with
  | plain width positive =>
      have : HasBits width := ⟨Nat.ne_of_gt positive⟩
      exact Plain.doubles width
  | smallBuffer => exact SmallBuffer.doubles
  | tagged => exact Tagged.doubles

end Backend

end PackedBits
