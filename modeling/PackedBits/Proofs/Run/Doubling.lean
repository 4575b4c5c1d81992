import Mathlib.Data.Nat.Find
import Mathlib.Order.Bounds.Basic
import PackedBits.Proofs.Run.Extension
import PackedBits.Proofs.Storage.Requests

/-! Bits pushed one after another onto a new vector. The first that does not fit without a block
brings the least one there is, and every later one that does not fit brings a block of twice the
size. So the blocks asked for are as many as it takes to double the least one up to the bits that
there are, whatever the storage: the limit of the tagged one is itself reached by doubling. -/
namespace PackedBits

def doublings (w n : Nat) : Set Nat := {j | n ≤ minBlockWords * 2 ^ j * w}

section
variable {w n j : Nat}

theorem doublings_anti {m : Nat} (fewer : m ≤ n) : doublings w n ⊆ doublings w m :=
  fun _ enough => Nat.le_trans fewer enough

theorem least_doubling_of_few (few : n ≤ minBlockWords * w) : IsLeast (doublings w n) 0 := by
  refine ⟨?_, fun _ _ => Nat.zero_le _⟩
  show n ≤ minBlockWords * 2 ^ 0 * w
  rwa [Nat.pow_zero, Nat.mul_one]

theorem least_doubling_of_room (least : IsLeast (doublings w n) j)
    (room : n + 1 ≤ minBlockWords * 2 ^ j * w) : IsLeast (doublings w (n + 1)) j :=
  ⟨room, fun _ enough => least.2 (doublings_anti (Nat.le_succ n) enough)⟩

variable [HasBits w]

theorem least_doubling_of_full (full : n = minBlockWords * 2 ^ j * w) :
    IsLeast (doublings w (n + 1)) (j + 1) := by
  constructor
  · show n + 1 ≤ minBlockWords * 2 ^ (j + 1) * w
    have some : 0 < minBlockWords * 2 ^ j * w :=
      Nat.mul_pos (Nat.mul_pos (by decide) (Nat.two_pow_pos j)) width_pos
    rw [← (doubled_words j).2, Nat.mul_assoc, ← full]
    omega
  · intro i enough
    refine Nat.lt_of_not_le fun fewer => ?_
    have smaller := Nat.mul_le_mul_right w (Nat.mul_le_mul_left minBlockWords
      (Nat.pow_le_pow_right Nat.two_pos fewer))
    rw [← full] at smaller
    exact Nat.not_succ_le_self n (Nat.le_trans enough smaller)

theorem exists_least_doubling (n : Nat) : ∃ j, IsLeast (doublings w n) j := by
  have enough : ∃ j, n ≤ minBlockWords * 2 ^ j * w := by
    refine ⟨n, Nat.le_trans (Nat.le_of_lt Nat.lt_two_pow_self) ?_⟩
    exact Nat.le_trans (Nat.le_mul_of_pos_left _ (by decide)) (Nat.le_mul_of_pos_right _ width_pos)
  exact ⟨Nat.find enough, Nat.find_spec enough, fun _ other => Nat.find_min' enough other⟩

end

section
variable {S : Type} {w room : Nat} [HasBits w] [Storage S w] [StorageSpec S w]

/-- The request for a block that has been doubled `j` times, each time by a request of its own. -/
def Storage.doublingRequest (h : Holding S) (j : Nat) : Request :=
  ⟨h.provider.requests + j, w, minBlockWords * 2 ^ j + StorageSpec.header S⟩

/-- The least block is granted, and every block up to that of `j` doublings when its turn comes. -/
def Storage.Grants (h : Holding S) (j : Nat) : Prop :=
  ∀ i ≤ j, Storage.refusal S h.provider.policy (Storage.doublingRequest h i) = none

/-- A vector that had no block has the one of `j` doublings, by that many requests and a first. -/
structure Holding.Doubled (h : Holding S) (j : Nat) (h' : Holding S) : Prop where
  onHeap : Storage.onHeap h'.storage = true
  capacity : Storage.capacity h'.storage = minBlockWords * 2 ^ j * w
  requests : h'.provider.requests = h.provider.requests + (j + 1)
  grants : h'.provider.grants = h.provider.grants + (j + 1)

/-- What `n` bits have asked for: no block, or one of the fewest doublings. -/
def Holding.Filled (room : Nat) (h : Holding S) (n : Nat) (h' : Holding S) : Prop :=
  if n ≤ room then h.SameRoom h' else ∃ j, IsLeast (doublings w n) j ∧ h.Doubled j h'

variable [LawfulStorage S w] {policy : Policy} {refusals : Nat} {others : List Grant}
  {h h' : Holding S}

omit [HasBits w] [LawfulStorage S w] in
theorem Storage.Doubles.onHeap_of_capacity (doubles : Storage.Doubles S room) {s : S}
    (sound : StorageSpec.Sound s) {words : Nat} (least : minBlockWords ≤ words)
    (capacity : Storage.capacity s = words * w) : Storage.onHeap s = true := by
  refine eq_true_of_ne_false fun inline => ?_
  have small := doubles.room_lt
  have large := Nat.mul_le_mul_right w least
  rw [doubles.blockless sound inline] at capacity
  omega

theorem Holding.Doubled.releases {j : Nat} (doubled : h.Doubled j h')
    (sound : h.Sound policy refusals others) (sound' : h'.Sound policy refusals others)
    (inline : Storage.onHeap h.storage = false) :
    h'.provider.releases = h.provider.releases + j := by
  have none : StorageSpec.block h.storage = none := by
    rw [LawfulStorage.onHeap sound.storage] at inline
    exact Option.not_isSome_iff_eq_none.mp (Bool.eq_false_iff.mp inline)
  obtain ⟨grant, owned⟩ : ∃ grant, StorageSpec.block h'.storage = some grant := by
    have heap := doubled.onHeap
    rw [LawfulStorage.onHeap sound'.storage] at heap
    exact Option.isSome_iff_exists.mp heap
  have before := sound.books.live.length_eq
  have after := sound'.books.live.length_eq
  rw [none] at before
  rw [owned] at after
  simp only [Option.toList_none, Option.toList_some, List.length_append, List.length_nil,
    List.length_singleton] at before after
  have balance := sound.books.balance
  have balance' := sound'.books.balance
  have grants := doubled.grants
  omega

namespace Holding.Filled
variable {start : Holding S}

omit [HasBits w] [LawfulStorage S w] in
theorem kept (filled : start.Filled room (BitVector.len h) h)
    (doubles : Storage.Doubles S room) (inline : Storage.onHeap start.storage = false)
    (sound : StorageSpec.Sound h.storage)
    (space : BitVector.len h + 1 ≤ Storage.capacity h.storage) (same : h.SameRoom h') :
    start.Filled room (BitVector.len h + 1) h' := by
  rw [Filled] at filled ⊢
  by_cases few : BitVector.len h ≤ room
  · rw [if_pos few] at filled
    rw [doubles.blockless sound (filled.onHeap.trans inline)] at space
    rw [if_pos space]
    exact filled.trans same
  · rw [if_neg few] at filled
    obtain ⟨j, least, doubled⟩ := filled
    rw [doubled.capacity] at space
    rw [if_neg fun more => few (Nat.le_of_succ_le more)]
    refine ⟨j, least_doubling_of_room least space, same.onHeap.trans doubled.onHeap,
      same.capacity.trans doubled.capacity, ?_, ?_⟩
    · rw [same.provider, doubled.requests]
    · rw [same.provider, doubled.grants]

theorem next (filled : start.Filled room (BitVector.len h) h)
    (doubles : Storage.Doubles S room) (inline : Storage.onHeap start.storage = false)
    (sound : StorageSpec.Sound h.storage)
    (full : Storage.capacity h.storage < BitVector.len h + 1)
    (small : BitVector.len h + 1 ≤ Storage.maxBits S) :
    room < BitVector.len h + 1 ∧ ∃ j,
      IsLeast (doublings w (BitVector.len h + 1)) j ∧
      StorageSpec.blockWords S (wordsFor w (BitVector.len h + 1))
        (Storage.heldWords h.storage) = minBlockWords * 2 ^ j + StorageSpec.header S ∧
      h.provider.requests = start.provider.requests + j ∧
      h.provider.grants = start.provider.grants + j := by
  have fits : BitVector.len h ≤ Storage.capacity h.storage := LawfulStorage.len_le_capacity sound
  rw [Filled] at filled
  by_cases few : BitVector.len h ≤ room
  · -- The first bit that does not fit without a block.
    rw [if_pos few] at filled
    have none : Storage.onHeap h.storage = false := filled.onHeap.trans inline
    have capacity := doubles.blockless sound none
    obtain rfl : room = BitVector.len h := by omega
    have asked := doubles.first
    have held : Storage.heldWords h.storage = 0 := by
      rw [Storage.heldWords, none, if_neg Bool.false_ne_true]
    rw [← held] at asked
    exact ⟨Nat.lt_succ_self _, 0, least_doubling_of_few doubles.room_lt, asked,
      congrArg Provider.requests filled.provider, congrArg Provider.grants filled.provider⟩
  · rw [if_neg few] at filled
    obtain ⟨j, -, doubled⟩ := filled
    have capacity := doubled.capacity
    have exact : BitVector.len h = minBlockWords * 2 ^ j * w := by omega
    have held : Storage.heldWords h.storage = minBlockWords * 2 ^ j := by
      rw [Storage.heldWords, if_pos doubled.onHeap, capacity, Nat.mul_div_cancel _ width_pos]
    have asked := doubles.double j (by rw [← exact]; exact small)
    rw [← exact, ← held] at asked
    exact ⟨by omega, j + 1, least_doubling_of_full exact, asked, doubled.requests, doubled.grants⟩

end Holding.Filled

namespace BitVector

theorem push_fits (sound : h.Sound policy refusals others)
    (room : len h + 1 ≤ Storage.capacity h.storage) (small : len h + 1 ≤ Storage.maxBits S)
    (value : Bool) :
    (push value).Ends h (fun _ h' => h'.Sound policy refusals others ∧
      h'.list = h.list ++ [value] ∧ h.SameRoom h') fun _ _ => False := by
  refine (push_ends sound value).imp ?_ ?_
  · rintro ⟨⟩ h' ⟨sound', list, reserved⟩
    exact ⟨sound', list, (Holding.reserved_inside_iff small room).mp reserved⟩
  · rintro failure h' ⟨-, -, error, short⟩
    rw [Storage.shortage_eq_none small room] at short
    cases short

theorem push_grows (doubles : Storage.Doubles S room) (sound : h.Sound policy refusals others)
    (full : Storage.capacity h.storage < len h + 1) (small : len h + 1 ≤ Storage.maxBits S)
    {words : Nat} (asked : StorageSpec.blockWords S (wordsFor w (len h + 1))
      (Storage.heldWords h.storage) = words + StorageSpec.header S)
    (granted : Storage.refusal S policy
      ⟨h.provider.requests, w, words + StorageSpec.header S⟩ = none) (value : Bool) :
    (push value).Ends h (fun _ h' => h'.Sound policy refusals others ∧
      h'.list = h.list ++ [value] ∧ Storage.capacity h'.storage = words * w ∧
      h.provider.Served h'.provider) fun _ _ => False := by
  refine (push_ends sound value).imp ?_ ?_
  · rintro ⟨⟩ h' ⟨sound', list, h₁, ran, same⟩
    obtain ⟨capacity, served⟩ := (doubles.grow sound small full words asked).at_ok ran
    rw [same.capacity, same.provider]
    exact ⟨sound', list, capacity, served⟩
  · rintro failure h' ⟨-, -, error, short⟩
    rw [Storage.shortage, if_neg (Nat.not_lt.mpr small), if_neg (Nat.not_le.mpr full), asked,
      sound.books.policy, granted] at short
    cases short

theorem push_fills (doubles : Storage.Doubles S room) {start : Holding S}
    (inline : Storage.onHeap start.storage = false) (sound : h.Sound policy refusals others)
    (filled : start.Filled room (len h) h) (small : len h + 1 ≤ Storage.maxBits S)
    (granted : ∀ j, room < len h + 1 → IsLeast (doublings w (len h + 1)) j →
      Storage.refusal S policy (Storage.doublingRequest start j) = none) (value : Bool) :
    (push value).Ends h (fun _ h' => h'.Sound policy refusals others ∧
      h'.list = h.list ++ [value] ∧ start.Filled room (len h + 1) h') fun _ _ => False := by
  rcases Nat.lt_or_ge (Storage.capacity h.storage) (len h + 1) with full | space
  · obtain ⟨more, j, least, asked, requests, grants⟩ :=
      filled.next doubles inline sound.storage full small
    have answer := granted j more least
    rw [Storage.doublingRequest, ← requests] at answer
    refine (push_grows doubles sound full small asked answer value).imp ?_ fun _ _ => id
    rintro ⟨⟩ h' ⟨sound', list, grown, served⟩
    refine ⟨sound', list, ?_⟩
    rw [Holding.Filled, if_neg (Nat.not_le.mpr more)]
    refine ⟨j, least, ?_, grown, ?_, ?_⟩
    · exact doubles.onHeap_of_capacity sound'.storage (doubled_words j).1 grown
    · rw [served.requests, requests, Nat.add_assoc]
    · rw [served.grants, grants, Nat.add_assoc]
  · refine (push_fits sound space small value).imp ?_ fun _ _ => id
    rintro ⟨⟩ h' ⟨sound', list, same⟩
    exact ⟨sound', list, filled.kept doubles inline sound.storage space same⟩

theorem pushes_fill (doubles : Storage.Doubles S room) (sound : h.Sound policy refusals others)
    (inline : Storage.onHeap h.storage = false) (clear : h.list = []) {bits : List Bool}
    (small : bits.length ≤ Storage.maxBits S)
    (granted : ∀ n j, room < n → n ≤ bits.length → IsLeast (doublings w n) j →
      Storage.refusal S policy (Storage.doublingRequest h j) = none) :
    (bits.forM push : Attempt (Holding S) PUnit).Ends h
      (fun _ h' => h'.Sound policy refusals others ∧ h'.list = bits ∧
        h.Filled room bits.length h') fun _ _ => False := by
  let left (rest : List Bool) (h' : Holding S) : Prop :=
    h'.Sound policy refusals others ∧ h'.list ++ rest = bits ∧ h.Filled room (len h') h'
  have begun : left bits h := by
    have none : len h = 0 := by
      rw [← length_list, clear]
      rfl
    refine ⟨sound, by rw [clear]; rfl, ?_⟩
    rw [Holding.Filled, none, if_pos (Nat.zero_le room)]
    exact .refl h
  refine (Attempt.Ends.forM left begun ?_).imp ?_ fun _ _ => id
  · rintro bit rest h₁ ⟨sound₁, split, filled⟩
    have within : len h₁ + 1 ≤ bits.length := by
      rw [← split, ← length_list, List.length_append, List.length_cons]
      omega
    refine (push_fills doubles inline sound₁ filled (Nat.le_trans within small)
      (fun j more least => granted _ j more within least) bit).imp ?_ fun _ _ => id
    rintro ⟨⟩ h₂ ⟨sound₂, list, filled₂⟩
    have grown : len h₂ = len h₁ + 1 := by
      rw [← length_list, list, List.length_append, length_list, List.length_singleton]
    refine ⟨sound₂, ?_, ?_⟩
    · rw [list, List.append_assoc, List.singleton_append]
      exact split
    · rw [grown]
      exact filled₂
  · rintro ⟨⟩ h' ⟨sound', split, filled⟩
    have list : h'.list = bits := (List.append_nil _).symm.trans split
    rw [← length_list, list] at filled
    exact ⟨sound', list, filled⟩

end BitVector

end

/-- On any storage, bits pushed one by one onto a new vector, as many as it may have, ask for nothing
while they fit without a block. More of them leave a capacity of the least block, doubled as often as
it takes to have room for them and no more often. If the provider grants that block and those before
it, all bits are pushed, with one request and one grant for each, and all blocks but the last have
been given back. -/
theorem pushing_doubles_the_capacity (b : Backend) {policy : Policy} (lawful : policy.Lawful)
    (actions : List (Action b.width)) (bits : List Bool)
    (small : bits.length ≤ Storage.maxBits b.Carrier) :
    let pool : Pool b.Carrier := (Action.run actions (Action.start policy)).2
    let h : Holding b.Carrier := ⟨Storage.empty, pool.provider⟩
    (bits.length ≤ b.room → ∃ h', bits.forM BitVector.push h = .ok () h' ∧ h'.list = bits ∧
      h'.provider = h.provider) ∧
    (b.room < bits.length → ∃ j, IsLeast (doublings b.width bits.length) j ∧
      (Storage.Grants h j → ∃ h', bits.forM BitVector.push h = .ok () h' ∧ h'.list = bits ∧
        Storage.capacity h'.storage = minBlockWords * 2 ^ j * b.width ∧
        h'.provider.requests = h.provider.requests + (j + 1) ∧
        h'.provider.grants = h.provider.grants + (j + 1) ∧
        h'.provider.releases = h.provider.releases + j)) := by
  intro pool h
  have reached : pool.Sound policy 0 [] := Action.reached_sound (S := b.Carrier) lawful actions
  have sound := BitVector.empty_sound (S := b.Carrier) reached.books
  have clear : h.list = [] := BitVector.empty_list pool.provider
  have inline := b.doubles.empty
  constructor
  · intro few
    obtain ⟨⟨⟩, h', ran, -, list, filled⟩ := (BitVector.pushes_fill b.doubles sound inline clear small
      fun n j more within _ => absurd (Nat.le_trans within few) (Nat.not_le.mpr more)).succeeds
    rw [Holding.Filled, if_pos few] at filled
    exact ⟨h', ran, list, filled.provider⟩
  · intro many
    obtain ⟨j, least⟩ := exists_least_doubling (w := b.width) bits.length
    refine ⟨j, least, fun grants => ?_⟩
    have granted : ∀ n i, b.room < n → n ≤ bits.length → IsLeast (doublings b.width n) i →
        Storage.refusal b.Carrier policy (Storage.doublingRequest h i) = none := by
      intro n i _ within first
      have answer := grants i (first.2 (doublings_anti within least.1))
      rwa [sound.books.policy] at answer
    obtain ⟨⟨⟩, h', ran, sound', list, filled⟩ :=
      (BitVector.pushes_fill b.doubles sound inline clear small granted).succeeds
    rw [Holding.Filled, if_neg (Nat.not_le.mpr many)] at filled
    obtain ⟨i, first, doubled⟩ := filled
    obtain rfl : i = j := first.unique least
    exact ⟨h', ran, list, doubled.capacity, doubled.requests, doubled.grants,
      doubled.releases sound sound' inline⟩

/-- Three hundred bits outgrow four words of sixty-four bits, and not eight. -/
theorem pushing_doubles_the_capacity_once :
    let bits := List.replicate 300 true
    let pool : Pool Backend.tagged.Carrier := (Action.run [] (Action.start (Policy.pages 2))).2
    let h : Holding Backend.tagged.Carrier := ⟨Storage.empty, pool.provider⟩
    (Policy.pages 2).Lawful ∧ bits.length ≤ Storage.maxBits Backend.tagged.Carrier ∧
      Backend.tagged.room < bits.length ∧ Storage.Grants h 1 ∧
      ∃ h', bits.forM BitVector.push h = .ok () h' ∧ h'.list = bits ∧
        Storage.capacity h'.storage = 8 * 64 ∧ h'.provider.requests = 2 ∧
        h'.provider.grants = 2 ∧ h'.provider.releases = 1 := by
  intro bits pool h
  have lawful : (Policy.pages 2).Lawful := Policy.pages_lawful (by decide)
  have count : bits.length = 300 := List.length_replicate
  have small : bits.length ≤ Storage.maxBits Backend.tagged.Carrier := by
    rw [count]
    decide
  have many : Backend.tagged.room < bits.length := by
    rw [count]
    decide
  have grants : Storage.Grants h 1 := by
    unfold Storage.Grants
    decide +kernel
  have once : IsLeast (doublings Backend.tagged.width bits.length) 1 := by
    rw [count]
    refine ⟨show 300 ≤ minBlockWords * 2 ^ 1 * 64 by decide, fun i enough => ?_⟩
    refine Nat.one_le_iff_ne_zero.mpr fun zero => ?_
    rw [zero] at enough
    exact absurd enough (show ¬ 300 ≤ minBlockWords * 2 ^ 0 * 64 by decide)
  obtain ⟨j, least, pushed⟩ := (pushing_doubles_the_capacity .tagged lawful [] bits small).2 many
  obtain rfl : j = 1 := least.unique once
  exact ⟨lawful, small, many, grants, pushed grants⟩

end PackedBits
