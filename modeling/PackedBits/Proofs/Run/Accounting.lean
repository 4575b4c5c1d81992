import PackedBits.Proofs.Run.SpareBits

/-! The blocks of a run. No release names a block that is not granted at that size, so every block
goes back at most once and whole; in between, the granted blocks are those of the vectors on the
heap, and when all vectors are dropped none is left. -/
namespace PackedBits

namespace Backend

def address (b : Backend) (s : b.Carrier) : Nat := ((StorageSpec.block s).map (·.address)).getD 0

/-- The block that a vector on the heap has to own. -/
def owned (b : Backend) (s : b.Carrier) : Grant :=
  ⟨b.address s, Storage.capacity s / b.width + b.header⟩

/-- The granted blocks are one for each vector on the heap, as large as its capacity tells. -/
structure Accounted (b : Backend) (pool : Pool b.Carrier) : Prop where
  distinct : (pool.vectors.map (·.1)).Nodup
  live : pool.provider.live.Perm
    ((pool.vectors.filter fun entry => Storage.onHeap entry.2).map fun entry => b.owned entry.2)
  balance : pool.provider.grants = pool.provider.releases + pool.provider.live.length

variable {b : Backend} {policy : Policy} {refusals : Nat} {others : List Grant}

theorem block_eq {s : b.Carrier} (sound : StorageSpec.Sound s) :
    StorageSpec.block s = if Storage.onHeap s then some (b.owned s) else none := by
  have heap := LawfulStorage.onHeap sound
  cases owned : StorageSpec.block s with
  | none =>
      rw [owned] at heap
      rw [heap]
      rfl
  | some grant =>
      have words := LawfulStorage.block_words sound owned
      rw [owned] at heap
      -- The capacity tells how large the block is, header included.
      have same : b.owned s = grant := by
        rw [Backend.owned, address, owned, ← header_eq, ← words]
        rfl
      rw [heap, same]
      rfl

theorem blocksOf_eq {vectors : List (String × b.Carrier)}
    (storages : ∀ entry ∈ vectors, StorageSpec.Sound entry.2) :
    Pool.blocksOf vectors =
      (vectors.filter fun entry => Storage.onHeap entry.2).map fun entry => b.owned entry.2 := by
  induction vectors with
  | nil => rfl
  | cons entry rest ih =>
      have later := ih fun entry member => storages entry (List.mem_cons_of_mem _ member)
      rw [Pool.blocksOf_cons, block_eq (storages entry List.mem_cons_self), later, List.filter_cons]
      by_cases heap : Storage.onHeap entry.2
      · rw [if_pos heap, if_pos heap]
        rfl
      · rw [if_neg heap, if_neg heap]
        rfl

theorem accounted_of_sound {pool : Pool b.Carrier} (sound : pool.Sound policy refusals []) :
    b.Accounted pool where
  distinct := sound.tidy.distinct
  live := by
    have listed := sound.books.live
    rwa [List.append_nil, Pool.blocks, blocksOf_eq sound.tidy.storages] at listed
  balance := sound.books.balance

end Backend

/-- Dropping all vectors of a sound pool gives every block back. -/
theorem Pool.cleared {S : Type} {w : Nat} [HasBits w] [Storage S w] [StorageSpec S w]
    [LawfulStorage S w] {policy : Policy} {refusals : Nat} {pool : Pool S}
    (sound : pool.Sound policy refusals []) :
    ∃ after : Pool S, Pool.clear pool = .ok () after ∧ after.vectors = [] ∧
      after.provider.live = [] ∧ after.provider.grants = after.provider.releases := by
  obtain ⟨_, after, ran, emptied, sound'⟩ := (Pool.clear_ends sound).succeeds
  have listed := sound'.books.live
  -- No vector is left that could own a block.
  have none : after.provider.live = [] := by
    rw [Pool.blocks, emptied] at listed
    exact listed.eq_nil
  have balance := sound'.books.balance
  rw [none] at balance
  exact ⟨after, ran, emptied, none, balance⟩

/-- In any run over any vectors of any storage, whatever is granted and refused, no access and no
release goes wild, the granted blocks are at every point those of the vectors on the heap, and they
are all given back when the vectors are dropped. -/
theorem blocks_are_accounted_for (b : Backend) {policy : Policy} (lawful : policy.Lawful)
    (actions : List (Action b.width)) :
    let reached : List (Query Reply) × Pool b.Carrier := Action.run actions (Action.start policy)
    (∀ reply ∈ reached.1, reply ≠ .error .wild) ∧ b.Accounted reached.2 ∧
      ∃ after : Pool b.Carrier, Pool.clear reached.2 = .ok () after ∧ after.vectors = [] ∧
        after.provider.live = [] ∧ after.provider.grants = after.provider.releases := by
  obtain ⟨tame, sound⟩ :=
    Action.run_sound actions (Pool.Sound.start (S := b.Carrier) (w := b.width) lawful)
  exact ⟨tame, Backend.accounted_of_sound sound, Pool.cleared sound⟩

/-- Two pages for three vectors: the second copy is refused, the first one outlives its source. -/
theorem blocks_are_accounted_for_on_two_pages :
    (Policy.pages 2).Lawful ∧
    (let reached : List (Query Reply) × Pool Backend.smallBuffer.Carrier := Action.run
        [.work .inPlace "a" (.grow (.resize 300 false)) (.vector "a"), .tryClone "a" "b",
          .tryClone "a" "c", .drop "a"] (Action.start (Policy.pages 2))
    (∀ reply ∈ reached.1, reply ≠ .error .wild) ∧ Backend.smallBuffer.Accounted reached.2 ∧
      ∃ after : Pool Backend.smallBuffer.Carrier, Pool.clear reached.2 = .ok () after ∧
        after.vectors = [] ∧ after.provider.live = [] ∧
        after.provider.grants = after.provider.releases) :=
  have lawful : (Policy.pages 2).Lawful := Policy.pages_lawful (by decide)
  ⟨lawful, blocks_are_accounted_for .smallBuffer lawful _⟩

end PackedBits
