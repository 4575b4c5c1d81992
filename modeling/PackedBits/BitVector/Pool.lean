import PackedBits.BitVector.Sets

/-! Pools: named vectors that draw from one provider. A name stands for an empty vector until one
is put there; a vector that is replaced, used up or left over gives its block back. -/
namespace PackedBits

structure Pool (S : Type) where
  vectors : List (String × S)
  provider : Provider

namespace Pool
variable {S α : Type} {w : Nat} [HasBits w] [Storage S w]

def vector (pool : Pool S) (name : String) : S := (pool.vectors.lookup name).getD Storage.empty

def span (pool : Pool S) (name : String) : Span w := Container.span (pool.vector name)

def put (pool : Pool S) (name : String) (storage : S) : Pool S :=
  { pool with vectors := (name, storage) :: pool.vectors.filter (·.1 ≠ name) }

def onProvider (attempt : Attempt Provider α) : Attempt (Pool S) α :=
  attempt.within provider fun pool provider => { pool with provider := provider }

def work (name : String) (attempt : Attempt (Holding S) α) : Attempt (Pool S) α :=
  attempt.within (fun pool => ⟨pool.vector name, pool.provider⟩) fun pool holding =>
    { pool.put name holding.storage with provider := holding.provider }

def drop (storage : S) : Attempt (Pool S) Unit := onProvider (Storage.release storage)

def assign (name : String) (storage : S) : Attempt (Pool S) Unit := do
  let old := (← get).vector name
  modify (·.put name storage)
  drop old

/-- Makes a vector and puts it in place of another, which is kept if the making fails. -/
def make (name : String) (attempt : Attempt Provider S) : Attempt (Pool S) Unit := do
  assign name (← onProvider attempt)

def take (name : String) : Attempt (Pool S) S := do
  let storage := (← get).vector name
  modify (·.put name Storage.empty)
  return storage

def glance (attempt : Attempt Provider S) (look : S → α) : Attempt (Pool S) α := do
  let storage ← onProvider attempt
  drop storage
  return look storage

def changeCopy (name : String) (change : Attempt (Holding S) Unit) : Attempt (Pool S) Unit := do
  let pool : Pool S ← get
  make name (BitVector.copied (pool.vector name) change)

/-- Uses a vector up and puts what has become of it in its place; nothing if the change fails. -/
def changeOwned (name : String) (change : Attempt (Holding S) Unit) : Attempt (Pool S) Unit := do
  make name (BitVector.onOwned (← take name) change)

def splitOff (name target : String) (position : Nat) : Attempt (Pool S) Unit := do
  assign target (← work name (BitVector.splitOff position))

def clear : Attempt (Pool S) Unit := do
  let pool : Pool S ← get
  set { pool with vectors := ([] : List (String × S)) }
  pool.vectors.forM fun (_, storage) => drop storage

end Pool

end PackedBits
