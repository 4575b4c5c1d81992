import PackedBits.Proofs.Backend
import PackedBits.Proofs.Run.Action

/-! The vectors that runs bring about, on all storages with words of one width. Whatever its
storage and its history, such a vector is one of a lawful storage and sound. -/
namespace PackedBits

/-- A vector as some run has left it, on a storage with words of `w` bits. -/
inductive Reached : (w : Nat) → Type where
  | vector (b : Backend) (policy : Policy) (lawful : policy.Lawful)
      (actions : List (Action b.width)) (name : String) : Reached b.width

namespace Reached
variable {w : Nat}

def Carrier : Reached w → Type
  | .vector b .. => b.Carrier

instance instStorage : (v : Reached w) → Storage v.Carrier w
  | .vector b .. => inferInstanceAs (Storage b.Carrier b.width)

instance instStorageSpec : (v : Reached w) → StorageSpec v.Carrier w
  | .vector b .. => inferInstanceAs (StorageSpec b.Carrier b.width)

instance instLawfulStorage [HasBits w] (v : Reached w) : LawfulStorage v.Carrier w := by
  cases v with
  | vector b => exact inferInstanceAs (LawfulStorage b.Carrier b.width)

def storage : (v : Reached w) → v.Carrier
  | .vector b policy _ actions name =>
      (Action.run actions (Action.start policy : Pool b.Carrier)).2.vector name

def span (v : Reached w) : Span w := Container.span v.storage

def bits (v : Reached w) : List Bool := v.span.toList

theorem sound : (v : Reached w) → StorageSpec.Sound v.storage
  | .vector b _ lawful actions name =>
      ((Action.reached_sound (S := b.Carrier) lawful actions).holding name).storage

theorem held [HasBits w] (v : Reached w) : v.span.Held := Storage.held v.sound

theorem len_span [HasBits w] (v : Reached w) : v.span.len = Storage.len v.storage :=
  LawfulStorage.len_span v.storage

end Reached

end PackedBits
