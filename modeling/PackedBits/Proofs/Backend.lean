import PackedBits.Proofs.Storage.Plain
import PackedBits.Proofs.Storage.SmallBuffer
import PackedBits.Proofs.Storage.Tagged

/-! The storages there are. What is proved of lawful storages is stated for each of these, the plain
one at any width of its words. -/
namespace PackedBits

inductive Backend where
  | plain (width : Nat) (positive : 0 < width)
  | smallBuffer
  | tagged

namespace Backend

def width : Backend → Nat
  | plain width _ => width
  | smallBuffer => 64
  | tagged => 64

def Carrier : Backend → Type
  | plain width _ => Plain width
  | smallBuffer => SmallBuffer
  | tagged => Tagged

def header : Backend → Nat
  | plain .. => 0
  | smallBuffer => 1
  | tagged => 0

instance (b : Backend) : HasBits b.width :=
  match b with
  | plain _ positive => ⟨Nat.ne_of_gt positive⟩
  | smallBuffer => inferInstanceAs (HasBits 64)
  | tagged => inferInstanceAs (HasBits 64)

instance (b : Backend) : Storage b.Carrier b.width :=
  match b with
  | plain width _ => inferInstanceAs (Storage (Plain width) width)
  | smallBuffer => inferInstanceAs (Storage SmallBuffer 64)
  | tagged => inferInstanceAs (Storage Tagged 64)

instance (b : Backend) : StorageSpec b.Carrier b.width :=
  match b with
  | plain width _ => inferInstanceAs (StorageSpec (Plain width) width)
  | smallBuffer => inferInstanceAs (StorageSpec SmallBuffer 64)
  | tagged => inferInstanceAs (StorageSpec Tagged 64)

instance (b : Backend) : LawfulStorage b.Carrier b.width :=
  match b with
  | plain width positive =>
      have : HasBits width := ⟨Nat.ne_of_gt positive⟩
      inferInstanceAs (LawfulStorage (Plain width) width)
  | smallBuffer => inferInstanceAs (LawfulStorage SmallBuffer 64)
  | tagged => inferInstanceAs (LawfulStorage Tagged 64)

theorem header_eq (b : Backend) : StorageSpec.header b.Carrier = b.header := by
  cases b with
  | plain width positive => rfl
  | smallBuffer => rfl
  | tagged => rfl

end Backend

end PackedBits
