import Mathlib.Algebra.Group.Nat.Defs
import PackedBits.Provider
import PackedBits.Proofs.Attempt

/-! The books of a provider. They list the blocks that are granted and not yet released, in any
order, and balance: every grant was released once or is still listed. A lower bound on the number
of refusals is carried along, so that a refusal anywhere in a run shows at its end. -/
namespace PackedBits

/-- A granted block is memory that can be used, so all of it lies in the address space. -/
def Policy.Lawful (policy : Policy) : Prop :=
  ∀ request address, policy request = .ok address →
    address + request.words * (request.width / 8) ≤ 2 ^ 64

theorem Policy.Lawful.reach {policy : Policy} (lawful : policy.Lawful) {serial words address : Nat}
    (granted : policy ⟨serial, 64, words⟩ = .ok address) : address + words * 8 ≤ 2 ^ 64 := by
  have inside : address + words * (64 / 8) ≤ 2 ^ 64 := lawful _ _ granted
  exact inside

def Policy.pages (count : Nat) : Policy := fun request =>
  if request.serial < count ∧ request.words * (request.width / 8) ≤ 4096 then
    .ok (4096 * (request.serial + 1))
  else .error (.allocFailed request.words)

theorem Policy.pages_lawful {count : Nat} (few : count ≤ 2 ^ 51) : (pages count).Lawful := by
  intro request address granted
  unfold pages at granted
  split at granted
  · rename_i fits
    cases granted
    omega
  · cases granted

/-- The books of a provider under a policy: the blocks granted, and how often it has refused at
least. -/
structure Books (policy : Policy) (refusals : Nat) (blocks : List Grant) (p : Provider) : Prop where
  lawful : policy.Lawful
  policy : p.policy = policy
  live : p.live.Perm blocks
  balance : p.grants = p.releases + p.live.length
  refused : p.grants + refusals ≤ p.requests

/-- A failure that leaves the same blocks on the books. Where it is `certain` that the provider was
asked and refused, the refusal has been counted. -/
structure Declined (policy : Policy) (refusals : Nat) (blocks : List Grant) (certain : Prop)
    (failure : Failure) (p' : Provider) : Prop where
  tame : failure ≠ .wild
  books : Books policy refusals blocks p'
  counted : certain → Books policy (refusals + 1) blocks p'

theorem Declined.weaken {policy : Policy} {refusals : Nat} {blocks : List Grant}
    {certain weaker : Prop} {failure : Failure} {p' : Provider}
    (declined : Declined policy refusals blocks certain failure p') (only : weaker → certain) :
    Declined policy refusals blocks weaker failure p' :=
  ⟨declined.tame, declined.books, fun sure => declined.counted (only sure)⟩

namespace Books
variable {policy : Policy} {refusals width words address : Nat} {blocks blocks' : List Grant}
  {p : Provider}

theorem of_policy (lawful : policy.Lawful) : Books policy 0 [] (Provider.of policy) :=
  ⟨lawful, rfl, .refl [], rfl, Nat.le_refl 0⟩

theorem perm (books : Books policy refusals blocks p) (same : blocks.Perm blocks') :
    Books policy refusals blocks' p :=
  { books with live := books.live.trans same }

theorem fewer (books : Books policy (refusals + 1) blocks p) : Books policy refusals blocks p :=
  { books with refused := Nat.le_trans (Nat.le_succ _) books.refused }

/-- A grant is put on the books; a refusal leaves the blocks as they are and is counted. -/
theorem allocate_ends (books : Books policy refusals blocks p) (width words : Nat) :
    (Provider.allocate width words).Ends p
      (fun address p' => policy ⟨p.requests, width, words⟩ = .ok address ∧
        p'.live = ⟨address, words⟩ :: p.live ∧
        Books policy refusals (⟨address, words⟩ :: blocks) p')
      fun failure p' => ∃ error, failure = .error error ∧
        policy ⟨p.requests, width, words⟩ = .error error ∧ p'.live = p.live ∧
        Books policy (refusals + 1) blocks p' := by
  obtain ⟨lawful, rfl, live, balance, refused⟩ := books
  refine .get_bind ?_
  cases answer : p.policy ⟨p.requests, width, words⟩ with
  | ok address =>
      refine ⟨rfl, rfl, lawful, rfl, live.cons _, ?_, ?_⟩
      · rw [List.length_cons, balance]
        exact Nat.add_assoc ..
      · show p.grants + 1 + refusals ≤ p.requests + 1
        omega
  | error error =>
      refine ⟨error, rfl, rfl, rfl, lawful, rfl, live, balance, ?_⟩
      show p.grants + (refusals + 1) ≤ p.requests + 1
      omega

theorem release_ends (books : Books policy refusals (⟨address, words⟩ :: blocks) p) :
    (Provider.release address words).Ends p
      (fun _ p' => p'.live = p.live.erase ⟨address, words⟩ ∧ Books policy refusals blocks p')
      fun _ _ => False := by
  have listed : ⟨address, words⟩ ∈ p.live := books.live.mem_iff.mpr List.mem_cons_self
  refine .get_bind ?_
  rw [if_pos listed]
  refine ⟨rfl, books.lawful, books.policy, ?_, ?_, books.refused⟩
  · have struck := books.live.erase ⟨address, words⟩
    rwa [List.erase_cons_head] at struck
  · show p.grants = p.releases + 1 + (p.live.erase ⟨address, words⟩).length
    have some : 0 < p.live.length := List.length_pos_of_mem listed
    rw [List.length_erase_of_mem listed, books.balance]
    omega

end Books

end PackedBits
