import PackedBits.Proofs.BitVector.Order
import PackedBits.Proofs.Run.Reached

/-! Comparing what runs have brought about. The vectors may be of different storages, inline or on
the heap, and have any history: only their bits count for equality, for the order and for what they
feed to a hash. -/
namespace PackedBits

namespace Reached
variable {w : Nat}

def hashInput (v : Reached w) : List (BitVec 8) := BitVector.hashInput v.storage

def onHeap (v : Reached w) : Bool := Storage.onHeap v.storage

end Reached

/-- Vectors are equal when they hold the same list of bits, and are ordered as their lists are,
entry by entry with a list before its extensions. Where words are of whole bytes, vectors feed the
same bytes to a hash when they hold the same list, and only then. -/
theorem vectors_compare_as_lists {w : Nat} [HasBits w] (a b : Reached w) :
    a.span.bitsEq b.span = .ok (decide (a.bits = b.bits)) ∧
    (∃ answer, BitVector.order a.span b.span = .ok answer ∧ Orders answer a.bits b.bits) ∧
    (8 ∣ w → (a.hashInput = b.hashInput ↔ a.bits = b.bits)) := by
  refine ⟨Span.bitsEq_eq a.held b.held, ?_, ?_⟩
  · exact ⟨_, BitVector.order_eq a.held b.held, BitVector.compareBits_orders a.bits b.bits⟩
  · exact fun bytes => BitVector.hashInput_eq_iff bytes a.sound b.sound

/-- A vector cut back on the heap and an inline one that hold the same bits, and the two beside one
with a bit more. -/
theorem vectors_compare_as_lists_across_storages :
    let long : Reached 64 := .vector .tagged (Policy.pages 2) (Policy.pages_lawful (by decide))
      [.work .inPlace "a" (.grow (.resize 500 true)) (.vector "a"),
        .work .inPlace "a" (.truncate 20) (.vector "a")] "a"
    let short : Reached 64 := .vector .smallBuffer (Policy.pages 0) (Policy.pages_lawful (by decide))
      [.work .inPlace "a" (.grow (.resize 20 true)) (.vector "a")] "a"
    let more : Reached 64 := .vector .smallBuffer (Policy.pages 0) (Policy.pages_lawful (by decide))
      [.work .inPlace "a" (.grow (.resize 21 true)) (.vector "a")] "a"
    long.onHeap = true ∧ short.onHeap = false ∧
    long.span.bitsEq short.span = .ok true ∧ long.hashInput = short.hashInput ∧
    BitVector.order long.span more.span = .ok .lt ∧ long.hashInput ≠ more.hashInput := by
  intro long short more
  have alike : long.bits = short.bits := by decide +kernel
  have shorter : long.bits < more.bits := by decide +kernel
  obtain ⟨equal, -, hashed⟩ := vectors_compare_as_lists long short
  obtain ⟨-, ⟨answer, ordered, orders⟩, hashedMore⟩ := vectors_compare_as_lists long more
  refine ⟨by decide +kernel, by decide +kernel, ?_, (hashed (by decide)).mpr alike, ?_, ?_⟩
  · rw [equal, decide_eq_true alike]
  · rw [ordered, orders.lt.mpr shorter]
  · exact fun same => absurd ((hashedMore (by decide)).mp same) (by decide +kernel)

end PackedBits
