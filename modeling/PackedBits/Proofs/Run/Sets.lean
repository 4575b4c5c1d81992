import PackedBits.Proofs.BitVector.Order
import PackedBits.Proofs.FixedSet
import PackedBits.Proofs.Run.Action
import PackedBits.Proofs.Run.Locality
import PackedBits.Proofs.Text.Digits

/-! The sets that can be built. A set starts out empty, full, or made of words or of a text; the
operators make sets of sets, and every change in place goes on with what it leaves, be it after a
panic. Operators see whole words and changes the run of bits only, and however the two are mixed the
set stays canonical, so that it is and does as a run of bits what it is and does as words. -/
namespace PackedBits

namespace FixedSet
variable {w n : Nat} [HasBits w] {a b set : FixedSet w n}

def left {α : Type} (set : FixedSet w n) (attempt : Attempt (Span w) α) : FixedSet w n :=
  ((inPlace attempt).outcome set).2

/-- The sets that operations lead to. -/
inductive Built : FixedSet w n → Prop where
  | empty : Built empty
  | splat {value : Bool} {set : FixedSet w n} (made : splat value = .ok set) : Built set
  | ofWords (words : Array (BitVec w)) (size : words.size = wordsFor w n) : Built (ofWords words)
  | parse {text : String} {set : FixedSet w n} (read : Text.parseSet text = .ok set) : Built set
  | and {a b : FixedSet w n} (first : Built a) (second : Built b) : Built (a.and b)
  | or {a b : FixedSet w n} (first : Built a) (second : Built b) : Built (a.or b)
  | xor {a b : FixedSet w n} (first : Built a) (second : Built b) : Built (a.xor b)
  | complement {a : FixedSet w n} (given : Built a) : Built a.complement
  | shiftLeft {a set : FixedSet w n} {amount : Nat} (given : Built a)
      (made : a.shiftLeft amount = .ok set) : Built set
  | shiftRight {a set : FixedSet w n} {amount : Nat} (given : Built a)
      (made : a.shiftRight amount = .ok set) : Built set
  /-- In place, beside any container. -/
  | change {a : FixedSet w n} (given : Built a) (change : Change) (other : Host w) :
      Built (a.left (change.attempt other.span))
  | retain {a : FixedSet w n} {τ : Type} (given : Built a) (keep : Nat → τ → Bool × τ) (state : τ) :
      Built (a.left (Span.retain keep state))
  /-- Through a reference that a walk hands out. -/
  | refer {a : FixedSet w n} {sides : List Bool} {refs : List (BitRef w)} {walk : RefWalk w}
      {r : BitRef w} (given : Built a)
      (handed : RefWalk.handOut sides (Container.span a).walkRefs = .ok refs walk)
      (member : r ∈ refs) (call : BitRef.Call) :
      Built (a.left (Span.useRef fun m : Buffers w => r.call m call))
  /-- The two bits that such references refer to, exchanged. -/
  | swapRefs {a : FixedSet w n} {sides : List Bool} {refs : List (BitRef w)} {walk : RefWalk w}
      {r r' : BitRef w} (given : Built a)
      (handed : RefWalk.handOut sides (Container.span a).walkRefs = .ok refs walk)
      (member : r ∈ refs) (member' : r' ∈ refs) :
      Built (a.left (Span.change fun m : Buffers w => r.swap r' m))
  /-- All bits, exchanged with those of any container. -/
  | exchange {a : FixedSet w n} (given : Built a) (size : a.words.size = wordsFor w n)
      (other : Host w) :
      Built ((Host.exchange (.set n a size) other).outcome (a, other.value)).2.1
  | exchanged {a : FixedSet w n} (given : Built a) (size : a.words.size = wordsFor w n)
      (other : Host w) :
      Built ((Host.exchange other (.set n a size)).outcome (other.value, a)).2.2

theorem Canonical.left_does {α : Type} {attempt : Attempt (Span w) α}
    {outcome : Query (α × List Bool)} (canonical : a.Canonical)
    (does : (Container.span a).Does attempt outcome) : (a.left attempt).Canonical := by
  have ends : (Host.set n a canonical.size).Does attempt outcome := Host.does_of_span does
  obtain ⟨_, -, rewritten, -⟩ | ⟨_, -, same, -⟩ := ends.outcome
  · exact canonical.within rewritten.within
  · have unchanged : a.left attempt = a := same
    rw [unchanged]
    exact canonical

theorem Canonical.of_after {change : Attempt (Span w) Unit} {bits : List Bool}
    (canonical : a.Canonical) (does : (Container.span a).Does change (.ok ((), bits)))
    (made : a.after change = .ok set) : set.Canonical := by
  obtain ⟨b, changed, reached, -⟩ := canonical.after_does does
  cases made.symm.trans changed
  exact reached

theorem splat_canonical {value : Bool} (made : splat value = .ok set) : set.Canonical := by
  cases value with
  | false =>
      cases made
      exact empty_canonical
  | true =>
      have filled := Span.fillRange_does (empty_held (w := w) (n := n)) Bounds.all true
      rw [OnList.onRange_all] at filled
      exact empty_canonical.of_after filled made

theorem Canonical.handed {sides : List Bool} {refs : List (BitRef w)} {walk : RefWalk w}
    {r : BitRef w} (canonical : a.Canonical)
    (handed : RefWalk.handOut sides (Container.span a).walkRefs = .ok refs walk)
    (member : r ∈ refs) : ∃ i, (Container.span a).bitRef i = .ok r := by
  obtain ⟨places, -, same⟩ := ((Host.set n a canonical.size).lendsBits sides).at_ok handed
  have listed : (.ok r : Query (BitRef w)) ∈ refs.map .ok := List.mem_map_of_mem member
  rw [same] at listed
  obtain ⟨i, -, answer⟩ := List.mem_map.mp listed
  exact ⟨i, answer⟩

theorem Canonical.refer {sides : List Bool} {refs : List (BitRef w)} {walk : RefWalk w}
    {r : BitRef w} (canonical : a.Canonical)
    (handed : RefWalk.handOut sides (Container.span a).walkRefs = .ok refs walk)
    (member : r ∈ refs) (call : BitRef.Call) :
    (a.left (Span.useRef fun m : Buffers w => r.call m call)).Canonical := by
  obtain ⟨i, answer⟩ := canonical.handed handed member
  exact canonical.left_does ((Span.call_does canonical.held i call).asked answer)

theorem Canonical.swapRefs {sides : List Bool} {refs : List (BitRef w)} {walk : RefWalk w}
    {r r' : BitRef w} (canonical : a.Canonical)
    (handed : RefWalk.handOut sides (Container.span a).walkRefs = .ok refs walk)
    (member : r ∈ refs) (member' : r' ∈ refs) :
    (a.left (Span.change fun m : Buffers w => r.swap r' m)).Canonical := by
  obtain ⟨i, answer⟩ := canonical.handed handed member
  obtain ⟨j, answer'⟩ := canonical.handed handed member'
  have swapped := Span.swap_does canonical.held i j
  exact canonical.left_does ((swapped.asked answer).asked answer')

theorem Canonical.exchange (canonical : a.Canonical) (other : Host w) :
    FixedSet.Canonical
      ((Host.exchange (.set n a canonical.size) other).outcome (a, other.value)).2.1 := by
  obtain ⟨_, -, rewritten, -, -⟩ | ⟨_, -, same, -⟩ :=
    ((Host.set n a canonical.size).exchanges other).outcome
  · exact canonical.within rewritten.within
  · exact (congrArg Prod.fst same : _ = a) ▸ canonical

theorem Canonical.exchanged (canonical : a.Canonical) (other : Host w) :
    FixedSet.Canonical
      ((Host.exchange other (.set n a canonical.size)).outcome (other.value, a)).2.2 := by
  obtain ⟨_, -, -, rewritten, -⟩ | ⟨_, -, same, -⟩ :=
    (other.exchanges (Host.set n a canonical.size)).outcome
  · exact canonical.within rewritten.within
  · exact (congrArg Prod.snd same : _ = a) ▸ canonical

theorem Built.canonical (built : set.Built) : set.Canonical := by
  induction built with
  | empty => exact empty_canonical
  | splat made => exact splat_canonical made
  | ofWords words size => exact trim_canonical size
  | parse read => exact empty_canonical.within (Text.parseSet_within read).1
  | and _ _ first second => exact first.zipWords second .and
  | or _ _ first second => exact first.zipWords second .or
  | xor _ _ first second => exact first.zipWords second .xor
  | complement _ given => exact given.complement
  | shiftLeft _ made given => exact given.of_after (Span.shiftLeft_does given.held _) made
  | shiftRight _ made given => exact given.of_after (Span.shiftRight_does given.held _) made
  | change _ change other given => exact given.left_does (change.attempt_does given.held other.held)
  | retain _ keep state given => exact given.left_does (Span.retain_does keep given.held state)
  | refer _ handed member call given => exact given.refer handed member call
  | swapRefs _ handed member member' given => exact given.swapRefs handed member member'
  | exchange _ size other given => exact given.exchange other
  | exchanged _ size other given => exact given.exchanged other

/-- What two sets are and do as words, they are and do as runs of bits. -/
structure AsWords (a b : FixedSet w n) : Prop where
  size : a.words.size = wordsFor w n
  /-- No bit of the last word is set past the size. -/
  spare : ∀ k, n ≤ k → bitIn a.words k = false
  /-- Comparing words answers as comparing bits does, -/
  equal : (Container.span a).bitsEq (Container.span b) = .ok (decide (a = b))
  /-- and so does comparing what the words feed to a hash. -/
  hash : a = b → hashWords a.words = hashWords b.words
  hash_inj : 8 ∣ w → hashWords a.words = hashWords b.words → a = b
  and : a.after (Span.andWith (Container.span b)) = .ok (a.and b)
  or : a.after (Span.orWith (Container.span b)) = .ok (a.or b)
  xor : a.after (Span.xorWith (Container.span b)) = .ok (a.xor b)
  complement : a.after Span.flipAll = .ok a.complement
  shiftLeft (amount : Nat) : ∃ c, a.shiftLeft amount = .ok c ∧
    a.after (Span.shiftLeft amount) = .ok c ∧
    (Container.span c).toList = OnList.shiftLeft amount (Container.span a).toList
  shiftRight (amount : Nat) : ∃ c, a.shiftRight amount = .ok c ∧
    a.after (Span.shiftRight amount) = .ok c ∧
    (Container.span c).toList = OnList.shiftRight amount (Container.span a).toList

omit [HasBits w] in
theorem Canonical.list_eq_iff (first : a.Canonical) (second : b.Canonical) :
    (Container.span a).toList = (Container.span b).toList ↔ a = b :=
  ⟨first.eq_of_list second, fun same => same ▸ rfl⟩

theorem Canonical.asWords (first : a.Canonical) (second : b.Canonical) : a.AsWords b where
  size := first.size
  spare := first.spare
  equal := by
    rw [Span.bitsEq_eq first.held second.held, decide_eq_decide.mpr (first.list_eq_iff second)]
  hash same := congrArg (fun set => hashWords set.words) same
  hash_inj bytes same := by
    have words := hashWords_inj bytes (first.size.trans second.size.symm) same
    cases a
    cases b
    exact congrArg FixedSet.mk words
  and := first.andWith_eq second
  or := first.combine_eq second .or
  xor := first.combine_eq second .xor
  complement := first.flipAll_eq
  shiftLeft amount := by
    obtain ⟨c, shifted, -, list⟩ := first.after_does (Span.shiftLeft_does first.held amount)
    exact ⟨c, shifted, shifted, list⟩
  shiftRight amount := by
    obtain ⟨c, shifted, -, list⟩ := first.after_does (Span.shiftRight_does first.held amount)
    exact ⟨c, shifted, shifted, list⟩

end FixedSet

/-- Sets of any size in words of any width, whatever operations have led to them. -/
theorem built_sets_are_as_their_words {w n : Nat} [HasBits w] {a b : FixedSet w n}
    (first : a.Built) (second : b.Built) : a.AsWords b :=
  first.canonical.asWords second.canonical

/-- Twelve bits in bytes, of words with every bit set, and what combining them with a view of five
bits in place leaves. -/
theorem built_sets_are_as_their_words_in_two_bytes :
    let full : FixedSet 8 12 := .ofWords #[0xFF#8, 0xFF#8]
    let viewed : Host 8 := .view ⟨#[0x3C#8], 5⟩ (by decide)
    let masked : FixedSet 8 12 := full.left (Change.andWith.attempt viewed.span)
    full.Built ∧ masked.Built ∧ full.AsWords masked ∧
      full.words = #[0xFF#8, 0x0F#8] ∧ masked.words = #[0x1C#8, 0x00#8] ∧
      full.after (Span.xorWith (Container.span masked)) = .ok ⟨#[0xE3#8, 0x0F#8]⟩ := by
  intro full viewed masked
  have first : full.Built := .ofWords _ rfl
  have second : masked.Built := first.change .andWith viewed
  have alike := built_sets_are_as_their_words first second
  refine ⟨first, second, alike, by decide, by decide +kernel, ?_⟩
  rw [alike.xor]
  exact congrArg Except.ok (by decide +kernel)

end PackedBits
