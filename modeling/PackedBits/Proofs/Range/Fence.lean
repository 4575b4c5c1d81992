import PackedBits.Range.Fill
import PackedBits.Range.Combine
import PackedBits.Range.Rotate
import PackedBits.Range.Search
import PackedBits.Range.Arrange
import PackedBits.Memory.Lawful
import PackedBits.Cursor.Lemmas

/-! Running behind a fence. A fenced memory has the words that its fence admits and no others; an
access to any other ends a computation without a result, as an access outside a buffer does. So a
computation that has a result behind a fence has touched admitted words only, and without the fence
it has the same result: every operation on runs carries over, and each does because the operations
that it is made of do. -/
namespace PackedBits

section Carrying
variable {α β γ δ : Type}

/-- Where the first computation has a result, the second has one that is lifted to it. -/
structure Carries (lift : β → α) (first : Option α) (second : Option β) : Prop where
  result : ∀ a, first = some a → ∃ b, second = some b ∧ lift b = a

namespace Carries
variable {lift : β → α} {first : Option α} {second : Option β}

theorem some (b : β) : Carries lift (some (lift b)) (some b) where
  result _ found := ⟨b, rfl, Option.some.inj found⟩

theorem none : Carries lift none second where
  result _ found := nomatch found

theorem same (first : Option α) : Carries id first first where
  result a found := ⟨a, found, rfl⟩

theorem bind {raise : δ → γ} {f : α → Option γ} {g : β → Option δ}
    (head : Carries lift first second) (tail : ∀ b, Carries raise (f (lift b)) (g b)) :
    Carries raise (first >>= f) (second >>= g) where
  result c found := by
    obtain ⟨a, begun, ended⟩ := Option.bind_eq_some_iff.mp found
    obtain ⟨b, here, rfl⟩ := head.result a begun
    obtain ⟨d, there, lifted⟩ := (tail b).result c ended
    exact ⟨d, by simp [here, there], lifted⟩

theorem ite {condition : Prop} [Decidable condition] {first' : Option α} {second' : Option β}
    (yes : condition → Carries lift first second) (no : ¬ condition → Carries lift first' second') :
    Carries lift (if condition then first else first') (if condition then second else second') := by
  by_cases holds : condition
  · rw [if_pos holds, if_pos holds]
    exact yes holds
  · rw [if_neg holds, if_neg holds]
    exact no holds

end Carries

end Carrying

namespace Cursor
variable {w : Nat} {σ τ α : Type} (p : Cursor w) (n : Nat)

theorem sweepFrom_carries {lift : τ → σ} {step : σ → Chunk → Option σ} {step' : τ → Chunk → Option τ}
    (steps : ∀ state chunk, Carries lift (step (lift state) chunk) (step' state chunk))
    (offset : Nat) (state : τ) :
    Carries lift (p.sweepFrom n step offset (lift state)) (p.sweepFrom n step' offset state) := by
  fun_induction sweepFrom p n step' offset state with
  | case1 offset state more chunk ih =>
      rw [sweepFrom, if_pos more]
      exact (steps state chunk).bind ih
  | case2 offset state last =>
      rw [sweepFrom, if_neg last]
      exact .some state

theorem sweep_carries {lift : τ → σ} {step : σ → Chunk → Option σ} {step' : τ → Chunk → Option τ}
    (steps : ∀ state chunk, Carries lift (step (lift state) chunk) (step' state chunk))
    (state : τ) : Carries lift (p.sweep n step (lift state)) (p.sweep n step' state) :=
  p.sweepFrom_carries n steps 0 state

theorem seekFrom_carries {visit visit' : Chunk → Option (Option α)}
    (visits : ∀ chunk, Carries id (visit chunk) (visit' chunk)) (offset : Nat) :
    Carries id (p.seekFrom n visit offset) (p.seekFrom n visit' offset) := by
  fun_induction seekFrom p n visit' offset with
  | case1 offset more chunk ih =>
      rw [seekFrom, if_pos more]
      refine (visits chunk).bind fun answer => ?_
      cases answer with
      | some found => exact .some _
      | none => exact ih
  | case2 offset last =>
      rw [seekFrom, if_neg last]
      exact .some _

theorem seek_carries {visit visit' : Chunk → Option (Option α)}
    (visits : ∀ chunk, Carries id (visit chunk) (visit' chunk)) :
    Carries id (p.seek n visit) (p.seek n visit') :=
  p.seekFrom_carries n visits 0

theorem seekBack_carries {visit visit' : Chunk → Option (Option α)}
    (visits : ∀ chunk, Carries id (visit chunk) (visit' chunk)) :
    Carries id (p.seekBack n visit) (p.seekBack n visit') := by
  fun_induction seekBack p n visit' with
  | case1 stop more chunk ih =>
      rw [seekBack, if_pos more]
      refine (visits chunk).bind fun answer => ?_
      cases answer with
      | some found => exact .some _
      | none => exact ih
  | case2 stop last =>
      rw [seekBack, if_neg last]
      exact .some _

end Cursor

section Pieces
variable {w : Nat} {σ τ : Type} {lift : τ → σ}

theorem eachIndex_carries {step : σ → Nat → Option σ} {step' : τ → Nat → Option τ}
    (steps : ∀ state i, Carries lift (step (lift state) i) (step' state i)) (state : τ)
    (start count : Nat) :
    Carries lift (eachIndex step (lift state) start count) (eachIndex step' state start count) := by
  induction count generalizing state start with
  | zero => exact .some state
  | succ count ih => exact (steps state start).bind fun state => ih state (start + 1)

theorem eachIndexBack_carries {step : σ → Nat → Option σ} {step' : τ → Nat → Option τ}
    (steps : ∀ state i, Carries lift (step (lift state) i) (step' state i)) (state : τ)
    (start count : Nat) :
    Carries lift (eachIndexBack step (lift state) start count)
      (eachIndexBack step' state start count) := by
  induction count generalizing state with
  | zero => exact .some state
  | succ count ih => exact (steps state (start + count)).bind ih

section
variable {part : σ → Nat → BitVec w → Option σ} {part' : τ → Nat → BitVec w → Option τ}
  {words : σ → Nat → Nat → Option σ} {words' : τ → Nat → Nat → Option τ}
  (parts : ∀ state index mask, Carries lift (part (lift state) index mask) (part' state index mask))
  (wholes : ∀ state start count,
    Carries lift (words (lift state) start count) (words' state start count))

include parts

theorem maskedHead_carries (state : τ) (p : Cursor w) :
    Carries lift (maskedHead part (lift state) p) (maskedHead part' state p) :=
  .ite (fun _ => .some state) fun _ => parts state 0 _

theorem maskedTail_carries (state : τ) (index : Nat) (stop : Cursor w) :
    Carries lift (maskedTail part (lift state) index stop) (maskedTail part' state index stop) :=
  .ite (fun _ => .some state) fun _ => parts state index _

include wholes

theorem maskedRun_carries (state : τ) (p : Cursor w) (n : Nat) :
    Carries lift (maskedRun part words (lift state) p n) (maskedRun part' words' state p n) := by
  refine .ite (fun _ => parts ..) fun _ => ?_
  refine (maskedHead_carries parts state p).bind fun state => ?_
  exact (wholes ..).bind fun state => maskedTail_carries parts state _ _

theorem maskedRunBack_carries (state : τ) (p : Cursor w) (n : Nat) :
    Carries lift (maskedRunBack part words (lift state) p n)
      (maskedRunBack part' words' state p n) := by
  refine .ite (fun _ => parts ..) fun _ => ?_
  refine (maskedTail_carries parts state _ _).bind fun state => ?_
  exact (wholes ..).bind fun state => maskedHead_carries parts state p

end

section
variable {piece : σ → Chunk → Option σ} {piece' : τ → Chunk → Option τ}
  {words : σ → Nat → Nat → Option σ} {words' : τ → Nat → Nat → Option τ}
  (pieces : ∀ state chunk, Carries lift (piece (lift state) chunk) (piece' state chunk))
  (wholes : ∀ state start count,
    Carries lift (words (lift state) start count) (words' state start count))

include pieces

theorem onChunk_carries (state : τ) (chunk : Chunk) :
    Carries lift (onChunk piece (lift state) chunk) (onChunk piece' state chunk) :=
  .ite (fun _ => .some state) fun _ => pieces state chunk

include wholes

theorem chunkedRun_carries (state : τ) (p : Cursor w) (n : Nat) :
    Carries lift (chunkedRun piece words (lift state) p n) (chunkedRun piece' words' state p n) := by
  refine (onChunk_carries pieces state _).bind fun state => ?_
  exact (wholes ..).bind fun state => onChunk_carries pieces state _

theorem chunkedRunBack_carries (state : τ) (stop : Cursor w) (n : Nat) :
    Carries lift (chunkedRunBack piece words (lift state) stop n)
      (chunkedRunBack piece' words' state stop n) := by
  refine (onChunk_carries pieces state _).bind fun state => ?_
  exact (wholes ..).bind fun state => onChunk_carries pieces state _

end

end Pieces

/-- A memory of which only the admitted words are there. -/
structure Fenced (μ : Type) where
  memory : μ
  admits : Address → Bool

variable {μ : Type} {w : Nat} [Memory μ w]

def fence (admits : Address → Bool) (m : μ) : Fenced μ := ⟨m, admits⟩

instance : Memory (Fenced μ) w where
  load f a := if f.admits a then Memory.load f.memory a else none
  store f a word := if f.admits a then (Memory.store f.memory a word).map (fence f.admits) else none

theorem load_fence (admits : Address → Bool) (m : μ) (a : Address) :
    Memory.load (fence admits m) a = if admits a then Memory.load m a else none := rfl

theorem store_fence (admits : Address → Bool) (m : μ) (a : Address) (word : BitVec w) :
    Memory.store (fence admits m) a word =
      if admits a then (Memory.store m a word).map (fence admits) else none := rfl

instance [LawfulMemory μ w] : LawfulMemory (Fenced μ) w where
  store_isSome f a word := by
    obtain ⟨m, admits⟩ := f
    have own := LawfulMemory.store_isSome m a word
    show (Memory.store (fence admits m) a word).isSome = (Memory.load (fence admits m) a).isSome
    rw [store_fence, load_fence]
    split
    · rw [Option.isSome_map, own]
    · rfl
  load_store {f f' a word} stored b := by
    obtain ⟨m, admits⟩ := f
    change Memory.store (fence admits m) a word = some f' at stored
    rw [store_fence] at stored
    split at stored
    case isFalse => cases stored
    case isTrue admitted =>
      obtain ⟨m', own, rfl⟩ := Option.map_eq_some_iff.mp stored
      show Memory.load (fence admits m') b =
        if b = a then some word else Memory.load (fence admits m) b
      rw [load_fence, load_fence, LawfulMemory.load_store own]
      by_cases same : b = a
      · rw [if_pos same, if_pos same, same, if_pos admitted]
      · rw [if_neg same, if_neg same]

theorem bit?_fence (admits : Address → Bool) (m : μ) (buffer : Nat) (position : Int) :
    bit? (fence admits m) buffer position =
      if admits ⟨buffer, position / w⟩ then bit? m buffer position else none := by
  rw [bit?, load_fence]
  split <;> rfl

theorem Holds.fence {m : μ} {p : Cursor w} {n : Nat} {admits : Address → Bool}
    (held : Holds m p n) (admitted : ∀ i < n, admits (p + i).address = true) :
    Holds (PackedBits.fence admits m) p n := by
  intro i below
  have word : (⟨p.buffer, (p.position + i) / w⟩ : Address) = (p + i).address := by
    rw [Cursor.address, Cursor.buffer_forward, ← Cursor.position_forward]
    refine congrArg _ ?_
    exact ((p + i).locate _).1.mpr ⟨by omega, by have := (p + i).bit_lt; omega⟩
  rw [bit?_fence, word, if_pos (admitted i below)]
  exact held i below

section
variable {ν : Type} [Memory ν w]

/-- Lifting a memory may take words of it away, and it changes none. -/
structure Confines (lift : μ → ν) : Prop where
  load (m : μ) (a : Address) : Carries id (Memory.load (lift m) a) (Memory.load m a)
  store (m : μ) (a : Address) (word : BitVec w) :
    Carries lift (Memory.store (lift m) a word) (Memory.store m a word)

def Parking.over (lift : μ → ν) (s : Parking μ w) : Parking ν w := ⟨lift s.memory, s.parked⟩

theorem Confines.parking {lift : μ → ν} (confined : Confines lift) :
    Confines (Parking.over lift : Parking μ w → Parking ν w) where
  load s a := by
    obtain ⟨buffer, word⟩ := a
    cases buffer with
    | zero => exact .same _
    | succ buffer => exact confined.load s.memory ⟨buffer, word⟩
  store s a word := by
    obtain ⟨buffer, place⟩ := a
    cases buffer with
    | zero =>
      let stored : Parking μ w := ⟨s.memory, s.parked.setIfInBounds place.toNat word⟩
      exact .ite (fun _ => .some stored) fun _ => .none
    | succ buffer =>
      let beside (memory : μ) : Parking μ w := ⟨memory, s.parked⟩
      exact (confined.store s.memory ⟨buffer, place⟩ word).bind fun memory => .some (beside memory)

end

theorem fence_confines (admits : Address → Bool) :
    Confines (fence admits : μ → Fenced μ) where
  load m a := by
    rw [load_fence]
    split
    · exact .same _
    · exact .none
  store m a word := by
    rw [store_fence]
    split
    · exact ⟨fun f found => Option.map_eq_some_iff.mp found⟩
    · exact .none

section
variable {ν : Type} [Memory ν w] {lift : μ → ν} (confined : Confines lift) (m : μ)

include confined

theorem blend_carries (a : Address) (value mask : BitVec w) :
    Carries lift (blend (lift m) a value mask) (blend m a value mask) :=
  (confined.load m a).bind fun _ => confined.store m a _

theorem readBits_carries (p : Cursor w) (n : Nat) :
    Carries id (readBits (lift m) p n) (readBits m p n) := by
  refine (confined.load m p.address).bind fun low => ?_
  refine .ite (fun _ => .some _) fun _ => ?_
  exact (confined.load m p.nextAddress).bind fun _ => .some _

theorem writeBits_carries (p : Cursor w) (n : Nat) (value : BitVec w) :
    Carries lift (writeBits (lift m) p n value) (writeBits m p n value) := by
  refine .ite (fun _ => blend_carries confined m ..) fun _ => ?_
  exact (blend_carries confined m ..).bind fun m => blend_carries confined m ..

theorem readBit_carries (p : Cursor w) :
    Carries id (readBit (lift m) p) (readBit m p) :=
  (confined.load m p.address).bind fun _ => .some _

theorem writeBit_carries (p : Cursor w) (value : Bool) :
    Carries lift (writeBit (lift m) p value) (writeBit m p value) :=
  (confined.load m p.address).bind fun _ => confined.store m ..

theorem hits_carries (p : Cursor w) (value : Bool) (chunk : Chunk) :
    Carries id (hits (lift m) p value chunk) (hits m p value chunk) :=
  (readBits_carries confined m ..).bind fun _ => .some _

theorem firstHit_carries (p : Cursor w) (value : Bool) (chunk : Chunk) :
    Carries id (firstHit (lift m) p value chunk) (firstHit m p value chunk) :=
  (hits_carries confined m ..).bind fun _ => .some _

theorem laneHit_carries (p : Cursor w) (value : Bool) (offset : Nat) :
    Carries id (laneHit (lift m) p value offset) (laneHit m p value offset) := by
  refine .bind (p.sweepFrom_carries _ (fun marks chunk => ?_) offset 0#w) fun _ => .some _
  exact (hits_carries confined m ..).bind fun word => .some _

theorem passLanes_carries (p : Cursor w) (n : Nat) (value : Bool) (offset : Nat) :
    Carries id (passLanes (lift m) p n value offset) (passLanes m p n value offset) := by
  fun_induction passLanes m p n value offset with
  | case1 offset positive room ih =>
      rw [passLanes, if_pos room]
      refine (laneHit_carries confined m ..).bind fun hit => ?_
      exact .ite (fun _ => .some _) fun _ => ih
  | case2 offset positive short =>
      rw [passLanes, if_neg short]
      exact .some _

theorem find_carries (p : Cursor w) (n : Nat) (value : Bool) :
    Carries id (find (lift m) p n value) (find m p n value) := by
  refine .bind (p.seekFrom_carries _ (firstHit_carries confined m p value) 0) fun early => ?_
  cases early with
  | some found => exact .some _
  | none =>
      refine (passLanes_carries confined m ..).bind fun offset => ?_
      exact (p.seekFrom_carries n (firstHit_carries confined m p value) offset).bind fun _ => .some _

theorem findLast_carries (p : Cursor w) (n : Nat) (value : Bool) :
    Carries id (findLast (lift m) p n value) (findLast m p n value) := by
  refine .bind (p.seekBack_carries n fun chunk => ?_) fun _ => .some _
  exact (hits_carries confined m ..).bind fun _ => .some _

theorem addOnes_carries (p : Cursor w) (stop offset total : Nat) :
    Carries id (addOnes (lift m) p stop offset total) (addOnes m p stop offset total) := by
  refine p.sweepFrom_carries stop (fun total chunk => ?_) offset total
  exact (readBits_carries confined m ..).bind fun word => .some _

theorem addLanes_carries (p : Cursor w) (n offset total : Nat) :
    Carries id (addLanes (lift m) p n offset total) (addLanes m p n offset total) := by
  fun_induction addLanes m p n offset total with
  | case1 offset total positive room ih =>
      rw [addLanes, if_pos room]
      exact (addOnes_carries confined m ..).bind ih
  | case2 offset total positive short =>
      rw [addLanes, if_neg short]
      exact .some _

theorem count_carries (p : Cursor w) (n : Nat) (value : Bool) :
    Carries id (count (lift m) p n value) (count m p n value) := by
  refine (addOnes_carries confined m ..).bind fun first => ?_
  refine (addLanes_carries confined m ..).bind fun ⟨offset, total⟩ => ?_
  exact (addOnes_carries confined m ..).bind fun ones => .some _

theorem readPair_carries (first second : Cursor w) (chunk : Chunk) :
    Carries id (readPair (lift m) first second chunk) (readPair m first second chunk) :=
  (readBits_carries confined m ..).bind fun _ => (readBits_carries confined m ..).bind fun _ => .some _

theorem transform_carries (op : BitOp) (first : Cursor w) (n : Nat) (second target : Cursor w) :
    Carries (Prod.map lift id) (transform (lift m) op first n second target)
      (transform m op first n second target) := by
  refine .ite (fun _ => .some (m, target)) fun _ => ?_
  refine .bind (.ite (fun _ => ?_) fun _ => ?_) fun m => .some (m, target + n)
  · refine maskedRun_carries (fun m _ _ => ?_) (fun m => eachIndex_carries (fun m _ => ?_) m) m first n
    · refine (confined.load m _).bind fun _ => (confined.load m _).bind fun _ => ?_
      exact blend_carries confined m ..
    · refine (confined.load m _).bind fun _ => (confined.load m _).bind fun _ => ?_
      exact confined.store m ..
  · refine chunkedRun_carries (fun m _ => ?_) (fun m _ => eachIndex_carries (fun m _ => ?_) m 0) m
      target n
    · exact (readPair_carries confined m ..).bind fun _ => writeBits_carries confined m ..
    · exact (readPair_carries confined m ..).bind fun _ => confined.store m ..

theorem anyOf_carries (op : BitOp) (first : Cursor w) (n : Nat) (second : Cursor w) :
    Carries id (anyOf (lift m) op first n second) (anyOf m op first n second) := by
  refine .bind (first.seek_carries n fun chunk => ?_) fun _ => .some _
  exact (readPair_carries confined m ..).bind fun _ => .some _

theorem unlikeInPlace_carries (first second : Cursor w) (chunk : Chunk) :
    Carries id (unlikeInPlace (lift m) first second chunk)
      (unlikeInPlace m first second chunk) :=
  (confined.load m _).bind fun _ => (confined.load m _).bind fun _ => .some _

theorem unlikeShifted_carries (first second : Cursor w) (chunk : Chunk) :
    Carries id (unlikeShifted (lift m) first second chunk)
      (unlikeShifted m first second chunk) :=
  (readPair_carries confined m ..).bind fun _ => .some _

theorem equal_carries (first : Cursor w) (n : Nat) (second : Cursor w) :
    Carries id (equal (lift m) first n second) (equal m first n second) := by
  refine .bind (first.seek_carries n fun chunk => ?_) fun _ => .some _
  split
  · exact unlikeInPlace_carries confined m ..
  · exact unlikeShifted_carries confined m ..

theorem fill_carries (p : Cursor w) (n : Nat) (value : Bool) :
    Carries lift (fill (lift m) p n value) (fill m p n value) := by
  refine .ite (fun _ => .some m) fun _ => ?_
  refine maskedRun_carries (fun m _ _ => blend_carries confined m ..) (fun m start count => ?_) m p n
  exact eachIndex_carries (fun m _ => confined.store m ..) m start count

theorem flip_carries (p : Cursor w) (n : Nat) :
    Carries lift (flip (lift m) p n) (flip m p n) := by
  refine .ite (fun _ => .some m) fun _ => ?_
  refine maskedRun_carries (fun m _ _ => ?_) (fun m start count => ?_) m p n
  · exact (confined.load m _).bind fun _ => confined.store m ..
  · refine eachIndex_carries (fun m _ => ?_) m start count
    exact (confined.load m _).bind fun _ => confined.store m ..

theorem moveMasked_carries (source target : Cursor w) (index : Nat) (mask : BitVec w) :
    Carries lift (moveMasked source target (lift m) index mask)
      (moveMasked source target m index mask) :=
  (confined.load m _).bind fun _ => blend_carries confined m ..

theorem moveWords_carries (source target : Cursor w) (start count : Nat) :
    Carries lift (moveWords source target (lift m) start count)
      (moveWords source target m start count) := by
  have loads : Carries id (loadWords source (lift m) start count) (loadWords source m start count) :=
    eachIndex_carries (fun words index =>
      (confined.load m (source.wordAddress index)).bind fun word => .some (words.push word))
      #[] start count
  refine loads.bind fun words => eachIndex_carries (fun m i => ?_) m 0 count
  exact (Carries.same words[i]?).bind fun _ => confined.store m ..

theorem moveChunk_carries (source target : Cursor w) (chunk : Chunk) :
    Carries lift (moveChunk source target (lift m) chunk) (moveChunk source target m chunk) :=
  (readBits_carries confined m ..).bind fun _ => writeBits_carries confined m ..

theorem feedWord_carries (source target : Cursor w) (index : Nat) :
    Carries lift (feedWord source target (lift m) index) (feedWord source target m index) :=
  (confined.load m _).bind fun _ => (confined.load m _).bind fun _ => confined.store m ..

theorem copy_carries (source : Cursor w) (n : Nat) (target : Cursor w) :
    Carries (Prod.map lift id) (copy (lift m) source n target) (copy m source n target) := by
  refine .ite (fun _ => .some (m, target)) fun _ => ?_
  refine .bind (.ite (fun _ => ?_) fun _ => ?_) fun m => .some (m, target + n)
  · exact maskedRun_carries (moveMasked_carries confined · source target)
      (moveWords_carries confined · source target) m source n
  · exact chunkedRun_carries (moveChunk_carries confined · source target)
      (fun m _ => eachIndex_carries (feedWord_carries confined · _ _) m 0) m target n

theorem copyBackward_carries (source : Cursor w) (n : Nat) (stop : Cursor w) :
    Carries (Prod.map lift id) (copyBackward (lift m) source n stop)
      (copyBackward m source n stop) := by
  refine .ite (fun _ => .some (m, stop)) fun _ => ?_
  refine .bind (.ite (fun _ => ?_) fun _ => ?_) fun m => .some (m, stop - n)
  · exact maskedRunBack_carries (moveMasked_carries confined · source (stop - n))
      (moveWords_carries confined · source (stop - n)) m source n
  · exact chunkedRunBack_carries (moveChunk_carries confined · source (stop - n))
      (fun m _ => eachIndexBack_carries (feedWord_carries confined · _ _) m 0) m stop n

theorem swapChunk_carries (first second : Cursor w) (chunk : Chunk) :
    Carries lift (swapChunk first second (lift m) chunk) (swapChunk first second m chunk) := by
  refine (readBits_carries confined m ..).bind fun _ => ?_
  refine (readBits_carries confined m ..).bind fun _ => ?_
  exact (writeBits_carries confined m ..).bind fun m => writeBits_carries confined m ..

theorem swapRanges_carries (first : Cursor w) (n : Nat) (second : Cursor w) :
    Carries (Prod.map lift id) (swapRanges (lift m) first n second)
      (swapRanges m first n second) := by
  refine .ite (fun _ => .some (m, second)) fun _ => ?_
  refine .bind (.ite (fun _ => ?_) fun _ => ?_) fun m => .some (m, second + n)
  · refine maskedRun_carries (fun m _ _ => ?_) (fun m => eachIndex_carries (fun m _ => ?_) m) m first n
    · refine (confined.load m _).bind fun _ => (confined.load m _).bind fun _ => ?_
      exact (confined.store m ..).bind fun m => confined.store m ..
    · refine (confined.load m _).bind fun _ => (confined.load m _).bind fun _ => ?_
      exact (confined.store m ..).bind fun m => confined.store m ..
  · exact chunkedRun_carries (swapChunk_carries confined · first second)
      (fun m _ => eachIndex_carries (fun m _ => swapChunk_carries confined m ..) m 0) m first n

theorem reverse_carries (p : Cursor w) (n : Nat) :
    Carries lift (reverse (lift m) p n) (reverse m p n) := by
  refine p.flush.sweep_carries (n / 2) (fun m chunk => ?_) m
  refine (readBits_carries confined m ..).bind fun _ => ?_
  refine (readBits_carries confined m ..).bind fun _ => ?_
  exact (writeBits_carries confined m ..).bind fun m => writeBits_carries confined m ..

theorem rotateParked_carries (p : Cursor w) (left right : Nat) :
    Carries lift (rotateParked (lift m) p left right) (rotateParked m p left right) := by
  have beside := confined.parking
  let s : Parking μ w := ⟨m, Array.replicate parkedWords 0#w⟩
  refine .ite (fun _ => ?_) fun _ => ?_
  · refine (copy_carries beside s ..).bind fun ⟨s, _⟩ => ?_
    refine (copy_carries beside s ..).bind fun ⟨s, _⟩ => ?_
    exact (copy_carries beside s ..).bind fun ⟨s, _⟩ => .some s.memory
  · refine (copy_carries beside s ..).bind fun ⟨s, _⟩ => ?_
    refine (copyBackward_carries beside s ..).bind fun ⟨s, _⟩ => ?_
    exact (copy_carries beside s ..).bind fun ⟨s, _⟩ => .some s.memory

theorem rotateBlocks_carries (p : Cursor w) (left right : Nat) :
    Carries lift (rotateBlocks (lift m) p left right)
      (rotateBlocks m p left right) := by
  fun_induction rotateBlocks m p left right with
  | case1 m p left right done =>
      rw [rotateBlocks, if_pos done]
      exact .some m
  | case2 m p left right more small =>
      rw [rotateBlocks, if_neg more, if_pos small]
      exact rotateParked_carries confined m ..
  | case3 m p left right more large short ih =>
      rw [rotateBlocks, if_neg more, if_neg large, if_pos short]
      exact (swapRanges_carries confined m ..).bind fun ⟨m, _⟩ => ih m
  | case4 m p left right more large long ih =>
      rw [rotateBlocks, if_neg more, if_neg large, if_neg long]
      exact (swapRanges_carries confined m ..).bind fun ⟨m, _⟩ => ih m

theorem rotate_carries (p : Cursor w) (middle n : Nat) :
    Carries (Prod.map lift id) (rotate (lift m) p middle n)
      (rotate m p middle n) :=
  (rotateBlocks_carries confined m ..).bind fun m => .some (m, p + (n - middle))

theorem findRun_carries (p : Cursor w) (n : Nat) (value : Bool) (k i : Nat) :
    Carries id (findRun (lift m) p n value k i) (findRun m p n value k i) := by
  fun_induction findRun m p n value k i with
  | case1 i more ih =>
      rw [findRun, if_pos more]
      refine (find_carries confined m ..).bind fun start => ?_
      refine .ite (fun _ => .some _) fun _ => ?_
      refine (find_carries confined m ..).bind fun length => ?_
      exact .ite (fun _ => .some _) fun _ => ih start length
  | case2 i last =>
      rw [findRun, if_neg last]
      exact .some _

theorem findNeedle_carries (p : Cursor w) (n : Nat) (q : Cursor w) (k stop : Nat) (lead : Bool)
    (head : BitVec w) (width period i : Nat) :
    Carries id (findNeedle (lift m) p n q k stop lead head width period i)
      (findNeedle m p n q k stop lead head width period i) := by
  fun_induction findNeedle m p n q k stop lead head width period i with
  | case1 i more ihSkip ihNext =>
      rw [findNeedle, if_pos more]
      refine (find_carries confined m ..).bind fun start => ?_
      refine .ite (fun _ => .some _) fun _ => ?_
      refine (readBits_carries confined m ..).bind fun word => ?_
      refine .ite (fun _ => ?_) fun _ => ihNext start
      refine (equal_carries confined m ..).bind fun rest => ?_
      exact .ite (fun _ => .some _) fun _ => ihSkip start
  | case2 i last =>
      rw [findNeedle, if_neg last]
      exact .some _

theorem search_carries (p : Cursor w) (n : Nat) (q : Cursor w) (k : Nat) :
    Carries id (search (lift m) p n q k) (search m p n q k) := by
  refine .ite (fun _ => .some _) fun _ => ?_
  refine (readBit_carries confined m q).bind fun lead => ?_
  refine .ite (fun _ => find_carries confined m ..) fun _ => ?_
  refine (count_carries confined m ..).bind fun unlike => ?_
  refine .ite (fun _ => findRun_carries confined m ..) fun _ => ?_
  exact (readBits_carries confined m ..).bind fun head => findNeedle_carries confined m ..

theorem arrangeWord_carries (p : Cursor w) (n : Nat) (backward : Bool) :
    Carries (Prod.map lift id) (arrangeWord (lift m) p n backward)
      (arrangeWord m p n backward) := by
  refine (readBits_carries confined m ..).bind fun word => ?_
  exact (writeBits_carries confined m ..).bind fun m => .some (m, _)

theorem findPivot_carries (p : Cursor w) (small : Bool) (i : Nat) :
    Carries id (findPivot (lift m) p small i) (findPivot m p small i) := by
  induction i with
  | zero => exact .some _
  | succ i ih =>
      rw [findPivot, findPivot]
      refine (readBit_carries confined m ..).bind fun lower => .ite (fun _ => ?_) fun _ => ih
      exact (readBit_carries confined m ..).bind fun upper => .ite (fun _ => ih) fun _ => .some _

theorem skipSmall_carries (p : Cursor w) (small : Bool) (j : Nat) :
    Carries id (skipSmall (lift m) p small j) (skipSmall m p small j) := by
  induction j with
  | zero =>
      refine (readBit_carries confined m p).bind fun bit => ?_
      exact .ite (fun _ => .none) fun _ => .some _
  | succ j ih =>
      refine (readBit_carries confined m ..).bind fun bit => ?_
      exact .ite (fun _ => ih) fun _ => .some _

theorem arrangeRun_carries (p : Cursor w) (n : Nat) (backward : Bool) :
    Carries (Prod.map lift id) (arrangeRun (lift m) p n backward)
      (arrangeRun m p n backward) := by
  refine (findPivot_carries confined m ..).bind fun found => ?_
  cases found with
  | none => exact (reverse_carries confined m ..).bind fun m => .some (m, false)
  | some pivot =>
      refine (skipSmall_carries confined m ..).bind fun last => ?_
      refine (writeBit_carries confined m ..).bind fun m => ?_
      refine (writeBit_carries confined m ..).bind fun m => ?_
      exact (reverse_carries confined m ..).bind fun m => .some (m, true)

theorem arrange_carries (p : Cursor w) (n : Nat) (backward : Bool) :
    Carries (Prod.map lift id) (arrange (lift m) p n backward)
      (arrange m p n backward) := by
  refine .ite (fun _ => .some (m, false)) fun _ => ?_
  exact .ite (fun _ => arrangeWord_carries confined m ..) fun _ => arrangeRun_carries confined m ..

end

end PackedBits
