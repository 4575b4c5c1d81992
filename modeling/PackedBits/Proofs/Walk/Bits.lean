import PackedBits.Proofs.Run.Locality
import PackedBits.Proofs.Walk.Values

/-! The walks over every bit of a container are queues of its positions. What they hand out is the
value at the place or a reference to it; references to different places are different, so each flips
a bit of its own. -/
namespace PackedBits

section
variable {w : Nat} [HasBits w] {s : Span w} {a b : Nat}

namespace RefWalk

def ends (s : Span w) (walk : RefWalk w) : Nat × Nat :=
  ((walk.front - s.first).toNat, (walk.back - s.first).toNat)

theorem ranged (s : Span w) :
    Ranged s.len (between s) (ends s) fun i => (s.first + i).ref where
  ends _ := Prod.ext (toNat_forward_sub s.first _) (toNat_forward_sub s.first _)
  next more _ := next_between more
  nextBack more _ := nextBack_between more
  met {a} := next_met s a
  metBack {a} := nextBack_met s a
  hint {a b} _ := congrArg (fun n => EStateM.Result.ok (SizeHint.exact n) (between s a b))
    (toNat_forward_sub_forward s.first a b)
  length {a b} _ := congrArg (fun n => EStateM.Result.ok n (between s a b))
    (toNat_forward_sub_forward s.first a b)

theorem queue (s : Span w) :
    TwoWayWalk.IsQueue (Ranged.Inside s.len (between s))
      (Ranged.pending (ends s) fun i => (s.first + i).ref) :=
  (ranged s).queue (skipping_answers (ranged s).next_answers) fun _ => rfl

end RefWalk

namespace OwnedWalk
variable {γ : Type} [Container γ w] {container : γ}

def ends (walk : OwnedWalk γ) : Nat × Nat := (walk.front, walk.back)

theorem valueAt_eq (held : (Container.span container).Held) {i : Nat}
    (below : i < (Container.span container).len) (a b : Nat) :
    valueAt i ⟨container, a, b⟩ = .ok ((Container.span container).bit i) ⟨container, a, b⟩ :=
  Attempt.ask_ok (Span.bitAt_eq held below)

theorem ranged (held : (Container.span container).Held) :
    Ranged (Container.span container).len (OwnedWalk.mk container) ends
      (Container.span container).bit where
  ends _ := rfl
  next {a b} more inside := by
    show next ⟨container, a, b⟩ = _
    rw [next, Attempt.get_bind_apply, if_neg (Nat.ne_of_lt more)]
    exact Attempt.bind_apply (valueAt_eq held (Nat.lt_of_lt_of_le more inside) a b)
  nextBack {a b} more inside := by
    show nextBack ⟨container, a, b⟩ = _
    have below : b - 1 < (Container.span container).len := by omega
    rw [nextBack, Attempt.get_bind_apply, if_neg (Nat.ne_of_lt more)]
    exact Attempt.bind_apply (valueAt_eq held below a (b - 1))
  met {a} := by
    show next ⟨container, a, a⟩ = _
    rw [next, Attempt.get_bind_apply, if_pos rfl]
    rfl
  metBack {a} := by
    show nextBack ⟨container, a, a⟩ = _
    rw [nextBack, Attempt.get_bind_apply, if_pos rfl]
    rfl
  hint _ := rfl
  length _ := rfl

theorem queue (held : (Container.span container).Held) :
    TwoWayWalk.IsQueue (Ranged.Inside (Container.span container).len (OwnedWalk.mk container))
      (Ranged.pending ends (Container.span container).bit) :=
  (ranged held).queue (skipping_answers (ranged held).next_answers) fun _ => rfl

end OwnedWalk

omit [HasBits w] in
theorem ref_forward_inj (p : Cursor w) {i j : Nat} : (p + i).ref = (p + j).ref ↔ i = j := by
  refine ⟨fun same => (Cursor.forward_inj p).mp ?_, fun same => same ▸ rfl⟩
  obtain ⟨address, mask⟩ := BitRef.mk.inj same
  obtain ⟨buffer, word⟩ := Address.mk.inj address
  have lit := getLsbD_mask (p + i) (p + j).bit
  rw [mask, getLsbD_mask, decide_eq_true rfl] at lit
  have bit : (p + i).bit = (p + j).bit := (of_decide_eq_true lit.symm).symm
  cases at_i : p + i
  cases at_j : p + j
  simp_all

def Span.flipEach (refs : List (BitRef w)) : Attempt (Span w) Unit :=
  forM refs fun r => change r.flip

theorem mapIdx_flip_cons {bits : List Bool} {place : Nat} {places : List Nat}
    (apart : place ∉ places) {bit : Bool} (there : bits[place]? = some bit) :
    (bits.set place !bit).mapIdx (fun i bit => bit ^^ decide (i ∈ places)) =
      bits.mapIdx fun i bit => bit ^^ decide (i ∈ place :: places) := by
  obtain ⟨below, rfl⟩ := List.getElem?_eq_some_iff.mp there
  refine List.ext_getElem (by simp) fun i _ _ => ?_
  rw [List.getElem_mapIdx, List.getElem_mapIdx, List.getElem_set]
  by_cases here : place = i
  · subst here
    simp [apart]
  · simp [here, Ne.symm here]

/-- Flipping through references to different bits flips each of these bits. -/
theorem Span.flips_do (held : s.Held) {places : List Nat} (distinct : places.Nodup)
    (inside : ∀ i ∈ places, i < s.len) {p : Cursor w} (start : s.first = p) :
    s.Does (flipEach (places.map fun i => (p + i).ref))
      (.ok ((), s.toList.mapIdx fun i bit => bit ^^ decide (i ∈ places))) := by
  induction places generalizing s with
  | nil =>
      have none :
          s.toList.mapIdx (fun i bit => bit ^^ decide (i ∈ ([] : List Nat))) = s.toList := by
        refine List.ext_getElem (by simp) fun i _ _ => ?_
        simp
      rw [none]
      exact .of_value ⟨Within.refl s, rfl, rfl⟩
  | cons place places ih =>
      obtain ⟨apart, distinct⟩ := List.nodup_cons.mp distinct
      have below : place < s.len := inside place List.mem_cons_self
      have lent : s.bitRef place = .ok (p + place).ref := by
        rcases s.bitRef_cases place with ⟨-, answer⟩ | ⟨above, -⟩
        · rw [answer, start]
        · exact absurd below (Nat.not_lt.mpr above)
      have first := (flip_does held place).asked lent
      rw [atBit_inside below] at first
      rw [List.map_cons, flipEach, List.forM_cons]
      refine first.andThen fun s' within list => ?_
      -- A flip leaves the start and the length, so the references that follow still hold good.
      have rest := ih (within.held held) distinct
        (fun i member => within.len.symm ▸ inside i (List.mem_cons_of_mem place member))
        ((congrArg (Cursor.ofPosition 0) within.start).trans start)
      rwa [list, mapIdx_flip_cons apart (getElem?_toList_of_lt below)] at rest

/-- What the walks over a container answer to some calls: the value, the reference or the value of
the container taken over that is at each place they hand out. -/
structure Host.HandsOut (host : Host w) (calls : List TwoWayWalk.Call)
    (replies : List (Walk.Reply Nat)) : Prop where
  values : ∃ walk, TwoWayWalk.converse calls host.span.walk =
    .ok (replies.map (.map host.span.bit)) walk
  references : ∃ walk, TwoWayWalk.converse calls host.span.walkRefs =
    .ok (replies.map (.map fun i => (host.span.first + i).ref)) walk
  owned : ∃ walk, TwoWayWalk.converse calls (OwnedWalk.of host.value) =
    .ok (replies.map (.map host.span.bit)) walk

theorem Host.handsOut (host : Host w) (calls : List TwoWayWalk.Call) :
    host.HandsOut calls (Queue.serveAll calls (List.range host.bits.length)).1 := by
  rw [bits, Span.length_toList]
  refine ⟨?_, ?_, (OwnedWalk.ranged host.held).converse (OwnedWalk.queue host.held) calls⟩
  · rw [BitWalk.walk_eq]
    exact (BitWalk.ranged host.held).converse (BitWalk.queue host.held) calls
  · rw [RefWalk.walkRefs_eq]
    exact (RefWalk.ranged host.span).converse (RefWalk.queue host.span) calls

/-- Whatever a walk over a container is asked, in any order, its replies are those of the queue of
the positions. What has come from the front, what is left and what has come from the back stand in
the order of the positions; once the ends have met nothing more comes. The references handed out are
those to the bits at their positions, all different, and flipping through them in any order flips
these bits and no other. -/
theorem positions_are_handed_out_from_both_ends {w : Nat} [HasBits w] (host : Host w)
    (calls : List TwoWayWalk.Call) :
    let positions := List.range host.bits.length
    let replies := (Queue.serveAll calls positions).1
    let left := (Queue.serveAll calls positions).2
    let front := (Queue.handedAll calls replies).1
    let back := (Queue.handedAll calls replies).2
    let reference := fun i => (host.span.first + i).ref
    host.HandsOut calls replies ∧
    (front ++ left ++ back.reverse).Sublist positions ∧
    (left = [] → ∀ later, Queue.handedAll (calls ++ later)
      (Queue.serveAll (calls ++ later) positions).1 = (front, back)) ∧
    (∀ i ∈ front ++ back, host.span.bitRef i = .ok (reference i)) ∧
    ((front ++ back).map reference).Nodup ∧
    ∀ places : List Nat, places.Perm (front ++ back) →
      host.Does (Span.flipEach (places.map reference))
        (.ok ((), host.bits.mapIdx fun i bit => bit ^^ decide (i ∈ front ++ back))) := by
  intro positions replies left front back reference
  have ordered : (front ++ left ++ back.reverse).Sublist positions :=
    Queue.serveAll_sublist calls positions
  have outer : (front ++ back.reverse).Sublist positions :=
    ((List.sublist_append_left front left).append_right back.reverse).trans ordered
  have same : (front ++ back).Perm (front ++ back.reverse) :=
    (List.reverse_perm back).symm.append_left front
  have distinct : (front ++ back).Nodup := same.nodup_iff.mpr (outer.nodup List.nodup_range)
  have inside : ∀ i ∈ front ++ back, i < host.span.len := by
    intro i member
    have known := List.mem_range.mp (outer.subset (same.mem_iff.mp member))
    rwa [Host.bits, Span.length_toList] at known
  refine ⟨host.handsOut calls, ordered, fun met later => Queue.handedAll_met met later, ?_, ?_, ?_⟩
  · intro i member
    rcases host.span.bitRef_cases i with ⟨-, answer⟩ | ⟨above, -⟩
    · exact answer
    · exact absurd (inside i member) (Nat.not_lt.mpr above)
  · exact List.pairwise_map.mpr
      (distinct.imp fun differ alike => differ ((ref_forward_inj host.span.first).mp alike))
  · intro places order
    have flipped := Span.flips_do host.held (order.nodup_iff.mpr distinct)
      (fun i member => inside i (order.mem_iff.mp member)) rfl
    simp only [order.mem_iff] at flipped
    exact Host.does_of_span flipped

/-- Seven bits across two bytes, stepped and jumped through from both ends until the ends meet. All
but the two positions that were jumped over have come out, and flipping them leaves these two. -/
theorem positions_are_handed_out_across_two_bytes :
    let host : Host 8 := .slice ⟨#[0xA5#8, 0x5A#8], 5, 7⟩ (show 5 + 7 ≤ 2 * 8 by decide)
    let calls : List TwoWayWalk.Call :=
      [.front .next, .nextBack, .nthBack 1, .front .hint, .front (.nth 1), .length, .nextBack,
        .front (.nth (2 ^ 64 - 1)), .nthBack (2 ^ 64 - 1)]
    let reference := fun i => (host.span.first + i).ref
    (∃ walk, TwoWayWalk.converse calls host.span.walkRefs = .ok
      [.item (some (reference 0)), .item (some (reference 6)), .item (some (reference 4)),
        .hint ⟨3, some 3⟩, .item (some (reference 2)), .size 1, .item (some (reference 3)),
        .item none, .item none] walk) ∧
      host.Does (Span.flipEach ([3, 6, 0, 4, 2].map reference))
        (.ok ((), [false, false, false, true, false, false, false])) := by
  intro host calls reference
  have bits : host.bits = [true, false, true, false, true, false, true] := by decide
  have replies : (Queue.serveAll calls (List.range host.bits.length)).1 =
      [.item (some 0), .item (some 6), .item (some 4), .hint ⟨3, some 3⟩, .item (some 2), .size 1,
        .item (some 3), .item none, .item none] := by
    rw [bits]
    rfl
  obtain ⟨answered, -, -, -, -, flips⟩ := positions_are_handed_out_from_both_ends host calls
  rw [replies] at answered flips
  refine ⟨answered.references, ?_⟩
  have flipped := flips [3, 6, 0, 4, 2] (by decide)
  rw [bits] at flipped
  exact flipped

end

end PackedBits
