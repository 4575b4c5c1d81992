import Mathlib.Data.Finset.Dedup
import Mathlib.Data.Finset.SDiff
import PackedBits.Proofs.Run.Ranking
import PackedBits.Proofs.Run.SetOperations

/-! Questions about two sets of positions. Whether one container is inside another one or meets it
is asked of the bits that both have, and what one has past the end of the other is scanned. The
answers are those about the finite sets of the set positions, and thereby those that the difference
and the intersection give, which are made another way. -/
namespace PackedBits

theorem OnList.getD_pointwise {op : BitOp} (clears : ∀ bit, op.onBits false bit = false)
    (bits other : List Bool) (i : Nat) :
    (pointwise op bits.length bits other).getD i false =
      op.onBits (bits.getD i false) (other.getD i false) := by
  rw [pointwise, List.getD_eq_getElem?_getD, List.getElem?_map]
  by_cases below : i < bits.length
  · rw [List.getElem?_range below]
    rfl
  · have missing : bits.getD i false = false := by
      rw [List.getD_eq_getElem?_getD, List.getElem?_eq_none (Nat.le_of_not_lt below)]
      rfl
    have outside : (List.range bits.length)[i]? = none :=
      List.getElem?_eq_none (by simpa using below)
    rw [outside, missing, clears]
    rfl

namespace Span
variable {w : Nat} {s other result : Span w}

def support (s : Span w) : Finset Nat := s.places.toFinset

theorem mem_support {i : Nat} : i ∈ s.support ↔ i < s.len ∧ s.bit i = true := by
  rw [support, List.mem_toFinset, ← placesOf_true, mem_placesOf]

theorem mem_support_iff_getD {i : Nat} : i ∈ s.support ↔ s.toList.getD i false = true := by
  rw [support, List.mem_toFinset, mem_places, List.getD_eq_getElem?_getD]
  cases s.toList[i]? with
  | none => decide
  | some bit => exact Option.some_inj

theorem support_difference
    (list : result.toList = OnList.pointwise .andNot s.toList.length s.toList other.toList) :
    result.support = s.support \ other.support := by
  ext i
  rw [Finset.mem_sdiff, mem_support_iff_getD, mem_support_iff_getD, mem_support_iff_getD, list,
    OnList.getD_pointwise fun _ => rfl, BitOp.onBits, Bool.and_eq_true, Bool.not_eq_true',
    Bool.not_eq_true]

theorem support_intersection
    (list : result.toList = OnList.pointwise .and s.toList.length s.toList other.toList) :
    result.support = s.support ∩ other.support := by
  ext i
  rw [Finset.mem_inter, mem_support_iff_getD, mem_support_iff_getD, mem_support_iff_getD, list,
    OnList.getD_pointwise fun _ => rfl, BitOp.onBits, Bool.and_eq_true]

theorem support_subset_iff (s other : Span w) : s.support ⊆ other.support ↔
    (¬ ∃ i < min s.len other.len, BitOp.andNot.onBits (s.bit i) (other.bit i) = true) ∧
      ¬ ∃ i < s.len - min s.len other.len, s.bit (min s.len other.len + i) = true := by
  constructor
  · intro inside
    constructor
    · rintro ⟨i, below, yields⟩
      rw [BitOp.onBits, Bool.and_eq_true, Bool.not_eq_true'] at yields
      have member := mem_support.mp (inside (mem_support.mpr ⟨by omega, yields.1⟩))
      exact Bool.false_ne_true (yields.2.symm.trans member.2)
    · -- A place past the shorter one is past the other one, if it is in the first.
      rintro ⟨i, below, set⟩
      have member := mem_support.mp (inside (mem_support.mpr ⟨by omega, set⟩))
      omega
  · rintro ⟨paired, alone⟩ i member
    obtain ⟨below, set⟩ := mem_support.mp member
    by_cases both : i < min s.len other.len
    · cases partner : other.bit i with
      | true => exact mem_support.mpr ⟨by omega, partner⟩
      | false => exact absurd ⟨i, both, by rw [set, partner]; rfl⟩ paired
    · refine absurd ⟨i - min s.len other.len, by omega, ?_⟩ alone
      rwa [Nat.add_sub_cancel' (Nat.le_of_not_lt both)]

variable [HasBits w]

theorem any_eq_nonempty (held : s.Held) : s.any = .ok (decide s.support.Nonempty) := by
  rw [any_eq held, placesOf_true, support]
  refine congrArg Except.ok (decide_eq_decide.mpr ?_)
  rw [List.length_pos_iff, List.toFinset_nonempty_iff]

theorem negated_nonempty (positions : Finset Nat) :
    (do return !(← Except.ok (decide positions.Nonempty)) : Query Bool) =
      .ok (decide (positions = ∅)) := by
  rw [decide_eq_decide.mpr Finset.nonempty_iff_ne_empty, decide_not]
  exact congrArg Except.ok (Bool.not_not _)

theorem none_eq_empty (held : s.Held) : s.none = .ok (decide (s.support = ∅)) := by
  rw [none, any_eq_nonempty held]
  exact negated_nonempty s.support

theorem anyOf_common (held : s.Held) (heldOther : other.Held) (op : BitOp) :
    s.readBoth other (fun m p q => anyOf m op p (min s.len other.len) q) =
      .ok (decide (∃ i < min s.len other.len, op.onBits (s.bit i) (other.bit i) = true)) := by
  have words : (s.beside other).words 0 = s.words := rfl
  have wordsOther : (s.beside other).words 1 = other.words := rfl
  have first := (holds_words words held).lower (Nat.min_le_left s.len other.len)
  have second := (holds_words wordsOther heldOther).lower (Nat.min_le_right s.len other.len)
  refine (congrArg Query.access (anyOf_eq op first second)).trans ?_
  refine congrArg Except.ok (decide_eq_decide.mpr ?_)
  refine exists_congr fun i => and_congr_right fun below => ?_
  rw [bitsAt_words words held (by omega), bitsAt_words wordsOther heldOther (by omega)]

theorem intersects_eq (held : s.Held) (heldOther : other.Held) :
    s.intersects other = .ok (decide (s.support ∩ other.support).Nonempty) := by
  refine (anyOf_common held heldOther .and).trans ?_
  refine congrArg Except.ok (decide_eq_decide.mpr (exists_congr fun i => ?_))
  rw [Finset.mem_inter, mem_support, mem_support, BitOp.onBits, Bool.and_eq_true, Nat.lt_min]
  exact and_and_and_comm

theorem isDisjoint_eq (held : s.Held) (heldOther : other.Held) :
    s.isDisjoint other = .ok (decide (s.support ∩ other.support = ∅)) := by
  rw [isDisjoint, intersects_eq held heldOther]
  exact negated_nonempty (s.support ∩ other.support)

theorem isSubset_eq (held : s.Held) (heldOther : other.Held) :
    s.isSubset other = .ok (decide (s.support ⊆ other.support)) := by
  obtain ⟨found, answer, first⟩ := find_rest held true (Nat.min_le_left s.len other.len)
  rw [isSubset, anyOf_common held heldOther .andNot, decide_eq_decide.mpr (support_subset_iff ..)]
  by_cases stray : ∃ i < min s.len other.len, BitOp.andNot.onBits (s.bit i) (other.bit i) = true
  · rw [decide_eq_true stray, decide_eq_false fun inside => inside.1 stray]
    rfl
  · rw [decide_eq_false stray]
    refine (congrArg (fun scan => scan >>= fun place =>
      Pure.pure (place == s.len - min s.len other.len)) answer).trans (congrArg Except.ok ?_)
    rw [beq_eq_decide, decide_eq_decide, and_iff_right stray, ← first.ne_iff, Decidable.not_not]

structure IsDifference (s other result : Span w) : Prop where
  support : result.support = s.support \ other.support
  none : result.none = s.isSubset other

structure IsIntersection (s other result : Span w) : Prop where
  support : result.support = s.support ∩ other.support
  any : result.any = s.intersects other
  none : result.none = s.isDisjoint other

theorem isDifference (held : s.Held) (heldOther : other.Held) (heldResult : result.Held)
    (list : result.toList = OnList.pointwise .andNot s.toList.length s.toList other.toList) :
    IsDifference s other result where
  support := support_difference list
  none := by
    rw [none_eq_empty heldResult, support_difference list, isSubset_eq held heldOther,
      decide_eq_decide.mpr Finset.sdiff_eq_empty_iff_subset]

theorem isIntersection (held : s.Held) (heldOther : other.Held) (heldResult : result.Held)
    (list : result.toList = OnList.pointwise .and s.toList.length s.toList other.toList) :
    IsIntersection s other result where
  support := support_intersection list
  any := by rw [any_eq_nonempty heldResult, support_intersection list, intersects_eq held heldOther]
  none := by rw [none_eq_empty heldResult, support_intersection list, isDisjoint_eq held heldOther]

end Span

namespace Host
variable {w : Nat} [HasBits w]

/-- What the questions about two containers have to answer. -/
structure Compares (host other : Host w) : Prop where
  subset : host.span.isSubset other.span = .ok (decide (host.span.support ⊆ other.span.support))
  superset :
    host.span.isSuperset other.span = .ok (decide (other.span.support ⊆ host.span.support))
  intersects : host.span.intersects other.span =
    .ok (decide (host.span.support ∩ other.span.support).Nonempty)
  disjoint : host.span.isDisjoint other.span =
    .ok (decide (host.span.support ∩ other.span.support = ∅))
  symmetric : host.span.intersects other.span = other.span.intersects host.span
  both : host.span.isSubset other.span = .ok true ∧ other.span.isSubset host.span = .ok true ↔
    host.span.support = other.span.support
  difference : (inPlace (Span.assign .andNot other.span)).Ends host.value
    (fun _ after => Span.IsDifference host.span other.span (Container.span after))
    fun _ _ => False
  intersection : (inPlace (Span.assign .and other.span)).Ends host.value
    (fun _ after => Span.IsIntersection host.span other.span (Container.span after))
    fun _ _ => False

theorem assign_ends (host other : Host w) (op : BitOp) :
    (inPlace (Span.assign op other.span)).Ends host.value
      (fun _ after => (Container.span after).Held ∧ (Container.span after).toList =
        OnList.pointwise op host.bits.length host.bits other.bits)
      fun _ _ => False := by
  have does := Host.does_of_span (Span.assign_does host.held other.held op)
  refine Attempt.Ends.imp does ?_ ?_
  · rintro ⟨⟩ after ⟨rewritten, same⟩
    refine ⟨rewritten.within.held host.held, ?_⟩
    rw [← (Prod.mk.inj (Except.ok.inj same)).2, Host.bits, Span.length_toList]
    rfl
  · rintro failure after ⟨-, -, stopped⟩
    cases stopped

theorem compares (host other : Host w) : host.Compares other where
  subset := Span.isSubset_eq host.held other.held
  superset := Span.isSubset_eq other.held host.held
  intersects := Span.intersects_eq host.held other.held
  disjoint := Span.isDisjoint_eq host.held other.held
  symmetric := by
    rw [Span.intersects_eq host.held other.held, Span.intersects_eq other.held host.held,
      Finset.inter_comm]
  both := by
    rw [Span.isSubset_eq host.held other.held, Span.isSubset_eq other.held host.held,
      Except.ok.injEq, Except.ok.injEq, decide_eq_true_eq, decide_eq_true_eq,
      Finset.Subset.antisymm_iff]
  difference := (host.assign_ends other .andNot).imp
    (fun _ _ ⟨held, list⟩ => Span.isDifference host.held other.held held list) fun _ _ => id
  intersection := (host.assign_ends other .and).imp
    (fun _ _ ⟨held, list⟩ => Span.isIntersection host.held other.held held list) fun _ _ => id

end Host

theorem BitVector.reached_setOf_ends {b : Backend} {policy : Policy} (lawful : policy.Lawful)
    (actions : List (Action b.width)) (name : String) (other : Host b.width) (op : BitOp) :
    let pool : Pool b.Carrier := (Action.run actions (Action.start policy)).2
    let total := op.reach (pool.span name).toList.length other.bits.length
    (setOf op (pool.vector name) other.span).Ends pool.provider
      (fun out _ => (Container.span out).Held ∧ (Container.span out).toList =
        OnList.pointwise op total (pool.span name).toList other.bits)
      fun failure p' => failure ≠ .wild ∧
        (Storage.Allows b.Carrier policy total → pool.provider.refused < p'.refused) := by
  intro pool total
  have sound : pool.Sound policy 0 [] := Action.reached_sound lawful actions
  have books : Books policy pool.provider.refused (pool.blocks ++ []) pool.provider :=
    sound.books.exact
  refine (setOf_ends (sound.holding name).storage books other.held op).imp ?_ ?_
  · rintro out p' ⟨made, list⟩
    exact ⟨Storage.held made.sound, list⟩
  · rintro failure p' declined
    exact ⟨declined.tame, fun sure => (declined.counted sure).refused_more⟩

/-- Whether a container is inside another one, around it, meets it or is apart from it is what the
finite sets of their set positions say, of whatever lengths they are and wherever they lie. The
difference and the intersection say the same, in place and in a vector made from one with any
history; no vector is made only if the provider refuses the room for it. -/
theorem set_predicates_agree_with_set_operations :
    (∀ {w : Nat} [HasBits w] (host other : Host w),
      (∀ i, i ∈ host.span.support ↔ host.bits[i]? = some true) ∧ host.Compares other) ∧
    ∀ (b : Backend) (policy : Policy), policy.Lawful →
      ∀ (actions : List (Action b.width)) (name : String) (other : Host b.width),
      let pool : Pool b.Carrier := (Action.run actions (Action.start policy)).2
      let refused (failure : Failure) (after : Provider) : Prop := failure ≠ .wild ∧
        (Storage.Allows b.Carrier policy (pool.span name).toList.length →
          pool.provider.refused < after.refused)
      (BitVector.setOf .andNot (pool.vector name) other.span).Ends pool.provider
        (fun out _ => Span.IsDifference (pool.span name) other.span (Container.span out))
        refused ∧
      (BitVector.setOf .and (pool.vector name) other.span).Ends pool.provider
        (fun out _ => Span.IsIntersection (pool.span name) other.span (Container.span out))
        refused := by
  refine ⟨fun host other => ⟨fun i => ?_, host.compares other⟩, ?_⟩
  · rw [Span.support, List.mem_toFinset, Span.mem_places]
    rfl
  · intro b policy lawful actions name other pool refused
    have sound : pool.Sound policy 0 [] := Action.reached_sound lawful actions
    have held : (pool.span name).Held := Storage.held (sound.holding name).storage
    constructor
    · exact (BitVector.reached_setOf_ends lawful actions name other .andNot).imp
        (fun _ _ ⟨made, list⟩ => Span.isDifference held other.held made list) fun _ _ => id
    · exact (BitVector.reached_setOf_ends lawful actions name other .and).imp
        (fun _ _ ⟨made, list⟩ => Span.isIntersection held other.held made list) fun _ _ => id

/-- Twelve bits across two bytes beside seven that are among them and lack one past their end, and
twenty set bits, kept inline, without the first sixteen of them. -/
theorem set_predicates_agree_with_set_operations_past_an_end :
    let host : Host 8 := .slice ⟨#[0x97#8, 0x90#8], 3, 12⟩ (show 3 + 12 ≤ 2 * 8 by decide)
    let other : Host 8 := .view ⟨#[0x92#8], 7⟩ (by decide)
    let actions : List (Action Backend.smallBuffer.width) :=
      [.work .inPlace "a" (.grow (.resize 20 true)) (.vector "a")]
    let front : Host Backend.smallBuffer.width := .view (w := 64) ⟨#[0xFFFF#64], 16⟩ (by decide)
    let pool : Pool Backend.smallBuffer.Carrier :=
      (Action.run actions (Action.start (Policy.pages 2))).2
    (host.span.isSubset other.span = .ok false ∧ host.span.isSuperset other.span = .ok true ∧
      host.span.isDisjoint other.span = .ok false) ∧
    ∃ out provider,
      BitVector.setOf .andNot (pool.vector "a") front.span pool.provider = .ok out provider ∧
      (Container.span out).support = {16, 17, 18, 19} ∧
      (Container.span out).none = (pool.span "a").isSubset front.span := by
  intro host other actions front pool
  obtain ⟨inPlace, made⟩ := set_predicates_agree_with_set_operations
  have lawful : (Policy.pages 2).Lawful := Policy.pages_lawful (by decide)
  have answers := (inPlace host other).2
  refine ⟨⟨answers.subset.trans (by decide), answers.superset.trans (by decide),
    answers.disjoint.trans (by decide)⟩, ?_⟩
  have small : (pool.span "a").toList.length ≤ Storage.maxBits Backend.smallBuffer.Carrier := by
    decide +kernel
  have served : ((BitVector.setOf .andNot (pool.vector "a") front.span).outcome
      pool.provider).2.refused = pool.provider.refused := by decide +kernel
  obtain ⟨out, provider, ran, difference⟩ | ⟨failure, provider, ran, -, refused⟩ :=
    Attempt.Ends.ran (made .smallBuffer (Policy.pages 2) lawful actions "a" front).1
  · refine ⟨out, provider, ran, ?_, difference.none⟩
    rw [difference.support]
    decide +kernel
  · have more := refused ⟨small, Policy.pages_admitted .smallBuffer (by decide)⟩
    rw [Attempt.outcome_error ran] at served
    exact absurd served (Nat.ne_of_gt more)

end PackedBits
