import PackedBits.FixedSet
import PackedBits.Proofs.Span.Moves
import PackedBits.Proofs.Text.Filling
import PackedBits.Word.Lemmas

/-! Sets in canonical form. A set is canonical when it has the words that its size takes and their
bits past the size are clear; then it is told by its list. Operators work on whole words and changes
in place on the run of bits, but both lead from canonical sets to canonical ones, so where they agree
on lists they agree on words. -/
namespace PackedBits

section
variable {w : Nat}

theorem bitIn_modify {words : Array (BitVec w)} {place : Nat} (inside : place < words.size)
    (change : BitVec w → BitVec w) (k : Nat) :
    bitIn (words.modify place change) k =
      if k / w = place then (change (words.getD place 0#w)).getLsbD (k % w) else bitIn words k := by
  rw [bitIn, Array.getD_eq_getD_getElem?, Array.getElem?_modify]
  by_cases here : place = k / w
  · subst here
    simp [inside]
  · rw [if_neg here, if_neg fun same => here same.symm, bitIn, Array.getD_eq_getD_getElem?]

variable [HasBits w]

theorem bitIn_zipWith (op : BitOp) {a b : Array (BitVec w)} (size : a.size = b.size) (k : Nat) :
    bitIn (Array.zipWith op.apply a b) k = op.onBits (bitIn a k) (bitIn b k) := by
  have below : k % w < w := Nat.mod_lt k width_pos
  by_cases inside : k / w < a.size
  · have insideOther : k / w < b.size := size ▸ inside
    simp only [bitIn, Array.getD_eq_getD_getElem?, Array.getElem?_zipWith,
      Array.getElem?_eq_getElem inside, Array.getElem?_eq_getElem insideOther, Option.getD_some]
    exact getLsbD_apply op _ _ below
  · have past : a.size * w ≤ k := by
      rwa [Nat.div_lt_iff_lt_mul width_pos, Nat.not_lt] at inside
    rw [bitIn_of_le a past, bitIn_of_le b (size ▸ past), bitIn_of_le]
    · cases op <;> rfl
    · rwa [Array.size_zipWith, ← size, Nat.min_self]

theorem bitIn_not (words : Array (BitVec w)) (k : Nat) :
    bitIn (words.map (~~~·)) k = (decide (k < words.size * w) && !bitIn words k) := by
  have below : k % w < w := Nat.mod_lt k width_pos
  by_cases inside : k / w < words.size
  · have before : k < words.size * w := (Nat.div_lt_iff_lt_mul width_pos).mp inside
    simp [bitIn, Array.getD_eq_getD_getElem?, inside, below, before]
  · have past : words.size * w ≤ k := by
      rwa [Nat.div_lt_iff_lt_mul width_pos, Nat.not_lt] at inside
    rw [bitIn_of_le _ (by simpa using past), decide_eq_false (Nat.not_lt.mpr past), Bool.false_and]

end

namespace FixedSet
variable {w n : Nat} {a b set : FixedSet w n}

/-- The words that the size takes, with no bit set past it. -/
structure Canonical (set : FixedSet w n) : Prop where
  size : set.words.size = wordsFor w n
  spare : ∀ k, n ≤ k → bitIn set.words k = false

theorem bit_span (set : FixedSet w n) (k : Nat) :
    (Container.span set).bit k = bitIn set.words k := congrArg (bitIn set.words) (Nat.zero_add k)

theorem getElem?_list (set : FixedSet w n) (k : Nat) :
    (Container.span set).toList[k]? = if k < n then some (bitIn set.words k) else none := by
  rw [Span.getElem?_toList, bit_span]
  rfl

theorem Canonical.eq_of_list (left : a.Canonical) (right : b.Canonical)
    (same : (Container.span a).toList = (Container.span b).toList) : a = b := by
  have words : a.words = b.words := by
    refine ext_bitIn (left.size.trans right.size.symm) fun k _ => ?_
    by_cases below : k < n
    · have bit := congrArg (·[k]?) same
      rw [getElem?_list, getElem?_list, if_pos below, if_pos below] at bit
      exact Option.some.inj bit
    · rw [left.spare k (Nat.le_of_not_lt below), right.spare k (Nat.le_of_not_lt below)]
  cases a
  cases b
  exact congrArg FixedSet.mk words

theorem Canonical.within (canonical : a.Canonical)
    (within : Span.Within (Container.span a) (Container.span b)) : b.Canonical where
  size := within.size.trans canonical.size
  spare k past := by
    have outside : ¬ ((0 : Nat) ≤ k ∧ k < 0 + n) := by omega
    exact (within.kept k outside).trans (canonical.spare k past)

theorem empty_canonical : (empty : FixedSet w n).Canonical :=
  ⟨Array.size_replicate, fun k _ => bitIn_replicate _ k⟩

variable [HasBits w]

theorem Canonical.held (canonical : set.Canonical) : (Container.span set).Held := by
  show 0 + n ≤ set.words.size * w
  rw [Nat.zero_add, canonical.size]
  exact le_wordsFor n

/-- Trimming clears the bits past the size and keeps the others. -/
theorem bitIn_trim (size : set.words.size = wordsFor w n) (k : Nat) :
    bitIn set.trim.words k = (decide (k < n) && bitIn set.words k) := by
  have split := Nat.div_add_mod' n w
  by_cases whole : n % w = 0
  · rw [trim, if_pos whole]
    by_cases below : k < n
    · simp [below]
    · have past : set.words.size * w ≤ k := by
        rw [size, wordsFor_of_mod_eq_zero whole]
        omega
      simp [bitIn_of_le _ past]
  · -- The last word is the one that the size ends in.
    have small := Nat.mod_lt n (width_pos (w := w))
    have count : set.words.size = n / w + 1 := by
      have last := wordsFor_add (w := w) (Nat.mul_mod_left (n / w) w) (Nat.pos_of_ne_zero whole)
        (Nat.le_of_lt small)
      rw [split, wordsFor_mul] at last
      exact size.trans last
    have last : set.words.size - 1 < set.words.size :=
      Nat.sub_lt (count ▸ Nat.succ_pos (n / w)) Nat.one_pos
    have place := Nat.div_add_mod' k w
    rw [trim, if_neg whole, bitIn_modify last, count, Nat.add_sub_cancel]
    by_cases here : k / w = n / w
    · have below : k % w < w := Nat.mod_lt k width_pos
      have order : k % w < n % w ↔ k < n := by
        rw [here] at place
        rw [← Nat.add_lt_add_iff_left (k := n / w * w), place, split]
      rw [if_pos here, BitVec.getLsbD_and, getLsbD_maskTo, decide_eq_true below, Bool.and_true,
        decide_eq_decide.mpr order, Bool.and_comm, bitIn, here]
    · rw [if_neg here]
      by_cases below : k < n
      · simp [below]
      · -- A later word is past the words that there are.
        have later : n / w + 1 ≤ k / w := by
          have := Nat.div_le_div_right (c := w) (Nat.le_of_not_lt below)
          omega
        have past : set.words.size * w ≤ k := by
          rw [count]
          exact (Nat.le_div_iff_mul_le width_pos).mp later
        simp [bitIn_of_le _ past]

omit [HasBits w] in
theorem size_trim (set : FixedSet w n) : set.trim.words.size = set.words.size := by
  unfold trim
  split
  · rfl
  · exact Array.size_modify

theorem trim_canonical (size : set.words.size = wordsFor w n) : set.trim.Canonical where
  size := set.size_trim.trans size
  spare k past := by rw [bitIn_trim size, decide_eq_false (Nat.not_lt.mpr past), Bool.false_and]

theorem Canonical.zipWords (left : a.Canonical) (right : b.Canonical) (op : BitOp) :
    (zipWords op.apply a b).Canonical where
  size := by
    rw [FixedSet.zipWords, Array.size_zipWith, left.size, right.size, Nat.min_self]
  spare k past := by
    rw [FixedSet.zipWords, bitIn_zipWith op (left.size.trans right.size.symm), left.spare k past,
      right.spare k past]
    cases op <;> rfl

theorem Canonical.complement (canonical : a.Canonical) : a.complement.Canonical :=
  trim_canonical (by rw [Array.size_map, canonical.size])

theorem list_zipWords (size : a.words.size = b.words.size) (op : BitOp) :
    (Container.span (zipWords op.apply a b)).toList =
      List.zipWith op.onBits (Container.span a).toList (Container.span b).toList := by
  refine List.ext_getElem? fun k => ?_
  rw [List.getElem?_zipWith, getElem?_list, getElem?_list, getElem?_list, FixedSet.zipWords,
    bitIn_zipWith op size]
  split
  · rfl
  · rfl

theorem Canonical.list_complement (canonical : a.Canonical) :
    (Container.span a.complement).toList = (Container.span a).toList.map not := by
  have size : (a.words.map (~~~·)).size = wordsFor w n := by rw [Array.size_map, canonical.size]
  have trimmed (k : Nat) : bitIn a.complement.words k =
      (decide (k < n) && bitIn (a.words.map (~~~·)) k) := bitIn_trim size k
  have room := le_wordsFor (w := w) n
  refine List.ext_getElem? fun k => ?_
  rw [List.getElem?_map, getElem?_list, getElem?_list, trimmed, bitIn_not, canonical.size]
  by_cases below : k < n
  · have inside : k < wordsFor w n * w := by omega
    simp [below, inside]
  · simp [below]

theorem Canonical.after_does {change : Attempt (Span w) Unit} {bits : List Bool}
    (canonical : a.Canonical) (does : (Container.span a).Does change (.ok ((), bits))) :
    ∃ b : FixedSet w n, a.after change = .ok b ∧ b.Canonical ∧ (Container.span b).toList = bits := by
  have filled : change.Ends (Container.span a)
      (fun _ s' => Span.Within (Container.span a) s' ∧ s'.toList = bits) fun _ _ => False :=
    does.done.imp (fun _ _ reached => ⟨reached.1, reached.2.2⟩) fun _ _ => id
  obtain ⟨b, changed, within, list⟩ := after_done filled
  exact ⟨b, changed, canonical.within within, list⟩

theorem Canonical.after_eq {change : Attempt (Span w) Unit} (canonical : a.Canonical)
    (other : b.Canonical)
    (does : (Container.span a).Does change (.ok ((), (Container.span b).toList))) :
    a.after change = .ok b := by
  obtain ⟨c, changed, reached, list⟩ := canonical.after_does does
  rw [changed, reached.eq_of_list other list]

omit [HasBits w] in
theorem drop_list (a b : FixedSet w n) :
    (Container.span a).toList.drop (Container.span b).toList.length = [] := by
  refine List.drop_of_length_le (Nat.le_of_eq ?_)
  rw [Span.length_toList, Span.length_toList]
  rfl

theorem Canonical.combine_eq (left : a.Canonical) (right : b.Canonical) (op : BitOp) :
    a.after (discard (Span.combine (Container.span b) op)) = .ok (FixedSet.zipWords op.apply a b) := by
  have combined := (Span.combine_does left.held right.held op).discard
  refine left.after_eq (left.zipWords right op) ?_
  rw [list_zipWords (left.size.trans right.size.symm)]
  rwa [OnList.combine, drop_list, List.append_nil] at combined

theorem Canonical.andWith_eq (left : a.Canonical) (right : b.Canonical) :
    a.after (Span.andWith (Container.span b)) = .ok (a.and b) := by
  have combined := Span.andWith_does left.held right.held
  have list : (Container.span (a.and b)).toList = _ :=
    list_zipWords (left.size.trans right.size.symm) .and
  refine left.after_eq (left.zipWords right .and) ?_
  rw [list]
  rwa [OnList.andWith, drop_list, List.map_nil, List.append_nil] at combined

theorem Canonical.flipAll_eq (canonical : a.Canonical) :
    a.after Span.flipAll = .ok a.complement := by
  have flipped := Span.flipRange_does canonical.held Bounds.all
  rw [OnList.onRange_all, ← canonical.list_complement] at flipped
  exact canonical.after_eq canonical.complement flipped

end FixedSet

end PackedBits
