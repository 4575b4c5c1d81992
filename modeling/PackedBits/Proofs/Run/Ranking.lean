import PackedBits.Proofs.Range.Answer
import PackedBits.Proofs.Run.Tally
import PackedBits.Proofs.Walk.Places

/-! Counting, scanning and enumerating tell the same of a container. Its places that hold a value
make an ascending list. The rank of a place is the number of them before it, the k-th of them is the
one of rank k, scanning from a place finds the first of them from there on and scanning back the
last of all, and there are as many as are counted. -/
namespace PackedBits

section
variable {entries : List Nat}

theorem countP_of_getElem? (ascending : entries.Pairwise (· < ·)) {k entry : Nat}
    (found : entries[k]? = some entry) : entries.countP (· < entry) = k := by
  obtain ⟨below, here⟩ := List.getElem?_eq_some_iff.mp found
  have split := List.take_append_drop k entries
  rw [List.drop_eq_getElem_cons below, here] at split
  rw [← split, List.pairwise_append, List.pairwise_cons] at ascending
  obtain ⟨-, ⟨after, -⟩, before⟩ := ascending
  -- All entries in front of it are smaller, and from it on none is.
  have front : (entries.take k).countP (· < entry) = (entries.take k).length :=
    List.countP_eq_length.mpr fun earlier member =>
      decide_eq_true (before earlier member entry List.mem_cons_self)
  have back : (entry :: entries.drop (k + 1)).countP (· < entry) = 0 := by
    refine List.countP_eq_zero.mpr fun later member smaller => ?_
    have order := of_decide_eq_true smaller
    rcases List.mem_cons.mp member with rfl | behind
    · exact Nat.lt_irrefl later order
    · exact Nat.lt_asymm (after later behind) order
  rw [← split, List.countP_append, front, back, Nat.add_zero, List.length_take,
    Nat.min_eq_left (Nat.le_of_lt below)]

theorem getElem?_iff_countP (ascending : entries.Pairwise (· < ·)) {k entry : Nat} :
    entries[k]? = some entry ↔ entry ∈ entries ∧ entries.countP (· < entry) = k := by
  constructor
  · intro found
    exact ⟨List.mem_of_getElem? found, countP_of_getElem? ascending found⟩
  · rintro ⟨member, rfl⟩
    obtain ⟨k, found⟩ := List.getElem?_of_mem member
    rwa [countP_of_getElem? ascending found]

theorem find?_eq_some_of_least (ascending : entries.Pairwise (· < ·)) {bound entry : Nat}
    (member : entry ∈ entries) (above : bound ≤ entry)
    (least : ∀ other ∈ entries, bound ≤ other → entry ≤ other) :
    entries.find? (bound ≤ ·) = some entry := by
  induction entries with
  | nil => cases member
  | cons first later ih =>
      obtain ⟨after, ascending⟩ := List.pairwise_cons.mp ascending
      by_cases here : bound ≤ first
      · rw [List.find?_cons_of_pos (by simpa using here)]
        rcases List.mem_cons.mp member with rfl | behind
        · rfl
        · have order := least first List.mem_cons_self here
          exact absurd (after entry behind) (Nat.not_lt.mpr order)
      · rw [List.find?_cons_of_neg (by simpa using here)]
        rcases List.mem_cons.mp member with rfl | behind
        · exact absurd above here
        · exact ih ascending behind fun other there =>
            least other (List.mem_cons_of_mem first there)

theorem getLast?_eq_some_of_greatest (ascending : entries.Pairwise (· < ·)) {entry : Nat}
    (member : entry ∈ entries) (greatest : ∀ other ∈ entries, other ≤ entry) :
    entries.getLast? = some entry := by
  cases last : entries.getLast? with
  | none =>
      rw [List.getLast?_eq_none_iff.mp last] at member
      cases member
  | some top =>
      obtain ⟨front, rfl⟩ := List.getLast?_eq_some_iff.mp last
      have order := greatest top (List.mem_append_right front List.mem_cons_self)
      rcases List.mem_append.mp member with before | here
      · have smaller := (List.pairwise_append.mp ascending).2.2 entry before top List.mem_cons_self
        exact absurd smaller (Nat.not_lt.mpr order)
      · rw [List.mem_singleton.mp here]

theorem find?_eq_none_iff_countP (bound : Nat) :
    entries.find? (bound ≤ ·) = none ↔ entries.countP (· < bound) = entries.length := by
  rw [List.find?_eq_none, List.countP_eq_length]
  refine forall₂_congr fun entry _ => ?_
  rw [decide_eq_true_eq, decide_eq_true_eq, Nat.not_le]

end

namespace Span
variable {w : Nat} {s : Span w} {value : Bool}

def placesOf (s : Span w) (value : Bool) : List Nat :=
  (List.range' 0 s.len).filter fun i => s.bit i == value

theorem placesOf_true (s : Span w) : s.placesOf true = s.places :=
  List.filter_congr fun i _ => beq_true (s.bit i)

theorem placesOf_ascending (s : Span w) (value : Bool) : (s.placesOf value).Pairwise (· < ·) :=
  List.Pairwise.filter _ List.pairwise_lt_range'

theorem mem_placesOf {place : Nat} :
    place ∈ s.placesOf value ↔ place < s.len ∧ s.bit place = value := by
  rw [placesOf, List.mem_filter, List.mem_range'_1, Nat.zero_add, beq_iff_eq,
    and_iff_right (Nat.zero_le place)]

theorem countP_placesOf {bound : Nat} (within : bound ≤ s.len) :
    (s.placesOf value).countP (· < bound) = (s.toList.take bound).count value := by
  obtain ⟨rest, size⟩ := Nat.exists_eq_add_of_le within
  have front : (List.range' 0 bound).countP (fun i => decide (i < bound) && (s.bit i == value)) =
      (List.range' 0 bound).countP fun i => s.bit i == value :=
    List.countP_congr fun i member => by
      have below := (List.mem_range'_1.mp member).2
      rw [Nat.zero_add] at below
      rw [decide_eq_true below, Bool.true_and]
  have back : (List.range' bound rest).countP (fun i => decide (i < bound) && (s.bit i == value)) =
      0 := by
    refine List.countP_eq_zero.mpr fun i member => ?_
    rw [decide_eq_false (Nat.not_lt.mpr (List.mem_range'_1.mp member).1), Bool.false_and]
    exact Bool.false_ne_true
  have split := List.range'_append_1 (s := 0) (m := bound) (n := rest)
  rw [Nat.zero_add] at split
  rw [placesOf, List.countP_filter, size, ← split, List.countP_append, front, back, Nat.add_zero,
    toList, ← List.map_take, List.take_range, Nat.min_eq_left within, List.count, List.countP_map,
    List.range_eq_range']
  rfl

theorem countP_placesOf_all (s : Span w) (value : Bool) :
    (s.placesOf value).countP (· < s.len) = (s.placesOf value).length :=
  List.countP_eq_length.mpr fun _ member => decide_eq_true (mem_placesOf.mp member).1

theorem length_placesOf (s : Span w) (value : Bool) :
    (s.placesOf value).length = s.toList.count value := by
  rw [← countP_placesOf_all, countP_placesOf (Nat.le_refl s.len),
    List.take_of_length_le (Nat.le_of_eq s.length_toList)]

theorem length_placesOf_add (s : Span w) :
    (s.placesOf true).length + (s.placesOf false).length = s.len := by
  rw [length_placesOf, length_placesOf, List.count_true_add_count_false, length_toList]

variable [HasBits w]

/-- The number of places before a position that hold a value: the rank for set bits, and what the
rank leaves of the positions for clear ones. -/
def rankOf (s : Span w) (value : Bool) (index : Nat) : Query Nat := do
  let set ← s.rank index
  return if value then set else index - set

theorem rankOf_true (s : Span w) (index : Nat) : s.rankOf true index = s.rank index := by
  rw [rankOf]
  cases s.rank index <;> rfl

def countOf (s : Span w) (value : Bool) : Query Nat := if value then s.countOnes else s.countZeros

theorem rankOf_eq (held : s.Held) (value : Bool) {index : Nat} (within : index ≤ s.len) :
    s.rankOf value index = .ok ((s.placesOf value).countP (· < index)) := by
  rw [rankOf, rank_eq_count held within, countP_placesOf within]
  cases value with
  | true => rfl
  | false =>
      have both := List.count_true_add_count_false (s.toList.take index)
      rw [List.length_take, length_toList, Nat.min_eq_left within] at both
      have others : index - (s.toList.take index).count true =
          (s.toList.take index).count false := by omega
      rw [← others]
      rfl

theorem countOf_eq (held : s.Held) (value : Bool) :
    s.countOf value = .ok (s.placesOf value).length := by
  rw [length_placesOf]
  cases value with
  | true => exact countOnes_eq_count held
  | false => exact countZeros_eq_count held

theorem findNext_eq (held : s.Held) (value : Bool) (start : Nat) :
    s.findNext value start = .ok ((s.placesOf value).find? (start ≤ ·)) := by
  rw [findNext]
  by_cases inside : start < s.len
  · -- The scan counts from where it starts, and gives the length of the rest for nothing found.
    obtain ⟨found, answer, nearest⟩ := find_rest held value (Nat.le_of_lt inside)
    rw [if_pos inside, answer]
    by_cases none : found = s.len - start
    · have missing : (s.placesOf value).find? (start ≤ ·) = .none := by
        refine List.find?_eq_none.mpr fun place member above => ?_
        obtain ⟨below, holds⟩ := mem_placesOf.mp member
        have order : start ≤ place := of_decide_eq_true above
        rw [← Nat.add_sub_cancel' order] at holds
        exact nearest.ne_iff.mpr ⟨place - start, by omega, holds⟩ none
      rw [missing]
      exact congrArg Except.ok (if_pos none)
    · have within := nearest.within
      have here : (s.placesOf value).find? (start ≤ ·) = some (start + found) := by
        refine find?_eq_some_of_least (s.placesOf_ascending value)
          (mem_placesOf.mpr ⟨by omega, nearest.hit (by omega)⟩) (Nat.le_add_right start found) ?_
        intro place member above
        have holds := (mem_placesOf.mp member).2
        rw [← Nat.add_sub_cancel' above] at holds
        have early := nearest.le holds
        omega
      rw [here]
      exact congrArg Except.ok (if_neg none)
  · have missing : (s.placesOf value).find? (start ≤ ·) = .none := by
      refine List.find?_eq_none.mpr fun place member => ?_
      have below := (mem_placesOf.mp member).1
      rw [decide_eq_true_eq]
      omega
    rw [if_neg inside, missing]
    rfl

theorem findLast_eq (held : s.Held) (value : Bool) :
    s.findLast value = .ok (s.placesOf value).getLast? := by
  obtain ⟨found, seen, last⟩ := findLast_spec s.buffers s.first s.len value (holds_first held)
  have answer : s.read (fun m => PackedBits.findLast m s.first s.len value) = .ok found :=
    congrArg Query.access seen
  have outermost : Last s.bit value s.len found :=
    last.congr fun i below => (bitsAt_first held below).symm
  rw [findLast, answer]
  by_cases none : found = s.len
  · have missing : (s.placesOf value).getLast? = .none := by
      rw [List.getLast?_eq_none_iff]
      refine List.eq_nil_iff_forall_not_mem.mpr fun place member => ?_
      obtain ⟨below, holds⟩ := mem_placesOf.mp member
      exact outermost.ne_iff.mpr ⟨place, below, holds⟩ none
    rw [missing]
    exact congrArg Except.ok (if_pos none)
  · have below : found < s.len := Nat.lt_of_le_of_ne outermost.within none
    have here : (s.placesOf value).getLast? = some found := by
      refine getLast?_eq_some_of_greatest (s.placesOf_ascending value)
        (mem_placesOf.mpr ⟨below, outermost.hit below⟩) fun place member => ?_
      obtain ⟨inside, holds⟩ := mem_placesOf.mp member
      exact (outermost.ge inside holds).1
    rw [here]
    exact congrArg Except.ok (if_neg none)

theorem test_eq_ok (held : s.Held) {index : Nat} :
    s.test index = .ok value ↔ index < s.len ∧ s.bit index = value := by
  rcases s.checkIndex_cases index with ⟨below, answer⟩ | ⟨above, refused⟩
  · rw [test, answer, and_iff_right below]
    show s.bitAt index = .ok value ↔ _
    rw [bitAt_eq held below, Except.ok.injEq]
  · rw [test, refused]
    exact ⟨nofun, fun inside => absurd inside.1 (Nat.not_lt.mpr above)⟩

theorem isSome_findFirst (held : s.Held) (value : Bool) :
    (s.findFirst value).map Option.isSome = .ok (decide (0 < (s.placesOf value).length)) := by
  rw [findFirst, findNext_eq held]
  refine congrArg Except.ok ?_
  cases s.placesOf value with
  | nil => rfl
  | cons first later => rfl

theorem any_eq (held : s.Held) : s.any = .ok (decide (0 < (s.placesOf true).length)) :=
  isSome_findFirst held true

theorem all_eq (held : s.Held) : s.all = .ok (decide ((s.placesOf false).length = 0)) := by
  have some := isSome_findFirst held false
  rw [all]
  cases found : s.findFirst false with
  | error failure =>
      rw [found] at some
      cases some
  | ok place =>
      rw [found] at some
      have same : place.isSome = decide (0 < (s.placesOf false).length) := Except.ok.inj some
      show Except.ok place.isNone = _
      rw [← Option.not_isSome, same, ← decide_not]
      refine congrArg Except.ok (decide_eq_decide.mpr ?_)
      omega

/-- What is known of the places that hold a value: counting up to a place, enumerating them,
scanning from either end and counting them all tell the same. -/
structure Enumerates (s : Span w) (value : Bool) (places : List Nat) : Prop where
  rank {index : Nat} : index ≤ s.len →
    s.rankOf value index = .ok (places.countP (· < index))
  item {k place : Nat} : places[k]? = some place ↔
    s.test place = .ok value ∧ s.rankOf value place = .ok k
  next (start : Nat) : s.findNext value start = .ok (places.find? (start ≤ ·))
  none {start : Nat} : start ≤ s.len →
    (s.findNext value start = .ok .none ↔ s.rankOf value start = s.rankOf value s.len)
  last : s.findLast value = .ok places.getLast?
  count : s.countOf value = .ok places.length
  total : s.countOf value = s.rankOf value s.len

theorem enumerates (held : s.Held) (value : Bool) : s.Enumerates value (s.placesOf value) where
  rank within := rankOf_eq held value within
  item {k place} := by
    rw [getElem?_iff_countP (s.placesOf_ascending value), mem_placesOf, test_eq_ok held]
    refine and_congr_right fun inside => ?_
    rw [rankOf_eq held value (Nat.le_of_lt inside.1), Except.ok.injEq]
  next := findNext_eq held value
  none {start} within := by
    rw [findNext_eq held, rankOf_eq held value within, rankOf_eq held value (Nat.le_refl s.len),
      countP_placesOf_all, Except.ok.injEq, Except.ok.injEq, find?_eq_none_iff_countP]
  last := findLast_eq held value
  count := countOf_eq held value
  total := by
    rw [countOf_eq held, rankOf_eq held value (Nat.le_refl s.len), countP_placesOf_all]

end Span

/-- Counting, scanning and enumerating agree on the set bits of a container and on its clear ones.
The walk over the set positions hands out the places that hold a set bit, has their number as its
length, and what all bits and any bit are is decided by the counts. -/
theorem counting_scanning_and_enumerating_agree {w : Nat} [HasBits w] (host : Host w) :
    (∀ value, (host.span.placesOf value).Pairwise (· < ·) ∧
      host.span.Enumerates value (host.span.placesOf value)) ∧
    (∃ walk, (TwoWayWalk.drain : Attempt (OnesWalk w) (List Nat)) host.span.ones =
      .ok (host.span.placesOf true) walk) ∧
    (∃ total walk, (TwoWayWalk.length : Attempt (OnesWalk w) Nat) host.span.ones = .ok total walk ∧
      host.span.countOnes = .ok total) ∧
    (host.span.all = host.span.countOnes.map fun set => decide (set = host.bits.length)) ∧
    (host.span.all = host.span.countZeros.map fun clear => decide (clear = 0)) ∧
    (host.span.any = host.span.countOnes.map fun set => decide (0 < set)) ∧
    host.span.any = host.span.countZeros.map fun clear => decide (clear < host.bits.length) := by
  have sound := OnesWalk.ones_sound host.held
  have both := host.span.length_placesOf_add
  have set : host.span.countOnes = _ := Span.countOf_eq host.held true
  have clear : host.span.countZeros = _ := Span.countOf_eq host.held false
  have length : host.bits.length = host.span.len := Span.length_toList host.span
  refine ⟨fun value => ⟨host.span.placesOf_ascending value, Span.enumerates host.held value⟩,
    ?_, ?_, ?_, ?_, ?_, ?_⟩
  · obtain ⟨walk, ran, -⟩ := OnesWalk.queue.drain host.span.ones sound
    rw [Span.placesOf_true]
    exact ⟨walk, ran⟩
  · obtain ⟨walk, ran, -⟩ := OnesWalk.queue.length host.span.ones sound
    rw [set, Span.placesOf_true]
    exact ⟨_, walk, ran, rfl⟩
  · rw [Span.all_eq host.held, set, length]
    exact congrArg Except.ok (decide_eq_decide.mpr (by omega))
  · rw [Span.all_eq host.held, clear]
    rfl
  · rw [Span.any_eq host.held, set]
    rfl
  · rw [Span.any_eq host.held, clear, length]
    exact congrArg Except.ok (decide_eq_decide.mpr (by omega))

/-- Eleven bits across two bytes, six of them set: the first one from the seventh place on has three
before it. The last clear bit is the place before the last, with four clear ones before it. -/
theorem counting_scanning_and_enumerating_agree_across_two_bytes :
    let host : Host 8 := .slice ⟨#[0xA7#8, 0x5A#8], 4, 11⟩ (show 4 + 11 ≤ 2 * 8 by decide)
    (∃ walk, (TwoWayWalk.drain : Attempt (OnesWalk 8) (List Nat)) host.span.ones =
      .ok [1, 3, 5, 7, 8, 10] walk) ∧
    host.span.findNext true 6 = .ok (some 7) ∧ host.span.rank 7 = .ok 3 ∧
    host.span.findLast false = .ok (some 9) ∧ host.span.rankOf false 9 = .ok 4 ∧
    host.span.countZeros = .ok 5 ∧ host.span.all = .ok false := by
  intro host
  have ones : host.span.placesOf true = [1, 3, 5, 7, 8, 10] := by decide
  have zeros : host.span.placesOf false = [0, 2, 4, 6, 9] := by decide
  obtain ⟨picture, drained, -, -, decided, -⟩ := counting_scanning_and_enumerating_agree host
  have set := (picture true).2
  have clear := (picture false).2
  rw [ones] at set drained
  rw [zeros] at clear
  have five : host.span.countZeros = .ok 5 := clear.count
  have found : host.span.test 7 = .ok true ∧ host.span.rankOf true 7 = .ok 3 :=
    set.item.mp (show [1, 3, 5, 7, 8, 10][3]? = some 7 from rfl)
  refine ⟨drained, (set.next 6).trans (by decide),
    Span.rankOf_true host.span 7 ▸ found.2, clear.last.trans (by decide),
    (clear.rank (by decide)).trans (by decide), five, ?_⟩
  rw [decided, five]
  rfl

end PackedBits
