import PackedBits.Proofs.Range.Answer
import PackedBits.Proofs.Span.OnList

/-! What the changes that move bits about do to the list of a span: shifts, turns, the steps from
one arrangement to the next, moves inside the span, a pass that clears bits, and the exchange of
two spans. -/
namespace PackedBits

namespace Span
variable {w : Nat} [HasBits w] {s : Span w}

theorem resetAll_does (held : s.Held) : s.Does resetAll (.ok ((), List.replicate s.len false)) := by
  have cleared := fillRange_does held Bounds.all false
  rwa [OnList.onRange_all, List.map_const', length_toList] at cleared

theorem shiftLeft_does (held : s.Held) (n : Nat) :
    s.Does (shiftLeft n) (.ok ((), OnList.shiftLeft n s.toList)) := by
  refine .get_bind ?_
  by_cases all : s.len ≤ n
  · have none : OnList.shiftLeft n s.toList = List.replicate s.len false := by
      rw [OnList.shiftLeft, length_toList, Nat.min_eq_right all, Nat.sub_eq_zero_of_le all,
        List.take_zero, List.append_nil]
    rw [if_pos all, none]
    exact resetAll_does held
  · rw [if_neg all]
    -- The bits leave room for those that are shifted in.
    have room : s.len - n + n = s.len := by omega
    have shifted := insert_ends held false (Nat.zero_le (s.len - n)) room
    simp only [Cursor.forward_zero, Nat.sub_zero, room] at shifted
    refine Does.of_ends shifted fun _ s' list => ?_
    rw [list, OnList.shiftLeft, length_toList, Nat.min_eq_left (by omega), List.take_zero,
      List.nil_append, List.drop_zero]

theorem shiftRight_does (held : s.Held) (n : Nat) :
    s.Does (shiftRight n) (.ok ((), OnList.shiftRight n s.toList)) := by
  refine .get_bind ?_
  by_cases all : s.len ≤ n
  · have none : OnList.shiftRight n s.toList = List.replicate s.len false := by
      rw [OnList.shiftRight, length_toList, Nat.min_eq_right all,
        List.drop_of_length_le (by simpa using all), List.nil_append]
    rw [if_pos all, none]
    exact resetAll_does held
  · rw [if_neg all]
    have holds := holds_first held
    have place : Holds s.buffers s.first (s.len - n) := holds.lower (by omega)
    obtain ⟨m₁, moved, lower⟩ := copy_overwritten s.buffers (s.first + n) (s.len - n) s.first
      (holds.part (by omega)) place (.inr (.inl (by simp only [Cursor.position_forward]; omega)))
    have high : Holds m₁ (s.first + (s.len - n)) n := ((lower.altered place).holds holds).part
      (by omega)
    obtain ⟨m₂, filled, upper⟩ := fill_overwritten m₁ (s.first + (s.len - n)) n false high
    -- Together the two writes are one of the whole span.
    have written : Overwritten s.buffers m₂ s.first s.len fun i =>
        if i < s.len - n then s.bit (n + i) else false := by
      have both : Overwritten s.buffers m₂ s.first (s.len - n + n) fun i =>
          if i < s.len - n then s.bit (n + i) else false := by
        refine (lower.congr fun i below => ?_).append (upper.congr fun i below => ?_)
        · rw [if_pos below, bitsAt_forward, bitsAt_first held (by omega)]
        · rw [if_neg (by omega)]
      rwa [Nat.sub_add_cancel (by omega)] at both
    have ran : (do
        let copied ← copy s.buffers (s.first + n) (s.len - n) s.first
        fill copied.1 (s.stop - n) n false) = some m₂ := by
      simp only [moved, stop, Cursor.forward_backward s.first (show n ≤ s.len by omega)]
      exact filled
    refine rewrite_change_does held ran written (map_range_eq ?_ fun i below => ?_)
    · rw [OnList.shiftRight, List.length_append, List.length_drop, List.length_replicate,
        length_toList]
      omega
    · rw [OnList.shiftRight, List.getElem?_append, List.length_drop, List.getElem?_drop,
        length_toList, getElem?_toList, List.getElem?_replicate]
      by_cases kept : i < s.len - n
      · rw [if_pos kept, if_pos kept, if_pos (by omega)]
      · rw [if_neg kept, if_neg kept, if_pos (by omega)]

theorem reverse_does (held : s.Held) : s.Does reverse (.ok ((), s.toList.reverse)) := by
  have holds := holds_first held
  obtain ⟨m', reversed, became⟩ := reverse_overwritten s.buffers s.first s.len holds
  refine .get_bind (rewrite_change_does held reversed became
    (map_range_eq (by simp) fun i below => ?_))
  rw [List.getElem?_reverse (by simpa using below), length_toList,
    getElem?_toList_of_lt (by omega), bitsAt_first held (by omega)]

omit [HasBits w] in
theorem map_rotated {μ : Type} [Memory μ w] (m : μ) (p : Cursor w) {middle n : Nat}
    (within : middle ≤ n) :
    (List.range n).map (rotated m p middle (n - middle)) =
      OnList.turned middle (runBits m p n) := by
  refine map_range_eq ?_ fun i below => ?_
  · rw [OnList.turned, List.length_append, List.length_drop, List.length_take, length_runBits]
    omega
  · rw [OnList.turned, List.getElem?_append, List.length_drop, List.getElem?_drop,
      List.getElem?_take, length_runBits, rotated]
    by_cases front : i < n - middle
    · rw [if_pos front, if_pos front, getElem?_runBits, if_pos (by omega)]
    · rw [if_neg front, if_neg front, if_pos (by omega), getElem?_runBits, if_pos (by omega)]

theorem rotate_does (held : s.Held) (middle : Nat) :
    s.Does (rotate middle) (OnList.rotate middle s.toList) := by
  refine .get_bind ?_
  by_cases outside : s.len < middle
  · rw [if_pos outside]
    refine Does.panic ?_
    rw [OnList.rotate, length_toList, if_pos outside]
    rfl
  · rw [if_neg outside]
    have within := Nat.le_of_not_lt outside
    have holds := holds_first held
    obtain ⟨m', turned, became⟩ := rotate_overwritten s.buffers s.first within holds
    have ran : (do
        let answer ← PackedBits.rotate s.buffers s.first middle s.len
        return (answer.1, (answer.2 - s.first).toNat) : Option (Buffers w × Nat)) =
        some (m', s.len - middle) := by
      simp only [turned, Option.bind_eq_bind, Option.bind_some, Cursor.forward_sub,
        Int.toNat_natCast]
      rfl
    rw [OnList.rotate, length_toList, if_neg outside]
    refine rewrite_does held ran became ?_
    rw [map_rotated s.buffers s.first within, runBits, map_bitsAt_first held]

theorem turn_does (held : s.Held) {middle : Nat} (within : middle ≤ s.len) :
    s.Does (discard (rotate middle)) (.ok ((), OnList.turned middle s.toList)) := by
  have turned := (rotate_does held middle).discard
  rwa [OnList.rotate, length_toList, if_neg (Nat.not_lt.mpr within)] at turned

omit [HasBits w] in
theorem turned_of_empty (empty : s.len = 0) (middle : Nat) :
    OnList.turned middle s.toList = s.toList := by
  have none : s.toList = [] := List.eq_nil_of_length_eq_zero (by rw [length_toList, empty])
  rw [none, OnList.turned, List.drop_nil, List.take_nil, List.append_nil]

theorem rotateLeft_does (held : s.Held) (n : Nat) :
    s.Does (rotateLeft n) (.ok ((), OnList.turned (n % s.len) s.toList)) := by
  refine .get_bind ?_
  by_cases empty : s.len = 0
  · rw [if_pos empty, turned_of_empty empty]
    exact ⟨Within.refl s, rfl⟩
  · rw [if_neg empty]
    exact turn_does held (Nat.le_of_lt (Nat.mod_lt n (Nat.pos_of_ne_zero empty)))

theorem rotateRight_does (held : s.Held) (n : Nat) :
    s.Does (rotateRight n) (.ok ((), OnList.turned (s.len - n % s.len) s.toList)) := by
  refine .get_bind ?_
  by_cases empty : s.len = 0
  · rw [if_pos empty, turned_of_empty empty]
    exact ⟨Within.refl s, rfl⟩
  · rw [if_neg empty]
    exact turn_does held (Nat.sub_le ..)

theorem arrange_does (held : s.Held) (backward : Bool) :
    s.Does (write fun m => arrange m s.first s.len backward)
      (.ok ((neighbour backward s.toList).2, (neighbour backward s.toList).1)) := by
  have holds := holds_first held
  obtain ⟨m', new, stepped, ran, became, next⟩ :=
    arrange_overwritten s.buffers s.first s.len backward holds
  rw [runBits, map_bitsAt_first held] at next
  rw [next]
  exact rewrite_does held ran became rfl

theorem nextPermutation_does (held : s.Held) :
    s.Does nextPermutation (.ok ((neighbour false s.toList).2, (neighbour false s.toList).1)) :=
  .get_bind (arrange_does held false)

theorem prevPermutation_does (held : s.Held) :
    s.Does prevPermutation (.ok ((neighbour true s.toList).2, (neighbour true s.toList).1)) :=
  .get_bind (arrange_does held true)

theorem copy_back_ends (held : s.Held) {source target n : Nat} (order : source ≤ target)
    (within : target + n ≤ s.len) :
    (change fun m => do
        return (← copyBackward m (s.first + source) n (s.first + target + n)).1).Ends s
      (fun _ s' => Within s s' ∧
        s'.toList = splice s.toList target (target + n) ((s.toList.drop source).take n))
      fun _ _ => False := by
  have words : s.buffers.words 0 = s.words := rfl
  have holds := holds_first held
  obtain ⟨m', copied, written⟩ := copy_backward_overwritten s.buffers (s.first + source) n
    (s.first + target) (holds.part (by omega)) (holds.part within)
    (.inr (.inl (by simp only [Cursor.position_forward]; omega)))
  exact change_ends (by simp only [copied]; rfl) (altered_overwritten words held written within)
    (toList_moved words words held held (by omega) within written)

theorem copyWithin_does (held : s.Held) (bounds : Bounds) (target : Nat) :
    s.Does (copyWithin bounds target) (OnList.copyWithin bounds target s.toList) := by
  refine .get_bind (.ask_bind ?_ ?_)
  · intro extent resolved
    obtain ⟨order, inside⟩ := Bounds.resolve_within resolved
    have size := Extent.start_add_size order
    rw [OnList.copyWithin_resolved (by rwa [length_toList]), length_toList]
    by_cases outside : s.len - extent.size < target
    · rw [if_pos outside]
      refine Does.panic ?_
      simp only [if_pos outside]
    · rw [if_neg outside]
      simp only [if_neg outside]
      -- Downwards the bits move from the first one on, upwards from the last one.
      by_cases down : target ≤ extent.start
      · have moved := copy_ends held down (show extent.start + extent.size ≤ s.len by omega)
        simp only [down, if_true]
        exact Does.of_ends moved fun _ s' list => by rw [list]
      · have moved := copy_back_ends held (Nat.le_of_not_le down)
          (show target + extent.size ≤ s.len by omega)
        simp only [down, if_false]
        exact Does.of_ends moved fun _ s' list => by rw [list]
  · intro failure stopped
    exact ⟨rfl, Bounds.resolve_panics stopped,
      OnList.copyWithin_error (by rwa [length_toList])⟩

theorem find_rest (held : s.Held) (value : Bool) {start : Nat} (within : start ≤ s.len) :
    ∃ found, s.read (fun m => find m (s.first + start) (s.len - start) value) = .ok found ∧
      First (fun i => s.bit (start + i)) value (s.len - start) found := by
  obtain ⟨found, seen, first⟩ := find_spec s.buffers (s.first + start) (s.len - start) value
    ((holds_first held).part (by omega))
  refine ⟨found, congrArg Query.access seen, first.congr fun i below => ?_⟩
  rw [bitsAt_forward]
  exact (bitsAt_first held (by omega)).symm

theorem find_cases (held : s.Held) {front rest : List Bool} (list : s.toList = front ++ rest) :
    (s.read (fun m => find m (s.first + front.length) (s.len - front.length) true) =
        .ok (s.len - front.length) ∧ rest = List.replicate rest.length false) ∨
      ∃ k after, s.read (fun m => find m (s.first + front.length) (s.len - front.length) true) =
        .ok k ∧ k ≠ s.len - front.length ∧ rest = List.replicate k false ++ true :: after := by
  have length : front.length + rest.length = s.len := by
    rw [← length_toList s, list, List.length_append]
  have size : s.len - front.length = rest.length := by omega
  obtain ⟨found, answer, near⟩ := find_rest held true (show front.length ≤ s.len by omega)
  have each (i : Nat) (below : i < rest.length) :
      rest[i]? = some (s.bit (front.length + i)) := by
    have here : s.toList[front.length + i]? = _ := getElem?_toList_of_lt (by omega)
    rwa [list, List.getElem?_append_right (Nat.le_add_right ..), Nat.add_sub_cancel_left] at here
  have bound := near.within
  have passed : rest.take found = List.replicate found false := by
    refine List.ext_getElem? fun i => ?_
    rw [List.getElem?_take, List.getElem?_replicate]
    by_cases before : i < found
    · rw [if_pos before, if_pos before, each i (by omega), near.before i before]
      rfl
    · rw [if_neg before, if_neg before]
  by_cases none : found = s.len - front.length
  · refine .inl ⟨none ▸ answer, ?_⟩
    rw [none, size, List.take_length] at passed
    exact passed
  · refine .inr ⟨found, rest.drop (found + 1), answer, none, ?_⟩
    have hit := each found (by omega)
    rw [near.hit (by omega)] at hit
    obtain ⟨below, set⟩ := List.getElem?_eq_some_iff.mp hit
    rw [← passed, ← set, List.getElem_cons_drop, List.take_append_drop]

theorem clear_does (held : s.Held) {front after : List Bool}
    (list : s.toList = front ++ [true] ++ after) :
    s.Does (change fun m => writeBit m (s.first + front.length) false)
      (.ok ((), front ++ [false] ++ after)) := by
  have below : front.length < s.len := by
    rw [← length_toList s, list, List.length_append, List.length_append, List.length_singleton]
    omega
  refine Does.of_ends (set_bit_ends held false below) fun _ s' cleared => ?_
  rw [cleared, list]
  simp

theorem retainFrom_does {τ : Type} (keep : Nat → τ → Bool × τ) (held : s.Held)
    {front rest : List Bool} (list : s.toList = front ++ rest) (state : τ) :
    s.Does (retainFrom keep s.len front.length state)
      (.ok ((OnList.retain keep front.length rest state).1,
        front ++ (OnList.retain keep front.length rest state).2)) := by
  -- The predicate may change its state, so the induction is on the bits still to look at.
  induction rounds : rest.length using Nat.strongRecOn generalizing s front rest state with
  | ind rounds ih =>
      have length : front.length + rest.length = s.len := by
        rw [← length_toList s, list, List.length_append]
      unfold retainFrom
      by_cases more : front.length < s.len
      · rw [if_pos more]
        refine .get_bind ?_
        rcases find_cases held list with ⟨answer, clear⟩ | ⟨k, after, answer, some, split⟩
        · refine .ask_answered answer ?_
          rw [if_pos rfl]
          refine ⟨Within.refl s, ?_⟩
          have same := OnList.retain_skips keep front.length rest.length [] state
          rw [List.append_nil, ← clear] at same
          rw [same, OnList.retain, List.append_nil, list]
        · refine .ask_answered answer ?_
          rw [if_neg some, split, OnList.retain_skips]
          rcases asked : keep (front.length + k) state with ⟨kept, state'⟩
          simp only [OnList.retain, asked]
          -- Whatever becomes of this bit, the rest of the pass is a shorter one.
          have later (s' : Span w) (within : Within s s')
              (list' : s'.toList = front ++ List.replicate k false ++ [kept] ++ after) :
              s'.Does (retainFrom keep s.len (front.length + k + 1) state')
                (.ok ((OnList.retain keep (front.length + k + 1) after state').1,
                  front ++ (List.replicate k false ++
                    kept :: (OnList.retain keep (front.length + k + 1) after state').2))) := by
            have shorter : after.length < rest.length := by
              rw [split, List.length_append, List.length_cons]
              omega
            have done := ih after.length (by omega) (within.held held) list' state' rfl
            have place : (front ++ List.replicate k false ++ [kept]).length =
                front.length + k + 1 := by
              simp only [List.length_append, List.length_replicate, List.length_singleton]
            rw [place, within.len] at done
            simpa only [List.append_assoc, List.singleton_append] using done
          have here : s.toList = front ++ List.replicate k false ++ [true] ++ after := by
            rw [list, split]
            simp
          cases kept with
          | true => exact later s (Within.refl s) here
          | false =>
              have cleared := clear_does held here
              rw [List.length_append, List.length_replicate] at cleared
              exact cleared.andThen later
      · rw [if_neg more]
        have none : rest = [] := List.eq_nil_of_length_eq_zero (by omega)
        refine ⟨Within.refl s, ?_⟩
        rw [none, list, none]
        rfl

theorem retain_does {τ : Type} (keep : Nat → τ → Bool × τ) (held : s.Held) (state : τ) :
    s.Does (retain keep state) (.ok (OnList.retain keep 0 s.toList state)) :=
  .get_bind (retainFrom_does keep held (List.nil_append s.toList).symm state)

theorem toList_words {m : Buffers w} {buffer : Nat} {new : Nat → Bool}
    (found : ∀ i < s.len, bit? m buffer ((s.firstIn buffer).position + i) = some (new i)) :
    toList { s with words := m.words buffer } = (List.range s.len).map new := by
  refine List.map_congr_left fun i member => ?_
  have here := found i (List.mem_range.mp member)
  rw [firstIn, Cursor.position_ofPosition, ← Int.natCast_add, bit?_buffers] at here
  split at here
  · exact Option.some.inj here
  · cases here

theorem swapBits_does {other : Span w} (held : s.Held) (heldOther : other.Held) :
    swapBits.Ends (s, other)
      (fun _ after => Within s after.1 ∧ Within other after.2 ∧
        OnList.exchange s.toList other.toList = .ok (after.1.toList, after.2.toList))
      fun failure after => after = (s, other) ∧ (∃ panic, failure = .panic panic) ∧
        OnList.exchange s.toList other.toList = .error failure := by
  refine .get_bind ?_
  by_cases same : s.len = other.len
  · simp only [same, if_true]
    have words : (s.beside other).words 0 = s.words := rfl
    have wordsOther : (s.beside other).words 1 = other.words := rfl
    have holds : Holds (s.beside other) (s.firstIn 0) other.len := same ▸ holds_words words held
    have holdsOther := holds_words wordsOther heldOther
    have apart : Apart (s.firstIn 0) (other.firstIn 1) other.len :=
      .inl (by simp [firstIn, Cursor.ofPosition])
    obtain ⟨m', swapped, exchanged⟩ := swap_ranges_exchanged (s.beside other) (s.firstIn 0)
      other.len (other.firstIn 1) holds holdsOther apart
    have ran : swapRanges (⟨#[s.words, other.words]⟩ : Buffers w) (s.firstIn 0) other.len
        (other.firstIn 1) = some (m', other.firstIn 1 + other.len) := swapped
    have altered := exchanged.altered holds holdsOther
    have taken : toList { s with words := m'.words 0 } = other.toList := by
      refine (toList_words fun i below => exchanged.first (same ▸ below)).trans ?_
      rw [same]
      exact List.map_congr_left fun i member =>
        bitsAt_words wordsOther heldOther (List.mem_range.mp member)
    have given : toList { other with words := m'.words 1 } = s.toList := by
      refine (toList_words fun i below => exchanged.second apart below).trans ?_
      rw [← same]
      exact List.map_congr_left fun i member =>
        bitsAt_words words held (List.mem_range.mp member)
    unfold Attempt.Ends writeBoth
    simp only [ran, Option.map_some]
    refine ⟨Within.of_altered words altered ?_, Within.of_altered wordsOther altered ?_, ?_⟩
    · rintro position (here | there)
      · rwa [same]
      · cases there.1
    · rintro position (here | there)
      · cases here.1
      · exact there
    · rw [taken, given, OnList.exchange, length_toList, length_toList, if_pos same]
      rfl
  · simp only [same, if_false]
    refine ⟨rfl, ⟨_, rfl⟩, ?_⟩
    rw [OnList.exchange, length_toList, length_toList, if_neg same]
    rfl

end Span

end PackedBits
