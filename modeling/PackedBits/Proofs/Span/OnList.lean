import PackedBits.Proofs.Range.Arrange
import PackedBits.Proofs.Span.Change

/-! What every change in place does to the list of bits of a span. The list is all it depends on:
neither the words around the span nor the place or the width of the words come into it. A change
either does to the list what is said here and leaves everything around the span alone, or panics
and has changed nothing. -/
namespace PackedBits

theorem map_range_eq {n : Nat} {new : Nat → Bool} {bits : List Bool} (length : bits.length = n)
    (each : ∀ i < n, bits[i]? = some (new i)) : (List.range n).map new = bits := by
  refine List.ext_getElem? fun i => ?_
  by_cases below : i < n
  · rw [List.getElem?_map, List.getElem?_range below, Option.map_some, each i below]
  · rw [List.getElem?_eq_none (by simpa using Nat.le_of_not_lt below),
      List.getElem?_eq_none (by omega)]

namespace OnList
variable {α τ : Type}

def atBit (index : Nat) (change : Bool → α × Bool) (bits : List Bool) : Query (α × List Bool) :=
  match bits[index]? with
  | some bit => return ((change bit).1, bits.set index (change bit).2)
  | none => throw (.panic (.position index bits.length))

def swap (a b : Nat) (bits : List Bool) : Query (Unit × List Bool) :=
  match bits[a]?, bits[b]? with
  | some x, some y => return ((), (bits.set a y).set b x)
  | some _, none => throw (.panic (.position b bits.length))
  | none, _ => throw (.panic (.position a bits.length))

def onRange (bounds : Bounds) (change : Bool → Bool) (bits : List Bool) :
    Query (Unit × List Bool) :=
  let extent : Extent := ⟨bounds.first, bounds.past bits.length⟩
  match bounds.panic bits.length with
  | none => return ((), splice bits extent.start extent.stop
      (((bits.drop extent.start).take extent.size).map change))
  | some panic => throw (.panic panic)

def combine (op : BitOp) (other bits : List Bool) : List Bool :=
  List.zipWith op.onBits bits other ++ bits.drop other.length

/-- Partners that are missing count as clear. -/
def andWith (other bits : List Bool) : List Bool :=
  List.zipWith BitOp.and.onBits bits other ++ (bits.drop other.length).map fun _ => false

def shiftLeft (n : Nat) (bits : List Bool) : List Bool :=
  List.replicate (min n bits.length) false ++ bits.take (bits.length - n)

def shiftRight (n : Nat) (bits : List Bool) : List Bool :=
  bits.drop n ++ List.replicate (min n bits.length) false

def turned (middle : Nat) (bits : List Bool) : List Bool := bits.drop middle ++ bits.take middle

def rotate (middle : Nat) (bits : List Bool) : Query (Nat × List Bool) :=
  if bits.length < middle then throw (.panic (.rotationPoint middle bits.length))
  else return (bits.length - middle, turned middle bits)

def copyWithin (bounds : Bounds) (target : Nat) (bits : List Bool) :
    Query (Unit × List Bool) :=
  let extent : Extent := ⟨bounds.first, bounds.past bits.length⟩
  match bounds.panic bits.length with
  | none =>
      if bits.length - extent.size < target then throw (.panic (.destination target bits.length))
      else return ((), splice bits target (target + extent.size)
        ((bits.drop extent.start).take extent.size))
  | some panic => throw (.panic panic)

/-- Asks about the set bits of a list whose first bit is at position `i`, and clears those that are
turned down. -/
def retain (keep : Nat → τ → Bool × τ) : Nat → List Bool → τ → τ × List Bool
  | _, [], state => (state, [])
  | i, false :: rest, state =>
      let after := retain keep (i + 1) rest state
      (after.1, false :: after.2)
  | i, true :: rest, state =>
      let answer := keep i state
      let after := retain keep (i + 1) rest answer.2
      (after.1, answer.1 :: after.2)

def exchange (bits other : List Bool) : Query (List Bool × List Bool) :=
  if bits.length = other.length then return (other, bits)
  else throw (.panic (.unequalLengths bits.length other.length))

section
variable {bounds : Bounds} {extent : Extent} {bits : List Bool} {change : Bool → Bool}

theorem onRange_ok (resolved : bounds.resolve bits.length = .ok extent) :
    onRange bounds change bits = .ok ((), splice bits extent.start extent.stop
      (((bits.drop extent.start).take extent.size).map change)) := by
  obtain ⟨rfl, -, none⟩ := Bounds.resolve_ok resolved
  rw [onRange, none]
  rfl

theorem onRange_error {failure : Failure} (stopped : bounds.resolve bits.length = .error failure) :
    onRange bounds change bits = .error failure := by
  obtain ⟨panic, stops, rfl⟩ := Bounds.resolve_error stopped
  rw [onRange, stops]
  rfl

theorem copyWithin_resolved {target : Nat} (resolved : bounds.resolve bits.length = .ok extent) :
    copyWithin bounds target bits =
      if bits.length - extent.size < target then .error (.panic (.destination target bits.length))
      else .ok ((), splice bits target (target + extent.size)
        ((bits.drop extent.start).take extent.size)) := by
  obtain ⟨rfl, -, none⟩ := Bounds.resolve_ok resolved
  rw [copyWithin, none]
  rfl

theorem copyWithin_error {target : Nat} {failure : Failure}
    (stopped : bounds.resolve bits.length = .error failure) :
    copyWithin bounds target bits = .error failure := by
  obtain ⟨panic, stops, rfl⟩ := Bounds.resolve_error stopped
  rw [copyWithin, stops]
  rfl

theorem onRange_startingAt {start : Nat} (within : start ≤ bits.length) :
    onRange (Bounds.startingAt start) change bits =
      .ok ((), bits.take start ++ (bits.drop start).map change) := by
  have all : (bits.drop start).take (bits.length - start) = bits.drop start :=
    List.take_of_length_le (Nat.le_of_eq List.length_drop)
  rw [onRange_ok (Bounds.resolve_startingAt within), Extent.size, all, splice, List.drop_length,
    List.append_nil]

theorem onRange_all : onRange Bounds.all change bits = .ok ((), bits.map change) := by
  have all : bits.take (bits.length - 0) = bits := List.take_length
  rw [onRange_ok (Bounds.resolve_all bits.length), Extent.size, splice, List.drop_length,
    List.append_nil, List.drop_zero, all, List.take_zero, List.nil_append]

end

theorem retain_skips (keep : Nat → τ → Bool × τ) (i k : Nat) (rest : List Bool) (state : τ) :
    retain keep i (List.replicate k false ++ rest) state =
      ((retain keep (i + k) rest state).1,
        List.replicate k false ++ (retain keep (i + k) rest state).2) := by
  induction k generalizing i with
  | zero => rfl
  | succ k ih =>
      rw [List.replicate_succ, List.cons_append, retain, ih (i + 1),
        show i + 1 + k = i + (k + 1) by omega]
      rfl

end OnList

namespace Span
variable {w : Nat} [HasBits w] {α β : Type} {s : Span w}

/-- From `s` the attempt turns the bits into those of the outcome and leaves all others alone, or
panics as the outcome does and changes nothing. -/
def Does (s : Span w) (attempt : Attempt (Span w) α) (outcome : Query (α × List Bool)) : Prop :=
  attempt.Ends s (fun value s' => Within s s' ∧ outcome = .ok (value, s'.toList))
    fun failure s' => s' = s ∧ (∃ panic, failure = .panic panic) ∧ outcome = .error failure

namespace Does
variable {attempt : Attempt (Span w) α} {outcome : Query (α × List Bool)}

omit [HasBits w] in
theorem of_ends {done : α → Span w → Prop}
    (ends : attempt.Ends s (fun value s' => Within s s' ∧ done value s') fun _ _ => False)
    (same : ∀ value s', done value s' → outcome = .ok (value, s'.toList)) :
    s.Does attempt outcome :=
  ends.imp (fun value s' reached => ⟨reached.1, same value s' reached.2⟩) fun _ _ => False.elim

omit [HasBits w] in
theorem of_value {value : α} {bits : List Bool}
    (ends : attempt.Ends s (fun answer s' => Within s s' ∧ answer = value ∧ s'.toList = bits)
      fun _ _ => False) : s.Does attempt (.ok (value, bits)) := by
  refine of_ends ends ?_
  rintro answer s' ⟨rfl, list⟩
  rw [list]

omit [HasBits w] in
theorem done {value : α} {bits : List Bool} (does : s.Does attempt (.ok (value, bits))) :
    attempt.Ends s (fun answer s' => Within s s' ∧ answer = value ∧ s'.toList = bits)
      fun _ _ => False := by
  refine Attempt.Ends.imp does ?_ ?_
  · rintro answer s' ⟨within, same⟩
    cases same
    exact ⟨within, rfl, rfl⟩
  · rintro failure s' ⟨-, -, stopped⟩
    cases stopped

omit [HasBits w] in
theorem andThen {value : α} {bits : List Bool} {next : α → Attempt (Span w) β}
    {result : β × List Bool} (does : s.Does attempt (.ok (value, bits)))
    (rest : ∀ s', Within s s' → s'.toList = bits → s'.Does (next value) (.ok result)) :
    s.Does (attempt >>= next) (.ok result) := by
  have ends : (attempt >>= next).Ends s
      (fun last s' => Within s s' ∧ result = (last, s'.toList))
      fun _ _ => False := by
    refine does.done.bind ?_
    rintro answer s' ⟨within, rfl, list⟩
    refine (rest s' within list).done.imp ?_ fun _ _ => id
    rintro last s'' ⟨within', rfl, list'⟩
    exact ⟨within.trans within', by rw [list']⟩
  exact of_ends ends fun _ _ => congrArg Except.ok

omit [HasBits w] in
theorem asked {question : Span w → Query α} {value : α} {next : α → Attempt (Span w) β}
    {outcome : Query (β × List Bool)} (does : s.Does (Attempt.ask question >>= next) outcome)
    (answer : question s = .ok value) : s.Does (next value) outcome := by
  have passed : (Attempt.ask question >>= next) s = next value s :=
    Attempt.bind_apply (Attempt.ask_ok answer)
  rw [Does, Attempt.Ends, passed] at does
  exact does

omit [HasBits w] in
theorem panic {panic : Panic} (stopped : outcome = .error (.panic panic)) :
    s.Does (Attempt.panic panic) outcome := ⟨rfl, ⟨panic, rfl⟩, stopped⟩

omit [HasBits w] in
theorem map (does : s.Does attempt outcome) (change : α → β) :
    s.Does (change <$> attempt) ((fun after => (change after.1, after.2)) <$> outcome) := by
  have mapped : attempt.Ends s
      (fun value s' => Within s s' ∧
        (fun after => (change after.1, after.2)) <$> outcome = .ok (change value, s'.toList))
      fun failure s' => s' = s ∧ (∃ panic, failure = .panic panic) ∧
        (fun after => (change after.1, after.2)) <$> outcome = .error failure := by
    refine Attempt.Ends.imp does ?_ ?_
    · rintro value s' ⟨within, same⟩
      exact ⟨within, by rw [same]; rfl⟩
    · rintro failure s' ⟨unchanged, panics, same⟩
      exact ⟨unchanged, panics, by rw [same]; rfl⟩
  exact mapped.map fun _ _ => id

omit [HasBits w] in
theorem discard (does : s.Does attempt outcome) :
    s.Does (discard attempt) ((fun after => ((), after.2)) <$> outcome) := does.map fun _ => ()

omit [HasBits w] in
theorem returned (s : Span w) (value : α) : s.Does (Pure.pure value) (.ok (value, s.toList)) :=
  ⟨Within.refl s, rfl⟩

omit [HasBits w] in
/-- The outcome settles what an attempt makes of a span, the words around the bits included. -/
theorem unique {attempt' : Attempt (Span w) α} (does : s.Does attempt outcome)
    (does' : s.Does attempt' outcome) : attempt s = attempt' s := by
  obtain ⟨value, s₁, ran, within, same⟩ | ⟨failure, s₁, ran, rfl, -, same⟩ := Attempt.Ends.ran does
  · obtain ⟨value', s₂, ran', within', same'⟩ | ⟨_, _, _, _, _, same'⟩ := Attempt.Ends.ran does'
    · rw [same] at same'
      obtain ⟨rfl, bits⟩ := Prod.mk.inj (Except.ok.inj same')
      have whole : s₂ = s₁ := (within.symm.trans within').eq_of_toList bits.symm
      rw [ran, ran', whole]
    · rw [same] at same'
      cases same'
  · obtain ⟨_, _, _, _, same'⟩ | ⟨failure', s₂, ran', rfl, -, same'⟩ := Attempt.Ends.ran does'
    · rw [same] at same'
      cases same'
    · rw [same] at same'
      rw [ran, ran', Except.error.inj same']

end Does

omit [HasBits w] in
theorem getElem?_toList_of_lt {index : Nat} (below : index < s.len) :
    s.toList[index]? = some (s.bit index) := by rw [getElem?_toList, if_pos below]

omit [HasBits w] in
theorem getElem?_toList_of_le {index : Nat} (above : s.len ≤ index) : s.toList[index]? = .none := by
  rw [getElem?_toList, if_neg (Nat.not_lt.mpr above)]

theorem bitsAt_index (held : s.Held) {index : Nat} (below : index < s.len) :
    bitsAt s.buffers (s.first + index) 0 = s.bit index := by
  rw [bitsAt_forward]
  exact bitsAt_first held below

omit [HasBits w] in
theorem atBit_inside {index : Nat} (below : index < s.len) (change : Bool → α × Bool) :
    OnList.atBit index change s.toList =
      .ok ((change (s.bit index)).1, s.toList.set index (change (s.bit index)).2) := by
  rw [OnList.atBit, getElem?_toList_of_lt below]
  rfl

omit [HasBits w] in
theorem atBit_outside {index : Nat} (above : s.len ≤ index) (change : Bool → α × Bool) :
    OnList.atBit index change s.toList = .error (.panic (.position index s.len)) := by
  rw [OnList.atBit, getElem?_toList_of_le above, length_toList]
  rfl

theorem bitRef_cases (s : Span w) (index : Nat) :
    (index < s.len ∧ s.bitRef index = .ok (s.first + index).ref) ∨
      (s.len ≤ index ∧ s.bitRef index = .error (.panic (.position index s.len))) := by
  rcases checkIndex_cases s index with ⟨below, answer⟩ | ⟨above, answer⟩
  · exact .inl ⟨below, by rw [bitRef, answer]; rfl⟩
  · exact .inr ⟨above, by rw [bitRef, answer]; rfl⟩

theorem through_ref_does (held : s.Held) (index : Nat) (change : Bool → α × Bool)
    {next : BitRef w → Attempt (Span w) α}
    (through : Holds s.buffers (s.first + index) 1 → index < s.len →
      (next (s.first + index).ref).Ends s (fun value s' => Within s s' ∧
        value = (change (s.bit index)).1 ∧ s'.toList = s.toList.set index (change (s.bit index)).2)
        fun _ _ => False) :
    s.Does (Attempt.ask (·.bitRef index) >>= next) (OnList.atBit index change s.toList) := by
  rcases bitRef_cases s index with ⟨below, answer⟩ | ⟨above, refused⟩
  · rw [atBit_inside below]
    exact .ask_answered answer (Does.of_value (through ((holds_first held).part below) below))
  · exact .ask_refused refused ⟨rfl, ⟨_, rfl⟩, atBit_outside above change⟩

theorem set_does (held : s.Held) (index : Nat) (value : Bool) :
    s.Does (set index value) (OnList.atBit index (fun _ => ((), value)) s.toList) := by
  refine (set_ends held index value).imp ?_ ?_
  · rintro ⟨⟩ s' ⟨within, below, list⟩
    exact ⟨within, by rw [atBit_inside below, list]⟩
  · rintro failure s' ⟨rfl, above, rfl⟩
    exact ⟨rfl, ⟨_, rfl⟩, atBit_outside above _⟩

theorem flip_does (held : s.Held) (index : Nat) :
    s.Does (flip index) (OnList.atBit index (fun bit => ((), !bit)) s.toList) := by
  refine through_ref_does held index _ fun holds below => ?_
  have words : s.buffers.words 0 = s.words := rfl
  obtain ⟨m', flipped, became⟩ := ref_flip_overwritten s.buffers (s.first + index) holds
  rw [bitsAt_index held below] at became
  exact change_ends flipped (altered_overwritten words held became below)
    ⟨rfl, toList_set words held below became⟩

theorem replace_does (held : s.Held) (index : Nat) (value : Bool) :
    s.Does (replace index value) (OnList.atBit index (fun bit => (bit, value)) s.toList) := by
  refine through_ref_does held index _ fun holds below => ?_
  have words : s.buffers.words 0 = s.words := rfl
  obtain ⟨m', set, became⟩ := ref_set_overwritten s.buffers (s.first + index) value holds
  have replaced : ((s.first + index).ref.replace value s.buffers).map
      (fun after => (after.2, after.1)) = some (m', s.bit index) := by
    rw [BitRef.replace, ref_get s.buffers (s.first + index) holds, set, bitsAt_index held below]
    rfl
  exact write_ends replaced (altered_overwritten words held became below)
    ⟨rfl, toList_set words held below became⟩

theorem call_does (held : s.Held) (index : Nat) (call : BitRef.Call) :
    s.Does (do
        let r ← Attempt.ask (·.bitRef index)
        useRef fun m : Buffers w => r.call m call)
      (OnList.atBit index call.onBit s.toList) := by
  refine through_ref_does held index _ fun holds below => ?_
  have words : s.buffers.words 0 = s.words := rfl
  obtain ⟨m', called, became⟩ := ref_call_overwritten s.buffers (s.first + index) call holds
  rw [bitsAt_index held below] at called became
  have ran : ((s.first + index).ref.call s.buffers call).map (fun after => (after.2, after.1)) =
      some (m', (call.onBit (s.bit index)).1) := by rw [called]; rfl
  exact write_ends ran (altered_overwritten words held became below)
    ⟨rfl, toList_set words held below became⟩

section
variable {m m' : Buffers w} {buffer : Nat} {new : Nat → Bool}

theorem toList_rewritten (words : m.words buffer = s.words) (held : s.Held)
    (written : Overwritten m m' (s.firstIn buffer) s.len new) :
    toList { s with words := m'.words buffer } = (List.range s.len).map new := by
  rw [← Cursor.forward_zero (s.firstIn buffer)] at written
  rw [toList_overwritten words held written (Nat.le_of_eq (Nat.zero_add _)), splice, List.take_zero,
    List.nil_append, List.drop_of_length_le (by simp), List.append_nil]

theorem rewrite_does {action : Buffers w → Option (Buffers w × α)} {value : α} {bits : List Bool}
    (held : s.Held) (ran : action s.buffers = some (m', value))
    (written : Overwritten s.buffers m' s.first s.len new)
    (list : (List.range s.len).map new = bits) :
    s.Does (write action) (.ok (value, bits)) := by
  have words : s.buffers.words 0 = s.words := rfl
  have reached := (toList_rewritten words held written).trans list
  exact .of_value (write_ends ran (written.altered (holds_first held)) ⟨rfl, reached⟩)

theorem rewrite_beside_does {other : Span w}
    {action : Buffers w → Cursor w → Cursor w → Option (Buffers w × α)} {value : α}
    {bits : List Bool}
    (ran : action (s.beside other) (s.firstIn 0) (other.firstIn 1) = some (m', value))
    (altered : Altered (s.beside other) m' ((s.firstIn 0).Covers s.len))
    (list : toList { s with words := m'.words 0 } = bits) :
    s.Does (writeBeside other action) (.ok (value, bits)) :=
  .of_value (write_beside_ends ran altered ⟨rfl, list⟩)

theorem rewrite_change_does {action : Buffers w → Option (Buffers w)} {bits : List Bool}
    (held : s.Held) (ran : action s.buffers = some m')
    (written : Overwritten s.buffers m' s.first s.len new)
    (list : (List.range s.len).map new = bits) : s.Does (change action) (.ok ((), bits)) :=
  rewrite_does held (by rw [ran, Option.map_some]) written list

end

theorem map_bitsAt_first (held : s.Held) : (List.range s.len).map (bitsAt s.buffers s.first) =
    s.toList :=
  List.map_congr_left fun _ member => bitsAt_first held (List.mem_range.mp member)

theorem swap_does (held : s.Held) (a b : Nat) : s.Does (swap a b) (OnList.swap a b s.toList) := by
  rcases bitRef_cases s a with ⟨belowA, answerA⟩ | ⟨aboveA, refusedA⟩
  · refine .ask_answered answerA ?_
    rcases bitRef_cases s b with ⟨belowB, answerB⟩ | ⟨aboveB, refusedB⟩
    · obtain ⟨m', swapped, became⟩ :=
        ref_swap_overwritten (holds_first held) belowA belowB
      refine .ask_answered answerB ?_
      rw [OnList.swap, getElem?_toList_of_lt belowA, getElem?_toList_of_lt belowB]
      have written : Overwritten s.buffers m' s.first s.len fun i =>
          if i = b then s.bit a else if i = a then s.bit b else s.bit i := by
        refine became.congr fun i below => ?_
        show (if i = b then bitsAt _ s.first a else if i = a then bitsAt _ s.first b else _) = _
        rw [bitsAt_first held belowA, bitsAt_first held belowB]
        exact ite_congr rfl (fun _ => rfl) fun _ =>
          ite_congr rfl (fun _ => rfl) fun _ => bitsAt_first held below
      refine rewrite_change_does held swapped written (map_range_eq (by simp) fun i below => ?_)
      rw [List.getElem?_set, List.getElem?_set, List.length_set, length_toList,
        getElem?_toList_of_lt below]
      simp only [belowA, belowB, if_true, eq_comm (a := b), eq_comm (a := a)]
      split
      · rfl
      · split <;> rfl
    · refine .ask_refused refusedB ⟨rfl, ⟨_, rfl⟩, ?_⟩
      rw [OnList.swap, getElem?_toList_of_lt belowA, getElem?_toList_of_le aboveB, length_toList]
      rfl
  · refine .ask_refused refusedA ⟨rfl, ⟨_, rfl⟩, ?_⟩
    rw [OnList.swap, getElem?_toList_of_le aboveA, length_toList]
    rfl

theorem fillRange_does (held : s.Held) (bounds : Bounds) (value : Bool) :
    s.Does (fillRange bounds value) (OnList.onRange bounds (fun _ => value) s.toList) := by
  refine (fillRange_ends held bounds value).imp ?_ ?_
  · rintro ⟨⟩ s' ⟨within, extent, resolved, list⟩
    obtain ⟨order, inside⟩ := Bounds.resolve_within resolved
    have size := Extent.start_add_size order
    have filled : ((s.toList.drop extent.start).take extent.size).map (fun _ => value) =
        List.replicate extent.size value := by
      rw [List.map_const', List.length_take, List.length_drop, length_toList,
        Nat.min_eq_left (by omega)]
    rw [← length_toList s] at resolved
    exact ⟨within, by rw [OnList.onRange_ok resolved, filled, list]⟩
  · rintro failure s' ⟨rfl, stopped⟩
    rw [← length_toList s'] at stopped
    exact ⟨rfl, Bounds.resolve_panics stopped, OnList.onRange_error stopped⟩

theorem flipRange_does (held : s.Held) (bounds : Bounds) :
    s.Does (flipRange bounds) (OnList.onRange bounds not s.toList) := by
  refine (flipRange_ends held bounds).imp ?_ ?_
  · rintro ⟨⟩ s' ⟨within, extent, resolved, list⟩
    rw [← length_toList s] at resolved
    exact ⟨within, by rw [OnList.onRange_ok resolved, list]⟩
  · rintro failure s' ⟨rfl, stopped⟩
    rw [← length_toList s'] at stopped
    exact ⟨rfl, Bounds.resolve_panics stopped, OnList.onRange_error stopped⟩

theorem combine_overwritten {other : Span w} (held : s.Held) (heldOther : other.Held) (op : BitOp) :
    ∃ m', transform (s.beside other) op (s.firstIn 0) (min s.len other.len) (other.firstIn 1)
        (s.firstIn 0) = some (m', s.firstIn 0 + min s.len other.len) ∧
      Overwritten (s.beside other) m' (s.firstIn 0) (min s.len other.len)
        fun i => op.onBits (s.bit i) (other.bit i) := by
  have words : (s.beside other).words 0 = s.words := rfl
  have wordsOther : (s.beside other).words 1 = other.words := rfl
  have holds : Holds (s.beside other) (s.firstIn 0) (min s.len other.len) :=
    (holds_words words held).lower (Nat.min_le_left ..)
  have holdsOther : Holds (s.beside other) (other.firstIn 1) (min s.len other.len) :=
    (holds_words wordsOther heldOther).lower (Nat.min_le_right ..)
  obtain ⟨m', combined, written⟩ := transform_overwritten (s.beside other) op (s.firstIn 0)
    (min s.len other.len) (other.firstIn 1) (s.firstIn 0) holds holdsOther holds
    -- The span is its own target, which is in order; the other one is in another buffer.
    (.inr (.inl (Int.le_refl _))) (.inl (by simp [firstIn, Cursor.ofPosition]))
  refine ⟨m', combined, written.congr fun i below => ?_⟩
  rw [bitsAt_words words held (by omega), bitsAt_words wordsOther heldOther (by omega)]

omit [HasBits w] in
theorem zipWith_bits (s other : Span w) (op : BitOp) :
    (List.range (min s.len other.len)).map (fun i => op.onBits (s.bit i) (other.bit i)) =
      List.zipWith op.onBits s.toList other.toList := by
  refine List.ext_getElem (by simp) fun i _ _ => ?_
  simp [toList]

theorem combine_does {other : Span w} (held : s.Held) (heldOther : other.Held) (op : BitOp) :
    s.Does (combine other op)
      (.ok (min s.len other.len, OnList.combine op other.toList s.toList)) := by
  have words : (s.beside other).words 0 = s.words := rfl
  have inside : 0 + min s.len other.len ≤ s.len := by omega
  obtain ⟨m', combined, written⟩ := combine_overwritten held heldOther op
  rw [← Cursor.forward_zero (s.firstIn 0)] at written
  have list := toList_overwritten words held written inside
  -- Either every bit has a partner or the partners end first.
  have unpaired : s.toList.drop (min s.len other.len) = s.toList.drop other.toList.length := by
    rw [length_toList]
    rcases Nat.le_total s.len other.len with all | some
    · rw [Nat.min_eq_left all, List.drop_of_length_le (by simp),
        List.drop_of_length_le (by simpa using all)]
    · rw [Nat.min_eq_right some]
  rw [splice, zipWith_bits, List.take_zero, List.nil_append, Nat.zero_add, unpaired] at list
  exact .get_bind (rewrite_beside_does (by rw [combined]; rfl)
    (altered_overwritten words held written inside) list)

theorem andWith_does {other : Span w} (held : s.Held) (heldOther : other.Held) :
    s.Does (andWith other) (.ok ((), OnList.andWith other.toList s.toList)) := by
  have within : min s.len other.len ≤ (OnList.combine .and other.toList s.toList).length := by
    simp only [OnList.combine, List.length_append, List.length_zipWith, length_toList]
    omega
  refine (combine_does held heldOther .and).andThen fun s' around list => ?_
  have filled := fillRange_does (around.held held) (Bounds.startingAt (min s.len other.len)) false
  rw [list, OnList.onRange_startingAt within] at filled
  have split : (List.zipWith BitOp.and.onBits s.toList other.toList).length =
      min s.len other.len := by simp
  have front : (OnList.combine .and other.toList s.toList).take (min s.len other.len) =
      List.zipWith BitOp.and.onBits s.toList other.toList := by
    rw [OnList.combine, ← split, List.take_left]
  have rest : (OnList.combine .and other.toList s.toList).drop (min s.len other.len) =
      s.toList.drop other.toList.length := by
    rw [OnList.combine, ← split, List.drop_left]
  rwa [front, rest] at filled

theorem orWith_does {other : Span w} (held : s.Held) (heldOther : other.Held) :
    s.Does (orWith other) (.ok ((), OnList.combine .or other.toList s.toList)) :=
  (combine_does held heldOther .or).discard

theorem xorWith_does {other : Span w} (held : s.Held) (heldOther : other.Held) :
    s.Does (xorWith other) (.ok ((), OnList.combine .xor other.toList s.toList)) :=
  (combine_does held heldOther .xor).discard

theorem andNotWith_does {other : Span w} (held : s.Held) (heldOther : other.Held) :
    s.Does (andNotWith other) (.ok ((), OnList.combine .andNot other.toList s.toList)) :=
  (combine_does held heldOther .andNot).discard

end Span

end PackedBits
