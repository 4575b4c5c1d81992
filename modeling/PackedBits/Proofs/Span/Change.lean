import PackedBits.Proofs.Bounds
import PackedBits.Proofs.Range.Fill
import PackedBits.Proofs.Span.Bits

/-! What changes in place do to the list of bits of a span. Overwriting a part of a span splices new
bits into its list; setting, filling and inverting are such splices, and so are the moves by which
a vector makes and closes gaps. -/
namespace PackedBits

/-- A list with the entries from `start` up to `stop` replaced. -/
def splice (bits : List Bool) (start stop : Nat) (new : List Bool) : List Bool :=
  bits.take start ++ new ++ bits.drop stop

theorem getElem?_splice {bits new : List Bool} {start stop : Nat} (inside : start ≤ bits.length)
    (i : Nat) : (splice bits start stop new)[i]? =
      if i < start then bits[i]?
      else if i < start + new.length then new[i - start]?
      else bits[stop + (i - (start + new.length))]? := by
  have front : (bits.take start).length = start := by simp [inside]
  rw [splice, List.append_assoc, List.getElem?_append, front, List.getElem?_append,
    List.getElem?_take, List.getElem?_drop]
  by_cases first : i < start
  · rw [if_pos first, if_pos first, if_pos first]
  · rw [if_neg first, if_neg first]
    by_cases second : i < start + new.length
    · rw [if_pos (by omega), if_pos second]
    · rw [if_neg (by omega), if_neg second, Nat.sub_sub]

theorem take_splice {bits new : List Bool} {start stop : Nat} (inside : start ≤ bits.length) :
    (splice bits start stop new).take start = bits.take start := by
  rw [splice, List.append_assoc, List.take_append_of_le_length (by simp [inside]), List.take_take,
    Nat.min_self]

theorem splice_append (bits old new : List Bool) :
    splice (bits ++ old) bits.length (bits.length + old.length) new = bits ++ new := by
  rw [splice, List.take_left, List.drop_of_length_le (by simp), List.append_nil]

variable {w : Nat} [HasBits w]

namespace Span

omit [HasBits w] in
theorem map_bit_range (s : Span w) (offset n : Nat) (within : offset + n ≤ s.len) :
    (List.range n).map (fun i => s.bit (offset + i)) = (s.toList.drop offset).take n := by
  refine List.ext_getElem? fun i => ?_
  rw [List.getElem?_take, List.getElem?_drop, getElem?_toList, List.getElem?_map]
  by_cases below : i < n
  · simp [below, show offset + i < s.len by omega]
  · simp [below]

section
variable {m m' : Buffers w} {s : Span w} {buffer offset n : Nat} {new : Nat → Bool}

theorem toList_overwritten (words : m.words buffer = s.words) (held : s.Held)
    (written : Overwritten m m' (s.firstIn buffer + offset) n new) (within : offset + n ≤ s.len) :
    toList { s with words := m'.words buffer } =
      splice s.toList offset (offset + n) ((List.range n).map new) := by
  refine List.ext_getElem? fun i => ?_
  rw [getElem?_toList, getElem?_splice (by rw [length_toList]; omega), getElem?_toList,
    List.length_map, List.length_range, List.getElem?_map, getElem?_toList]
  by_cases below : i < s.len
  · rw [if_pos below, bit_overwritten words held written within below]
    by_cases before : i < offset
    · rw [if_neg (by omega), if_pos before, if_pos below]
    · by_cases covered : i < offset + n
      · rw [if_pos ⟨by omega, covered⟩, if_neg before, if_pos covered,
          List.getElem?_range (by omega)]
        rfl
      · rw [if_neg (by omega), if_neg before, if_neg covered, if_pos (by omega),
          show offset + n + (i - (offset + n)) = i by omega]
  · rw [if_neg below, if_neg (by omega), if_neg (by omega), if_neg (by omega)]

theorem toList_set {index : Nat} {value : Bool} (words : m.words buffer = s.words) (held : s.Held)
    (below : index < s.len)
    (written : Overwritten m m' (s.firstIn buffer + index) 1 fun _ => value) :
    toList { s with words := m'.words buffer } = s.toList.set index value := by
  rw [toList_overwritten words held written below, List.set_eq_take_append_cons_drop,
    if_pos (by simpa using below)]
  simp [splice]

theorem toList_moved {other : Span w} {source target origin : Nat}
    (words : m.words buffer = s.words) (wordsOther : m.words origin = other.words) (held : s.Held)
    (heldOther : other.Held) (available : source + n ≤ other.len) (room : target + n ≤ s.len)
    (written : Overwritten m m' (s.firstIn buffer + target) n
      (bitsAt m (other.firstIn origin + source))) :
    toList { s with words := m'.words buffer } =
      splice s.toList target (target + n) ((other.toList.drop source).take n) := by
  rw [toList_overwritten words held written room, ← map_bit_range other source n available]
  congr 1
  refine List.map_congr_left fun i member => ?_
  have below := List.mem_range.mp member
  rw [bitsAt_forward]
  exact bitsAt_words wordsOther heldOther (by omega)

theorem altered_overwritten (words : m.words buffer = s.words) (held : s.Held)
    (written : Overwritten m m' (s.firstIn buffer + offset) n new) (within : offset + n ≤ s.len) :
    Altered m m' ((s.firstIn buffer).Covers s.len) :=
  (written.altered ((holds_words words held).part within)).mono
    fun _ _ => Cursor.covers_part within

end

section
variable {s : Span w} {α : Type}

theorem write_ends {action : Buffers w → Option (Buffers w × α)} {m' : Buffers w} {value : α}
    (ran : action s.buffers = some (m', value))
    (altered : Altered s.buffers m' (s.first.Covers s.len)) {done : α → Span w → Prop}
    (reached : done value { s with words := m'.words 0 }) :
    (write action).Ends s (fun value s' => Within s s' ∧ done value s') fun _ _ => False := by
  have words : s.buffers.words 0 = s.words := rfl
  unfold Attempt.Ends write
  rw [ran]
  exact ⟨Within.of_altered words altered fun _ => id, reached⟩

theorem change_ends {action : Buffers w → Option (Buffers w)} {m' : Buffers w}
    (ran : action s.buffers = some m') (altered : Altered s.buffers m' (s.first.Covers s.len))
    {done : Unit → Span w → Prop} (reached : done () { s with words := m'.words 0 }) :
    (change action).Ends s (fun value s' => Within s s' ∧ done value s') fun _ _ => False := by
  have ran' : (action s.buffers).map (·, ()) = some (m', ()) := by rw [ran, Option.map_some]
  exact write_ends ran' altered reached

def beside (s other : Span w) : Buffers w := ⟨#[s.words, other.words]⟩

theorem write_beside_ends {other : Span w}
    {action : Buffers w → Cursor w → Cursor w → Option (Buffers w × α)} {m' : Buffers w} {value : α}
    (ran : action (s.beside other) (s.firstIn 0) (other.firstIn 1) = some (m', value))
    (altered : Altered (s.beside other) m' ((s.firstIn 0).Covers s.len)) {done : α → Span w → Prop}
    (reached : done value { s with words := m'.words 0 }) :
    (writeBeside other action).Ends s (fun value s' => Within s s' ∧ done value s')
      fun _ _ => False := by
  unfold Attempt.Ends writeBeside
  rw [show action ⟨#[s.words, other.words]⟩ (s.firstIn 0) (other.firstIn 1) = some (m', value)
    from ran]
  have words : (s.beside other).words 0 = s.words := rfl
  exact ⟨Within.of_altered words altered fun _ => id, reached⟩

theorem fill_ends (held : s.Held) {offset n : Nat} (value : Bool) (within : offset + n ≤ s.len) :
    (change fun m => fill m (s.first + offset) n value).Ends s
      (fun _ s' => Within s s' ∧
        s'.toList = splice s.toList offset (offset + n) (List.replicate n value))
      fun _ _ => False := by
  have words : s.buffers.words 0 = s.words := rfl
  obtain ⟨m', filled, written⟩ := fill_overwritten s.buffers (s.first + offset) n value
    ((holds_words words held).part within)
  refine change_ends filled (altered_overwritten words held written within) ?_
  rw [toList_overwritten words held written within, List.map_const', List.length_range]

theorem flip_ends (held : s.Held) {offset n : Nat} (within : offset + n ≤ s.len) :
    (change fun m => PackedBits.flip m (s.first + offset) n).Ends s
      (fun _ s' => Within s s' ∧
        s'.toList = splice s.toList offset (offset + n) (((s.toList.drop offset).take n).map not))
      fun _ _ => False := by
  have words : s.buffers.words 0 = s.words := rfl
  obtain ⟨m', flipped, written⟩ := flip_overwritten s.buffers (s.first + offset) n
    ((holds_words words held).part within)
  refine change_ends flipped (altered_overwritten words held written within) ?_
  rw [toList_overwritten words held written within, ← map_bit_range s offset n within,
    List.map_map]
  congr 1
  refine List.map_congr_left fun i member => ?_
  have below := List.mem_range.mp member
  rw [bitsAt_forward]
  show (!bitsAt _ (s.firstIn 0) _) = _
  rw [bitsAt_words words held (by omega)]
  rfl

theorem set_bit_ends (held : s.Held) {index : Nat} (value : Bool) (below : index < s.len) :
    (change fun m => writeBit m (s.first + index) value).Ends s
      (fun _ s' => Within s s' ∧ s'.toList = s.toList.set index value) fun _ _ => False := by
  have words : s.buffers.words 0 = s.words := rfl
  have within : index + 1 ≤ s.len := below
  obtain ⟨m', set, written⟩ := writeBit_overwritten s.buffers (s.first + index) value
    ((holds_words words held).part within)
  exact change_ends set (altered_overwritten words held written within)
    (toList_set words held below written)

theorem copy_ends (held : s.Held) {source target n : Nat} (order : target ≤ source)
    (within : source + n ≤ s.len) :
    (change fun m => do
        return (← copy m (s.first + source) n (s.first + target)).1).Ends s
      (fun _ s' => Within s s' ∧
        s'.toList = splice s.toList target (target + n) ((s.toList.drop source).take n))
      fun _ _ => False := by
  have words : s.buffers.words 0 = s.words := rfl
  have holds := holds_words words held
  obtain ⟨m', copied, written⟩ := copy_overwritten s.buffers (s.first + source) n
    (s.first + target) (holds.part within) (holds.part (by omega))
    (.inr (.inl (by simp only [Cursor.position_forward]; omega)))
  have room : target + n ≤ s.len := by omega
  exact change_ends (by simp only [copied]; rfl) (altered_overwritten words held written room)
    (toList_moved words words held held within room written)

/-- The bits from `index` up to `length`, moved up by `n`, and the gap filled. -/
theorem insert_ends (held : s.Held) {index n length : Nat} (value : Bool) (order : index ≤ length)
    (room : length + n = s.len) :
    (change fun m => do
        let (m, _) ← copyBackward m (s.first + index) (length - index) (s.first + (length + n))
        fill m (s.first + index) n value).Ends s
      (fun _ s' => Within s s' ∧ s'.toList = s.toList.take index ++ List.replicate n value ++
        (s.toList.take length).drop index)
      fun _ _ => False := by
  have words : s.buffers.words 0 = s.words := rfl
  have holds := holds_words words held
  -- The upper part leaves first: filling the gap would overwrite it.
  obtain ⟨m₁, moved, upper⟩ := copy_backward_overwritten s.buffers (s.first + index)
    (length - index) (s.first + (index + n)) (holds.part (by omega)) (holds.part (by omega))
    (.inr (.inl (by simp only [Cursor.position_forward]; omega)))
  rw [Cursor.forward_forward, show index + n + (length - index) = length + n by omega] at moved
  have changed := altered_overwritten words held upper (by omega)
  obtain ⟨m₂, filled, lower⟩ := fill_overwritten m₁ (s.first + index) n value
    ((changed.holds holds).part (by omega))
  -- Together the two writes are one of everything from `index` on.
  have written : Overwritten s.buffers m₂ (s.first + index) (n + (length - index)) fun i =>
      if i < n then value else s.bit (index + (i - n)) := by
    rw [← Cursor.forward_forward] at upper
    refine (upper.congr ?_).prepend (lower.congr fun i below => (if_pos below).symm)
    intro i below
    rw [if_neg (by omega), bitsAt_forward, Nat.add_sub_cancel_left]
    exact bitsAt_words words held (by omega)
  refine change_ends (by simp only [moved]; exact filled)
    (altered_overwritten words held written (by omega)) ?_
  rw [toList_overwritten words held written (by omega), splice, List.range_add, List.map_append,
    List.map_map, List.drop_eq_nil_of_le (by rw [length_toList]; omega), List.append_nil,
    List.append_assoc]
  congr 2
  · have constant (i : Nat) (member : i ∈ List.range n) :
        (if i < n then value else s.bit (index + (i - n))) = value :=
      if_pos (List.mem_range.mp member)
    rw [List.map_congr_left constant, List.map_const', List.length_range]
  · rw [List.drop_take, ← map_bit_range s index (length - index) (by omega)]
    refine List.map_congr_left fun i member => ?_
    rw [Function.comp, if_neg (by omega), Nat.add_sub_cancel_left]

theorem copy_beside_ends {other : Span w} (held : s.Held) (heldOther : other.Held)
    {source target n : Nat} (available : source + n ≤ other.len) (room : target + n ≤ s.len) :
    (writeBeside other fun m p q =>
        (copy m (q + source) n (p + target)).map fun (m, _) => (m, ())).Ends s
      (fun _ s' => Within s s' ∧
        s'.toList = splice s.toList target (target + n) ((other.toList.drop source).take n))
      fun _ _ => False := by
  have words : (s.beside other).words 0 = s.words := rfl
  have wordsOther : (s.beside other).words 1 = other.words := rfl
  obtain ⟨m', copied, written⟩ := copy_overwritten (s.beside other) (other.firstIn 1 + source) n
    (s.firstIn 0 + target) ((holds_words wordsOther heldOther).part available)
    ((holds_words words held).part room) (.inl (by simp [firstIn, Cursor.ofPosition]))
  exact write_beside_ends (by rw [copied]; rfl) (altered_overwritten words held written room)
    (toList_moved words wordsOther held heldOther available room written)

theorem copy_over_ends {other : Span w} (held : s.Held) (heldOther : other.Held) {source n : Nat}
    (available : source + n ≤ other.len) (len : s.len = n) :
    (writeBeside other fun m p q => (copy m (q + source) n p).map fun (m, _) => (m, ())).Ends s
      (fun _ s' => Within s s' ∧ s'.toList = (other.toList.drop source).take n)
      fun _ _ => False := by
  have copied := copy_beside_ends held heldOther available (show 0 + n ≤ s.len by omega)
  simp only [Cursor.forward_zero] at copied
  refine copied.imp (fun _ s' ⟨within, list⟩ => ⟨within, list.trans ?_⟩) fun _ _ => id
  have rest : s.toList.drop (0 + n) = [] :=
    List.drop_of_length_le (by rw [length_toList, Nat.zero_add]; exact Nat.le_of_eq len)
  rw [splice, List.take_zero, List.nil_append, rest, List.append_nil]

end

section
variable {s : Span w}

omit [HasBits w] in
theorem checkIndex_cases (s : Span w) (index : Nat) :
    (index < s.len ∧ s.checkIndex index = .ok ()) ∨
      (s.len ≤ index ∧ s.checkIndex index = .error (.panic (.position index s.len))) := by
  rw [checkIndex]
  rcases Nat.lt_or_ge index s.len with below | above
  · exact .inl ⟨below, if_pos below⟩
  · exact .inr ⟨above, if_neg (Nat.not_lt.mpr above)⟩

theorem set_ends (held : s.Held) (index : Nat) (value : Bool) :
    (set index value).Ends s
      (fun _ s' => Within s s' ∧ index < s.len ∧ s'.toList = s.toList.set index value)
      fun failure s' => s' = s ∧ s.len ≤ index ∧ failure = .panic (.position index s.len) := by
  rcases checkIndex_cases s index with ⟨below, answer⟩ | ⟨above, answer⟩
  · refine .ask_answered answer (.get_bind ?_)
    refine (set_bit_ends held value below).imp ?_ (fun _ _ => False.elim)
    rintro ⟨⟩ s' ⟨within, list⟩
    exact ⟨within, below, list⟩
  · exact .ask_refused answer ⟨rfl, above, rfl⟩

theorem fillRange_ends (held : s.Held) (bounds : Bounds) (value : Bool) :
    (fillRange bounds value).Ends s
      (fun _ s' => Within s s' ∧ ∃ extent, bounds.resolve s.len = .ok extent ∧
        s'.toList = splice s.toList extent.start extent.stop (List.replicate extent.size value))
      fun failure s' => s' = s ∧ bounds.resolve s.len = .error failure := by
  refine .get_bind (.ask_bind ?_ fun failure refused => ⟨rfl, refused⟩)
  intro extent resolved
  obtain ⟨order, inside⟩ := Bounds.resolve_within resolved
  have size := Extent.start_add_size order
  refine (fill_ends held value (by omega)).imp ?_ (fun _ _ => False.elim)
  rintro ⟨⟩ s₁ ⟨within, list⟩
  rw [size] at list
  exact ⟨within, extent, resolved, list⟩

theorem flipRange_ends (held : s.Held) (bounds : Bounds) :
    (flipRange bounds).Ends s
      (fun _ s' => Within s s' ∧ ∃ extent, bounds.resolve s.len = .ok extent ∧
        s'.toList = splice s.toList extent.start extent.stop
          (((s.toList.drop extent.start).take extent.size).map not))
      fun failure s' => s' = s ∧ bounds.resolve s.len = .error failure := by
  refine .get_bind (.ask_bind ?_ fun failure refused => ⟨rfl, refused⟩)
  intro extent resolved
  obtain ⟨order, inside⟩ := Bounds.resolve_within resolved
  have size := Extent.start_add_size order
  refine (flip_ends held (by omega)).imp ?_ (fun _ _ => False.elim)
  rintro ⟨⟩ s₁ ⟨within, list⟩
  rw [size] at list
  exact ⟨within, extent, resolved, list⟩

end

section
variable {s : Span w}

theorem bitAt_eq (held : s.Held) {index : Nat} (below : index < s.len) :
    s.bitAt index = .ok (s.bit index) := by
  have words : s.buffers.words 0 = s.words := rfl
  have holds := (holds_words words held).part (show index + 1 ≤ s.len from below)
  have read : readBit s.buffers (s.first + index) = some (s.bit index) := by
    have got := ref_get s.buffers (s.first + index) holds
    rw [bitsAt_forward] at got
    exact got.trans (congrArg some (bitsAt_words words held below))
  rw [bitAt, Span.read, read]
  rfl

theorem bits_eq (held : s.Held) : s.bits = .ok s.toList := by
  -- The places are any, since the tail of a range is not a range from zero.
  have each : ∀ places : List Nat, (∀ i ∈ places, i < s.len) →
      places.mapM s.bitAt = .ok (places.map s.bit) := by
    intro places inside
    induction places with
    | nil => rfl
    | cons i rest ih =>
        have here := bitAt_eq held (inside i List.mem_cons_self)
        have later := ih fun j member => inside j (List.mem_cons_of_mem i member)
        rw [List.mapM_cons, here, later]
        rfl
  exact each (List.range s.len) fun i member => List.mem_range.mp member

theorem toWords_eq (held : s.Held) : ∃ words, s.toWords = .ok words ∧
    words.size = wordsFor w s.len ∧ ∀ k, bitIn words k = (decide (k < s.len) && s.bit k) := by
  let m : Buffers w := ⟨#[s.words, (zeroed s.len : Span w).words]⟩
  have source : m.words 0 = s.words := rfl
  have target : m.words 1 = (zeroed s.len : Span w).words := rfl
  have room := held_zeroed (w := w) s.len
  have writable : Holds m ((zeroed s.len : Span w).firstIn 1) s.len := holds_words target room
  obtain ⟨m', copied, written⟩ := copy_overwritten m (s.firstIn 0) s.len
    ((zeroed s.len : Span w).firstIn 1) (holds_words source held) writable (.inl Nat.zero_ne_one)
  have within := Within.of_altered target (written.altered writable) fun _ => id
  refine ⟨m'.words 1, ?_, within.size.trans Array.size_replicate, fun k => ?_⟩
  · rw [toWords, readBoth, copied]
    rfl
  by_cases below : k < s.len
  · rw [← Cursor.forward_zero ((zeroed s.len : Span w).firstIn 1)] at written
    have bit := bit_overwritten target room written (Nat.le_of_eq (Nat.zero_add _)) below
    rw [if_pos ⟨Nat.zero_le k, by omega⟩, Nat.sub_zero, bitsAt_words source held below] at bit
    rw [decide_eq_true below, Bool.true_and, ← bit, Span.bit, zeroed, Nat.zero_add]
  -- Past the bits the fresh words stay clear.
  · have clear : bitIn (m'.words 1) k = _ := within.kept k fun inside => below (by
      simpa [zeroed] using inside.2)
    rw [clear, zeroed, bitIn_replicate, decide_eq_false below, Bool.false_and]

end

end Span

end PackedBits
