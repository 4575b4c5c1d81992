import PackedBits.Proofs.Run.Locality

/-! Bits that go to other places. After a shift, or a copy inside a container, every place has the
bit of another place or is clear, and which one depends on the place alone: a change is told by the
origin of each place. Two changes after one another draw from the origins of the origins, so shifts
add up. A reversal mirrors a run, and two of them restore all there is. -/
namespace PackedBits

namespace OnList
variable {bits : List Bool} {origin later : Nat → Option Nat} {length n i : Nat}

/-- Every place has the bit of its origin, and one without an origin is clear. -/
def drawn (origin : Nat → Option Nat) (bits : List Bool) : List Bool :=
  (List.range bits.length).map fun i => (origin i).elim false fun j => bits.getD j false

def lowered (n i : Nat) : Option Nat := if n ≤ i then some (i - n) else none

def raised (length n i : Nat) : Option Nat := if i + n < length then some (i + n) else none

/-- For the `n` places from `target` on those from `source` on, all others being their own. -/
def relocated (source target n i : Nat) : Option Nat :=
  some (if target ≤ i ∧ i < target + n then source + (i - target) else i)

@[simp] theorem length_drawn (origin : Nat → Option Nat) (bits : List Bool) :
    (drawn origin bits).length = bits.length := by simp [drawn]

theorem getElem?_eq_some_getD (below : i < bits.length) : bits[i]? = some (bits.getD i false) := by
  simp [below]

theorem eq_drawn {new : List Bool} (size : new.length = bits.length)
    (each : ∀ i < bits.length, new[i]? = some ((origin i).elim false fun j => bits.getD j false)) :
    new = drawn origin bits :=
  (map_range_eq size each).symm

theorem drawn_own (own : ∀ i < bits.length, origin i = some i) : drawn origin bits = bits := by
  refine (eq_drawn rfl fun i below => ?_).symm
  rw [own i below]
  exact getElem?_eq_some_getD below

theorem drawn_clear (clear : ∀ i < bits.length, origin i = none) :
    drawn origin bits = List.replicate bits.length false := by
  refine (eq_drawn List.length_replicate fun i below => ?_).symm
  rw [clear i below, List.getElem?_replicate, if_pos below]
  rfl

theorem drawn_drawn (inside : ∀ i < bits.length, ∀ j ∈ later i, j < bits.length) :
    drawn later (drawn origin bits) = drawn (fun i => (later i).bind origin) bits := by
  refine eq_drawn (by simp) fun i below => ?_
  rw [getElem?_eq_some_getD (by simpa using below), drawn, length_drawn]
  cases place : later i with
  | none => simp [place, below]
  | some j =>
      have there := inside i below j place
      simp [place, below, drawn, there]

theorem shiftLeft_eq_drawn (n : Nat) (bits : List Bool) :
    shiftLeft n bits = drawn (lowered n) bits := by
  refine eq_drawn (by simp [shiftLeft]; omega) fun i below => ?_
  rw [shiftLeft, List.getElem?_append, List.length_replicate]
  by_cases fresh : i < n
  · rw [if_pos (by omega), List.getElem?_replicate, if_pos (by omega), lowered,
      if_neg (by omega)]
    rfl
  · rw [if_neg (by omega), List.getElem?_take, if_pos (by omega),
      show i - min n bits.length = i - n by omega, lowered, if_pos (by omega)]
    exact getElem?_eq_some_getD (by omega)

theorem shiftRight_eq_drawn (n : Nat) (bits : List Bool) :
    shiftRight n bits = drawn (raised bits.length n) bits := by
  refine eq_drawn (by simp [shiftRight]; omega) fun i below => ?_
  rw [shiftRight, List.getElem?_append, List.length_drop, List.getElem?_drop, Nat.add_comm n i]
  by_cases fresh : bits.length ≤ i + n
  · rw [if_neg (by omega), List.getElem?_replicate, if_pos (by omega), raised, if_neg (by omega)]
    rfl
  · rw [if_pos (by omega), raised, if_pos (by omega)]
    exact getElem?_eq_some_getD (by omega)

theorem splice_eq_drawn {source target n : Nat} (readable : source + n ≤ bits.length)
    (room : target + n ≤ bits.length) :
    splice bits target (target + n) ((bits.drop source).take n) =
      drawn (relocated source target n) bits := by
  have size : ((bits.drop source).take n).length = n := by simp; omega
  refine eq_drawn (by simp [splice]; omega) fun i below => ?_
  rw [getElem?_splice (by omega), size, relocated]
  -- A place is before the target, among the copied ones, or behind them.
  by_cases before : i < target
  · rw [if_pos before, if_neg (by omega)]
    exact getElem?_eq_some_getD below
  · rw [if_neg before]
    by_cases covered : i < target + n
    · rw [if_pos covered, if_pos ⟨by omega, covered⟩, List.getElem?_take, if_pos (by omega),
        List.getElem?_drop]
      exact getElem?_eq_some_getD (by omega)
    · rw [if_neg covered, if_neg (by omega), show target + n + (i - (target + n)) = i by omega]
      exact getElem?_eq_some_getD below

theorem lowered_below (below : i < n) : lowered n i = none := if_neg (Nat.not_le.mpr below)

theorem raised_outside (outside : length ≤ i + n) : raised length n i = none :=
  if_neg (Nat.not_lt.mpr outside)

theorem lowered_zero (i : Nat) : lowered 0 i = some i := if_pos (Nat.zero_le i)

theorem raised_zero (below : i < length) : raised length 0 i = some i := if_pos below

theorem lowered_lowered (n more i : Nat) :
    (lowered more i).bind (lowered n) = lowered (n + more) i := by
  by_cases high : more ≤ i
  · have both : n ≤ i - more ↔ n + more ≤ i := by omega
    simp only [lowered, if_pos high, Option.bind_some, both, Nat.sub_sub, Nat.add_comm more n]
  · have low : ¬ n + more ≤ i := by omega
    simp only [lowered, if_neg high, if_neg low, Option.bind_none]

theorem raised_raised (length n more i : Nat) :
    (raised length more i).bind (raised length n) = raised length (n + more) i := by
  by_cases low : i + more < length
  · simp only [raised, if_pos low, Option.bind_some, Nat.add_assoc, Nat.add_comm more n]
  · have high : ¬ i + (n + more) < length := by omega
    simp only [raised, if_neg low, if_neg high, Option.bind_none]

theorem lowered_inside (n i : Nat) (below : i < length) : ∀ j ∈ lowered n i, j < length := by
  intro j drawn
  rw [Option.mem_def, lowered] at drawn
  split at drawn
  · cases drawn
    omega
  · cases drawn

theorem raised_inside (length n i : Nat) : ∀ j ∈ raised length n i, j < length := by
  intro j drawn
  rw [Option.mem_def, raised] at drawn
  split at drawn
  · cases drawn
    assumption
  · cases drawn

end OnList

namespace Span
variable {w : Nat} [HasBits w] {s : Span w}

theorem shiftLeft_draws (held : s.Held) (n : Nat) :
    s.Does (shiftLeft n) (.ok ((), OnList.drawn (OnList.lowered n) s.toList)) := by
  rw [← OnList.shiftLeft_eq_drawn]
  exact shiftLeft_does held n

theorem shiftRight_draws (held : s.Held) (n : Nat) :
    s.Does (shiftRight n) (.ok ((), OnList.drawn (OnList.raised s.len n) s.toList)) := by
  rw [← length_toList s, ← OnList.shiftRight_eq_drawn]
  exact shiftRight_does held n

end Span

namespace Host
variable {w : Nat} [HasBits w] {host : Host w}

/-- What shifting the bits of a container by `n` places has to do in each direction. -/
structure Shifts (host : Host w) (n : Nat) : Prop where
  left : host.Does (Span.shiftLeft n) (.ok ((), OnList.drawn (OnList.lowered n) host.bits))
  right : host.Does (Span.shiftRight n)
    (.ok ((), OnList.drawn (OnList.raised host.bits.length n) host.bits))
  cleared : host.bits.length ≤ n →
    host.Does (Span.shiftLeft n) (.ok ((), List.replicate host.bits.length false)) ∧
    host.Does (Span.shiftRight n) (.ok ((), List.replicate host.bits.length false))
  kept : n = 0 → inPlace (Span.shiftLeft n) host.value = .ok () host.value ∧
    inPlace (Span.shiftRight n) host.value = .ok () host.value
  /-- Shifts in one direction add up, the words around the bits included. -/
  leftAgain (more : Nat) :
    (inPlace (Span.shiftLeft n) >>= fun _ => inPlace (Span.shiftLeft more)) host.value =
      inPlace (Span.shiftLeft (n + more)) host.value
  rightAgain (more : Nat) :
    (inPlace (Span.shiftRight n) >>= fun _ => inPlace (Span.shiftRight more)) host.value =
      inPlace (Span.shiftRight (n + more)) host.value

theorem drawn_again {first second both : Attempt (Span w) Unit}
    {origin later whole : Nat → Option Nat}
    (there : host.span.Does first (.ok ((), OnList.drawn origin host.bits)))
    (further : ∀ s : Span w, s.Held → s.len = host.span.len →
      s.Does second (.ok ((), OnList.drawn later s.toList)))
    (together : host.span.Does both (.ok ((), OnList.drawn whole host.bits)))
    (inside : ∀ i < host.bits.length, ∀ j ∈ later i, j < host.bits.length)
    (composed : ∀ i, (later i).bind origin = whole i) :
    (inPlace first >>= fun _ => inPlace second) host.value = inPlace both host.value := by
  have sequence : host.span.Does (first >>= fun _ => second)
      (.ok ((), OnList.drawn whole host.bits)) := by
    refine there.andThen fun s within list => ?_
    -- The second change sees what the first one has drawn.
    have next := further s (within.held host.held) within.len
    rwa [list, OnList.drawn_drawn inside, funext composed] at next
  rw [inPlace_bind there]
  exact inPlace_congr sequence together

end Host

/-- A shift to the left by `n` places gives every place the bit `n` places below it, and a shift to
the right the one `n` places above it; a place without such a bit becomes clear and nothing around
the bits changes. Shifts by more than there are bits are no exception. -/
theorem shifts_move_every_bit {w : Nat} [HasBits w] (host : Host w) (n : Nat) : host.Shifts n := by
  have length : host.bits.length = host.span.len := Span.length_toList host.span
  have left (n : Nat) : host.span.Does (Span.shiftLeft n)
      (.ok ((), OnList.drawn (OnList.lowered n) host.bits)) := Span.shiftLeft_draws host.held n
  have right (n : Nat) : host.span.Does (Span.shiftRight n)
      (.ok ((), OnList.drawn (OnList.raised host.bits.length n) host.bits)) := by
    rw [length]
    exact Span.shiftRight_draws host.held n
  refine ⟨Host.does_of_span (left n), Host.does_of_span (right n), fun all => ?_, ?_, ?_, ?_⟩
  · have left' := left n
    have right' := right n
    rw [OnList.drawn_clear fun i below => OnList.lowered_below (show i < n by omega)] at left'
    rw [OnList.drawn_clear fun i below =>
      OnList.raised_outside (show host.bits.length ≤ i + n by omega)] at right'
    exact ⟨Host.does_of_span left', Host.does_of_span right'⟩
  · rintro rfl
    have left' := left 0
    have right' := right 0
    rw [OnList.drawn_own fun i _ => OnList.lowered_zero i] at left'
    rw [OnList.drawn_own fun i below => OnList.raised_zero below] at right'
    exact ⟨Host.inPlace_unchanged left', Host.inPlace_unchanged right'⟩
  · intro more
    exact Host.drawn_again (left n) (fun s held _ => Span.shiftLeft_draws held more)
      (left (n + more)) (fun i below => OnList.lowered_inside more i below)
      (OnList.lowered_lowered n more)
  · intro more
    refine Host.drawn_again (right n) (fun s held len => ?_) (right (n + more))
      (fun i below => OnList.raised_inside host.bits.length more i)
      (OnList.raised_raised host.bits.length n more)
    rw [length, ← len]
    exact Span.shiftRight_draws held more

/-- Twelve bits from the fourth bit of a byte on, shifted by three places and then by four. -/
theorem shifts_move_every_bit_across_two_words :
    let host : Host 8 := .slice ⟨#[0xA5#8, 0x5A#8], 3, 12⟩ (show 3 + 12 ≤ 2 * 8 by decide)
    (inPlace (Span.shiftLeft 3) >>= fun _ => inPlace (Span.shiftLeft 4)) host.value =
      inPlace (Span.shiftLeft 7) host.value ∧
    host.Does (Span.shiftLeft 7)
      (.ok ((), List.replicate 7 false ++ [false, false, true, false, true])) := by
  intro host
  refine ⟨(shifts_move_every_bit host 3).leftAgain 4, ?_⟩
  have bits : OnList.drawn (OnList.lowered 7) host.bits =
      List.replicate 7 false ++ [false, false, true, false, true] := by decide
  rw [← bits]
  exact (shifts_move_every_bit host 7).left

namespace Bounds

def count (bounds : Bounds) (length : Nat) : Nat := bounds.past length - bounds.first

/-- A range of the bits, and room for as many from `target` on. -/
def Admits (bounds : Bounds) (target length : Nat) : Prop :=
  bounds.Fits length ∧ target ≤ length - bounds.count length

instance (bounds : Bounds) (target length : Nat) : Decidable (bounds.Admits target length) :=
  inferInstanceAs (Decidable (_ ∧ _))

end Bounds

namespace OnList
variable {bounds : Bounds} {target : Nat} {bits : List Bool}

theorem copyWithin_admitted (small : bits.length ≤ maxSize)
    (admitted : bounds.Admits target bits.length) :
    copyWithin bounds target bits =
      .ok ((), drawn (relocated bounds.first target (bounds.count bits.length)) bits) := by
  obtain ⟨fits, room⟩ := admitted
  have resolved := Bounds.resolve_fits small fits
  obtain ⟨order, inside⟩ := fits
  have size : (⟨bounds.first, bounds.past bits.length⟩ : Extent).size =
      bounds.count bits.length := rfl
  have readable : bounds.first + bounds.count bits.length ≤ bits.length := by
    rw [Bounds.count]
    omega
  rw [← splice_eq_drawn readable (by omega), copyWithin_resolved resolved, size,
    if_neg (Nat.not_lt.mpr room)]

theorem copyWithin_refused (refused : ¬ bounds.Admits target bits.length) :
    ∃ panic, copyWithin bounds target bits = .error (.panic panic) := by
  rcases bounds.resolve_cases bits.length with ⟨none, resolved⟩ | ⟨panic, -, stopped⟩
  · have fits := Bounds.fits_of_panic_none none
    have outside : bits.length - bounds.count bits.length < target :=
      Nat.lt_of_not_le fun room => refused ⟨fits, room⟩
    refine ⟨.destination target bits.length, ?_⟩
    rw [copyWithin_resolved resolved]
    exact if_pos outside
  · exact ⟨panic, copyWithin_error stopped⟩

end OnList

/-- In a container whose length is a size, a copy from one place to another panics, having changed
nothing, exactly if the range is not one of the bits or does not fit at the target. Otherwise the
bits from the target on become the old ones of the range, however the two lie to each other, and all
others stay. -/
theorem copies_within_are_exact {w : Nat} [HasBits w] (host : Host w) (bounds : Bounds)
    (target : Nat) (sized : host.bits.length ≤ maxSize) :
    ((∃ panic, inPlace (Span.copyWithin bounds target) host.value =
        .error (.panic panic) host.value) ↔ ¬ bounds.Admits target host.bits.length) ∧
    (bounds.Admits target host.bits.length → host.Does (Span.copyWithin bounds target)
      (.ok ((), OnList.drawn
        (OnList.relocated bounds.first target (bounds.count host.bits.length)) host.bits))) := by
  have does : host.Does (Span.copyWithin bounds target)
      (OnList.copyWithin bounds target host.bits) :=
    Host.does_of_span (Span.copyWithin_does host.held bounds target)
  refine ⟨⟨?_, fun refused => ?_⟩, fun admitted => ?_⟩
  · rintro ⟨panic, stopped⟩ admitted
    rw [OnList.copyWithin_admitted sized admitted, Host.Does, Attempt.Ends, stopped] at does
    cases does.2.2
  · obtain ⟨panic, same⟩ := OnList.copyWithin_refused refused
    rw [same] at does
    obtain ⟨_, _, _, _, wrong⟩ | ⟨failure, after, ran, rfl, -, stopped⟩ := Attempt.Ends.ran does
    · cases wrong
    · cases stopped
      exact ⟨panic, ran⟩
  · rwa [OnList.copyWithin_admitted sized admitted] at does

/-- Seven of thirteen bits, copied three places up onto themselves. -/
theorem copies_within_are_exact_onto_themselves :
    let host : Host 8 := .slice ⟨#[0xA5#8, 0x5A#8], 2, 13⟩ (show 2 + 13 ≤ 2 * 8 by decide)
    let bounds : Bounds := ⟨.included 2, .excluded 9⟩
    host.bits.length ≤ maxSize ∧ bounds.Admits 5 host.bits.length ∧
    host.Does (Span.copyWithin bounds 5) (.ok ((), [true, false, false, true, false,
      false, true, false, true, false, true, false, true])) := by
  intro host bounds
  have sized : host.bits.length ≤ maxSize := by decide
  have admitted : bounds.Admits 5 host.bits.length := by decide
  have bits : OnList.drawn
      (OnList.relocated bounds.first 5 (bounds.count host.bits.length)) host.bits =
        [true, false, false, true, false, false, true, false, true, false, true, false, true] := by
    decide
  refine ⟨sized, admitted, ?_⟩
  rw [← bits]
  exact (copies_within_are_exact host bounds 5 sized).2 admitted

section
variable {μ : Type} {w : Nat} [Memory μ w] [LawfulMemory μ w]

theorem reverse_mirrors (m : μ) (p : Cursor w) {n : Nat} (held : Holds m p n) :
    ∃ m', reverse m p n = some m' ∧ (∀ i < n, bitsAt m' p i = bitsAt m p (n - 1 - i)) ∧
      Altered m m' (p.Covers n) := by
  obtain ⟨m', ran, became⟩ := reverse_overwritten m p n held
  exact ⟨m', ran, fun i below => became.bitsAt below, became.altered held⟩

theorem reverse_back {m m' : μ} {p : Cursor w} {n : Nat} (held : Holds m p n)
    (mirrored : ∀ i < n, bitsAt m' p i = bitsAt m p (n - 1 - i))
    (altered : Altered m m' (p.Covers n)) :
    ∃ m'', reverse m' p n = some m'' ∧ Restored m m'' := by
  obtain ⟨m'', ran, back, altered'⟩ := reverse_mirrors m' p (altered.holds held)
  refine ⟨m'', ran, (altered.trans altered').restored held ?_⟩
  refine List.map_congr_left fun i member => ?_
  have below := List.mem_range.mp member
  rw [back i below, mirrored (n - 1 - i) (by omega), show n - 1 - (n - 1 - i) = i by omega]

end

structure Host.Reverses {w : Nat} [HasBits w] (host : Host w) : Prop where
  once : host.Does Span.reverse (.ok ((), host.bits.reverse))
  twice : (inPlace Span.reverse >>= fun _ => inPlace Span.reverse) host.value = .ok () host.value

theorem Host.reverses {w : Nat} [HasBits w] (host : Host w) : host.Reverses := by
  have once : host.span.Does Span.reverse (.ok ((), host.bits.reverse)) :=
    Span.reverse_does host.held
  refine ⟨does_of_span once, undone once fun s held mirrored => ?_⟩
  have again := Span.reverse_does held
  rwa [mirrored, List.reverse_reverse] at again

/-- A reversal mirrors a run: the bit at each place is the one that was as far from the other end,
and no bit around the run changes. Another one restores every bit there is; in a container too. -/
theorem reversals_mirror_and_restore {w : Nat} :
    (∀ {μ : Type} [Memory μ w] [LawfulMemory μ w] (m : μ) (p : Cursor w) (n : Nat), Holds m p n →
      ∃ m', reverse m p n = some m' ∧ (∀ i < n, bitsAt m' p i = bitsAt m p (n - 1 - i)) ∧
        Altered m m' (p.Covers n) ∧ ∃ m'', reverse m' p n = some m'' ∧ Restored m m'') ∧
    ∀ [HasBits w] (host : Host w), host.Reverses := by
  refine ⟨fun m p n held => ?_, fun host => host.reverses⟩
  obtain ⟨m', ran, mirrored, altered⟩ := reverse_mirrors m p held
  exact ⟨m', ran, mirrored, altered, reverse_back held mirrored altered⟩

/-- Nine bits from the fifth bit of a byte on: the chunks of both ends meet inside one byte. -/
theorem reversals_mirror_and_restore_across_two_words :
    let m : Buffers 8 := ⟨#[#[0xA7#8, 0x5A#8]]⟩
    let p : Cursor 8 := ⟨0, 0, 5, by decide⟩
    Holds m p 9 ∧ ∃ m', reverse m p 9 = some m' ∧
      runBits m' p 9 = [false, true, true, false, true, false, true, false, true] ∧
      ∃ m'', reverse m' p 9 = some m'' ∧ Restored m m'' := by
  intro m p
  have held : Holds m p 9 := by decide
  obtain ⟨m', ran, bits, -, m'', back, restored⟩ := reversals_mirror_and_restore.1 m p 9 held
  refine ⟨held, m', ran, ?_, m'', back, restored⟩
  rw [runBits, List.map_congr_left fun i member => bits i (List.mem_range.mp member)]
  decide

end PackedBits
