import PackedBits.Proofs.Run.Locality

/-! Rotations and their inverses. A rotation turns the list of the bits and leaves all others
alone, and the one by what it answers with turns the list back: then every bit there is, inside the
run and outside, is the one it was. In a container the two rotations by as many places undo each
other, so that the container itself is what it was. -/
namespace PackedBits

namespace OnList

theorem turned_turned (middle : Nat) (bits : List Bool) :
    turned (bits.length - middle) (turned middle bits) = bits := by
  have front : (bits.drop middle).length = bits.length - middle := List.length_drop
  rw [turned, turned, List.drop_left' front, List.take_left' front, List.take_append_drop]

theorem length_turned (middle : Nat) (bits : List Bool) :
    (turned middle bits).length = bits.length := by
  rw [turned, List.length_append, List.length_drop, List.length_take]
  omega

theorem turned_left_right (n : Nat) (bits : List Bool) :
    turned (bits.length - n % bits.length) (turned (n % bits.length) bits) = bits :=
  turned_turned (n % bits.length) bits

theorem turned_right_left (n : Nat) (bits : List Bool) :
    turned (n % bits.length) (turned (bits.length - n % bits.length) bits) = bits := by
  by_cases empty : bits = []
  · rw [empty, turned, turned]
    simp only [List.drop_nil, List.take_nil, List.append_nil]
  · have place : n % bits.length ≤ bits.length :=
      Nat.le_of_lt (Nat.mod_lt n (List.length_pos_iff.mpr empty))
    have back := turned_turned (bits.length - n % bits.length) bits
    rwa [Nat.sub_sub_self place] at back

end OnList

section
variable {μ : Type} {w : Nat} [Memory μ w] [LawfulMemory μ w]

theorem rotate_turns (m : μ) (p : Cursor w) {middle n : Nat} (within : middle ≤ n)
    (held : Holds m p n) :
    ∃ m', rotate m p middle n = some (m', p + (n - middle)) ∧
      runBits m' p n = OnList.turned middle (runBits m p n) ∧ Altered m m' (p.Covers n) := by
  obtain ⟨m', ran, became⟩ := rotate_overwritten m p within held
  exact ⟨m', ran, became.runBits.trans (Span.map_rotated m p within), became.altered held⟩

/-- Turning at the cursor that a rotation answers with restores the memory. -/
theorem rotate_back {m m' : μ} {p : Cursor w} {middle n : Nat} (within : middle ≤ n)
    (held : Holds m p n) (turned : runBits m' p n = OnList.turned middle (runBits m p n))
    (altered : Altered m m' (p.Covers n)) :
    ∃ m'', rotate m' p (n - middle) n = some (m'', p + middle) ∧ Restored m m'' := by
  obtain ⟨m'', ran, back, altered'⟩ :=
    rotate_turns m' p (Nat.sub_le n middle) (altered.holds held)
  rw [Nat.sub_sub_self within] at ran
  refine ⟨m'', ran, (altered.trans altered').restored held ?_⟩
  have there := OnList.turned_turned middle (runBits m p n)
  rw [length_runBits] at there
  rw [back, turned, there]

end

namespace Host
variable {w : Nat} [HasBits w] {host : Host w}

/-- What rotating the bits of a container by `n` places has to do in each direction, and in one
after the other. -/
structure Rotates (host : Host w) (n : Nat) : Prop where
  left : host.Does (Span.rotateLeft n)
    (.ok ((), OnList.turned (n % host.bits.length) host.bits))
  right : host.Does (Span.rotateRight n)
    (.ok ((), OnList.turned (host.bits.length - n % host.bits.length) host.bits))
  leftRight : (inPlace (Span.rotateLeft n) >>= fun _ => inPlace (Span.rotateRight n)) host.value =
    .ok () host.value
  rightLeft : (inPlace (Span.rotateRight n) >>= fun _ => inPlace (Span.rotateLeft n)) host.value =
    .ok () host.value
  /-- Without bits there is nothing to do, however far. -/
  empty : host.bits = [] → inPlace (Span.rotateLeft n) host.value = .ok () host.value ∧
    inPlace (Span.rotateRight n) host.value = .ok () host.value

theorem rotates (host : Host w) (n : Nat) : host.Rotates n := by
  have len : host.bits.length = host.span.len := Span.length_toList host.span
  have left : host.span.Does (Span.rotateLeft n)
      (.ok ((), OnList.turned (n % host.bits.length) host.bits)) := by
    rw [len]
    exact Span.rotateLeft_does host.held n
  have right : host.span.Does (Span.rotateRight n)
      (.ok ((), OnList.turned (host.bits.length - n % host.bits.length) host.bits)) := by
    rw [len]
    exact Span.rotateRight_does host.held n
  refine ⟨does_of_span left, does_of_span right, undone left ?_, undone right ?_, fun none => ?_⟩
  · intro s held turned
    have back := Span.rotateRight_does held n
    rwa [← Span.length_toList, turned, OnList.length_turned, OnList.turned_left_right] at back
  · intro s held turned
    have back := Span.rotateLeft_does held n
    rwa [← Span.length_toList, turned, OnList.length_turned, OnList.turned_right_left] at back
  · have still : ∀ middle, OnList.turned middle host.bits = host.bits :=
      Span.turned_of_empty (by rw [← len, none, List.length_nil])
    rw [still] at left right
    exact ⟨inPlace_unchanged left, inPlace_unchanged right⟩

end Host

/-- A rotation brings the bits from the middle on to the front and those before it behind them,
answers with where the first one went and changes no other bit; rotating there restores every bit.
In a container the rotations by any number of places turn by what is left of it past whole turns,
and undo each other. -/
theorem rotations_turn_and_turn_back {w : Nat} :
    (∀ {μ : Type} [Memory μ w] [LawfulMemory μ w] (m : μ) (p : Cursor w) (middle n : Nat),
      middle ≤ n → Holds m p n →
        ∃ m', rotate m p middle n = some (m', p + (n - middle)) ∧
          runBits m' p n = (runBits m p n).drop middle ++ (runBits m p n).take middle ∧
          Altered m m' (p.Covers n) ∧
          ∃ m'', rotate m' p (n - middle) n = some (m'', p + middle) ∧ Restored m m'') ∧
    ∀ [HasBits w] (host : Host w) (n : Nat), host.Rotates n := by
  refine ⟨fun m p middle n within held => ?_, fun host n => host.rotates n⟩
  obtain ⟨m', ran, turned, altered⟩ := rotate_turns m p within held
  exact ⟨m', ran, turned, altered, rotate_back within held turned altered⟩

/-- Nine bits from the fifth bit of a byte on, with the last two of them brought to the front. -/
theorem rotations_turn_and_turn_back_across_two_words :
    let m : Buffers 8 := ⟨#[#[0xA7#8, 0x5A#8]]⟩
    let p : Cursor 8 := ⟨0, 0, 5, by decide⟩
    7 ≤ 9 ∧ Holds m p 9 ∧ ∃ m', rotate m p 7 9 = some (m', p + 2) ∧
      runBits m' p 9 = [true, false, true, false, true, false, true, false, true] ∧
      ∃ m'', rotate m' p 2 9 = some (m'', p + 7) ∧ Restored m m'' := by
  intro m p
  have held : Holds m p 9 := by decide
  obtain ⟨m', ran, bits, -, m'', back, restored⟩ :=
    rotations_turn_and_turn_back.1 m p 7 9 (by decide) held
  refine ⟨by decide, held, m', ran, ?_, m'', back, restored⟩
  rw [bits]
  decide

end PackedBits
