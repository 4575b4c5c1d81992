import PackedBits.Range.Rotate
import PackedBits.Proofs.Range.Exchange

/-! What rotating does, bit for bit. A rotation by blocks is an exchange and a shorter rotation. Its
last step goes through parking words: it is three moves in a memory that has these words beside it,
of which the memory keeps what was moved to its own buffers. -/
namespace PackedBits
variable {μ : Type} {w : Nat} [Memory μ w]

def rotated (m : μ) (p : Cursor w) (left right i : Nat) : Bool :=
  if i < right then bitsAt m p (left + i) else bitsAt m p (i - right)

namespace Parking

theorem load_parked (s : Parking μ w) (word : Int) :
    Memory.load s ⟨0, word⟩ = if 0 ≤ word then s.parked[word.toNat]? else none := rfl

theorem load_beside (s : Parking μ w) (buffer : Nat) (word : Int) :
    Memory.load s ⟨buffer + 1, word⟩ = Memory.load s.memory ⟨buffer, word⟩ := rfl

theorem store_parked (s : Parking μ w) (place : Int) (word : BitVec w) :
    Memory.store s ⟨0, place⟩ word =
      if 0 ≤ place ∧ place.toNat < s.parked.size then
        some ⟨s.memory, s.parked.setIfInBounds place.toNat word⟩
      else none := rfl

theorem store_beside (s : Parking μ w) (buffer : Nat) (place : Int) (word : BitVec w) :
    Memory.store s ⟨buffer + 1, place⟩ word =
      (Memory.store s.memory ⟨buffer, place⟩ word).map fun memory => ⟨memory, s.parked⟩ := by
  show ((Memory.store s.memory ⟨buffer, place⟩ word).bind fun memory =>
    some (⟨memory, s.parked⟩ : Parking μ w)) = _
  cases Memory.store s.memory ⟨buffer, place⟩ word <;> rfl

theorem bit?_beside (s : Parking μ w) (buffer : Nat) (position : Int) :
    bit? s (buffer + 1) position = bit? s.memory buffer position := rfl

theorem bitsAt_beside (s : Parking μ w) (p : Cursor w) (i : Nat) :
    bitsAt s p.besideParked i = bitsAt s.memory p i := rfl

theorem overwritten_beside {s s' : Parking μ w} {p : Cursor w} {n : Nat} {new : Nat → Bool}
    (written : Overwritten s s' p.besideParked n new) :
    Overwritten s.memory s'.memory p n new := by
  intro buffer position
  have became := written (buffer + 1) position
  have covers : p.besideParked.Covers n (buffer + 1) position ↔ p.Covers n buffer position :=
    and_congr_left' Nat.succ_inj
  simp only [covers] at became
  exact became

theorem holds_parked (s : Parking μ w) (p : Cursor w) {n : Nat} (room : n ≤ s.parked.size * w) :
    Holds s p.parkedFirst n := by
  intro i below
  have origin : p.parkedFirst.position + (i : Int) = (i : Nat) := by
    simp [Cursor.position, Cursor.parkedFirst]
  have inside : i / w < s.parked.size :=
    (Nat.div_lt_iff_lt_mul p.width_pos).mpr (Nat.lt_of_lt_of_le below room)
  rw [bit?, origin, show p.parkedFirst.buffer = 0 from rfl, ← Int.natCast_ediv, load_parked,
    if_pos (Int.natCast_nonneg _), Int.toNat_natCast, Array.getElem?_eq_getElem inside]
  rfl

instance [LawfulMemory μ w] : LawfulMemory (Parking μ w) w where
  store_isSome s a word := by
    obtain ⟨buffer, place⟩ := a
    cases buffer with
    | zero =>
      rw [store_parked, load_parked]
      by_cases positive : 0 ≤ place
      · by_cases inside : place.toNat < s.parked.size <;> simp [positive, inside]
      · simp [positive]
    | succ buffer =>
      rw [store_beside, load_beside, Option.isSome_map, LawfulMemory.store_isSome]
  load_store {s s' a word} stored b := by
    obtain ⟨buffer, place⟩ := a
    obtain ⟨other, place'⟩ := b
    cases buffer with
    | zero =>
      rw [store_parked] at stored
      split at stored
      case isFalse => cases stored
      case isTrue inside =>
        obtain rfl := Option.some.inj stored
        cases other with
        | zero =>
          simp only [load_parked, Array.getElem?_setIfInBounds, Address.mk.injEq, true_and]
          by_cases same : place' = place
          · subst same
            simp [inside]
          · by_cases positive : 0 ≤ place'
            · have apart : place.toNat ≠ place'.toNat := by omega
              simp [same, positive, apart]
            · simp [same, positive]
        | succ other => simp [load_beside]
    | succ buffer =>
      rw [store_beside] at stored
      obtain ⟨m', own, rfl⟩ := Option.map_eq_some_iff.mp stored
      cases other with
      | zero => simp [load_parked]
      | succ other =>
        rw [load_beside, load_beside, LawfulMemory.load_store own]
        simp [Address.mk.injEq]

end Parking

section
variable [LawfulMemory μ w]

namespace Parking
variable {s : Parking μ w} (p : Cursor w) {n : Nat}

theorem park_spec (q : Cursor w) (room : n ≤ s.parked.size * w) (held : Holds s.memory q n) :
    ∃ s', copy s q.besideParked n p.parkedFirst = some (s', p.parkedFirst + n) ∧
      Restored s.memory s'.memory ∧
      Holds s' p.parkedFirst n ∧ ∀ i < n, bitsAt s' p.parkedFirst i = bitsAt s.memory q i := by
  have free := holds_parked s p room
  obtain ⟨s', ran, became⟩ := copy_overwritten s q.besideParked n p.parkedFirst held free
    (.inl (Nat.succ_ne_zero q.buffer))
  refine ⟨s', ran, fun buffer position => ?_, (became.altered free).holds free, fun i below => ?_⟩
  · rw [← bit?_beside, became, if_neg fun inside => Nat.succ_ne_zero buffer inside.1, bit?_beside]
  · rw [became.bitsAt below, bitsAt_beside]

omit [LawfulMemory μ w] in
theorem parked_kept {s' : Parking μ w} {q : Cursor w} {k : Nat} {new : Nat → Bool}
    (held : Holds s p.parkedFirst n) (heldBeside : Holds s.memory q k)
    (became : Overwritten s s' q.besideParked k new) :
    Holds s' p.parkedFirst n ∧ ∀ i, bitsAt s' p.parkedFirst i = bitsAt s p.parkedFirst i := by
  have altered := became.altered heldBeside
  exact ⟨altered.holds held, fun i => altered.bitsAt fun inside =>
    Nat.succ_ne_zero q.buffer inside.1.symm⟩

theorem unpark_spec (q : Cursor w) (parked : Holds s p.parkedFirst n) (held : Holds s.memory q n) :
    ∃ s', copy s p.parkedFirst n q.besideParked = some (s', q.besideParked + n) ∧
      Overwritten s.memory s'.memory q n (bitsAt s p.parkedFirst) := by
  obtain ⟨s', ran, became⟩ := copy_overwritten s p.parkedFirst n q.besideParked parked held
    (.inl (Nat.succ_ne_zero q.buffer).symm)
  exact ⟨s', ran, overwritten_beside became⟩

/-- Bits that are parked while others are moved, and put down where there is room then. -/
theorem moved_around (source target q r : Cursor w) {k : Nat} {stop : Cursor w}
    {move : Parking μ w → Option (Parking μ w × Cursor w)} (room : n ≤ s.parked.size * w)
    (heldParked : Holds s.memory q n) (heldTarget : Holds s.memory target k)
    (free : Holds s.memory r n)
    (moves : ∀ s₁ : Parking μ w, Restored s.memory s₁.memory → ∃ s₂, move s₁ = some (s₂, stop) ∧
      Overwritten s₁ s₂ target.besideParked k (bitsAt s₁ source.besideParked)) :
    ∃ s₁ s₂ s₃, copy s q.besideParked n p.parkedFirst = some (s₁, p.parkedFirst + n) ∧
      move s₁ = some (s₂, stop) ∧
      copy s₂ p.parkedFirst n r.besideParked = some (s₃, r.besideParked + n) ∧
      Overwritten s.memory s₂.memory target k (bitsAt s.memory source) ∧
      Overwritten s₂.memory s₃.memory r n (bitsAt s.memory q) := by
  obtain ⟨s₁, parks, same, parked, bits⟩ := park_spec p q room heldParked
  obtain ⟨s₂, ran, became⟩ := moves s₁ same
  obtain ⟨kept, bits'⟩ := parked_kept p parked (same.holds heldTarget) became
  have moved : Overwritten s.memory s₂.memory target k (bitsAt s.memory source) :=
    (same.overwritten (overwritten_beside became)).congr fun i _ => by
      rw [bitsAt_beside, same.bitsAt]
  obtain ⟨s₃, puts, filled⟩ := unpark_spec p r kept ((moved.altered heldTarget).holds free)
  refine ⟨s₁, s₂, s₃, parks, ran, puts, moved, filled.congr fun i below => ?_⟩
  rw [bits', bits i below]

end Parking

/-- The shorter side is parked, the longer one moves to the free end, and the parked bits are put
behind or before it. -/
theorem rotate_parked_overwritten (m : μ) (p : Cursor w) (left right : Nat)
    (fits : min left right ≤ parkedWords * w) (held : Holds m p (left + right)) :
    ∃ m', rotateParked m p left right = some m' ∧
      Overwritten m m' p (left + right) (rotated m p left right) := by
  let s : Parking μ w := ⟨m, Array.replicate parkedWords 0#w⟩
  have size : s.parked.size = parkedWords := Array.size_replicate
  have lower : Holds m p left := held.lower (by omega)
  have start : Holds m p right := held.lower (by omega)
  have upper : Holds m (p + left) right := held.part (Nat.le_refl _)
  have place : Holds m (p + right) left := held.part (by omega)
  by_cases short : left ≤ right
  · have down : Ascending (p + left).besideParked p.besideParked right := by
      right; left
      show p.position ≤ (p + left).position
      rw [Cursor.position_forward]
      omega
    obtain ⟨s₁, s₂, s₃, parks, moves, puts, moved, filled⟩ :=
      Parking.moved_around (s := s) p (p + left) p p (p + right) (by rw [size]; omega) lower start
        place fun s₁ same => copy_overwritten s₁ (p + left).besideParked right p.besideParked
          (same.holds upper) (same.holds start) down
    refine ⟨s₃.memory, ?_, ?_⟩
    · show (if left ≤ right then _ else _) = _
      rw [if_pos short, parks]
      show (copy s₁ (p + left).besideParked right p.besideParked).bind _ = _
      rw [moves]
      show (copy s₂ p.parkedFirst left (p + right).besideParked).bind _ = _
      rw [puts]
      rfl
    · rw [Nat.add_comm left right]
      refine (moved.congr fun i below => ?_).append (filled.congr fun i below => ?_)
      · rw [bitsAt_forward, rotated, if_pos below]
      · rw [rotated, if_neg (by omega), Nat.add_sub_cancel_left]
  · have up : Descending p.besideParked (p + right).besideParked left := by
      right; left
      show p.position ≤ (p + right).position
      rw [Cursor.position_forward]
      omega
    obtain ⟨s₁, s₂, s₃, parks, moves, puts, moved, filled⟩ :=
      Parking.moved_around (s := s) p p (p + right) (p + left) p (by rw [size]; omega) upper place
        start fun s₁ same => copy_backward_overwritten s₁ p.besideParked left
          (p + right).besideParked (same.holds lower) (same.holds place) up
    have ends : (p + left).besideParked + right = (p + right).besideParked + left := by
      show (p + left + right).besideParked = (p + right + left).besideParked
      rw [Cursor.forward_forward, Cursor.forward_forward, Nat.add_comm]
    refine ⟨s₃.memory, ?_, ?_⟩
    · show (if left ≤ right then _ else _) = _
      rw [if_neg short]
      show (copy s (p + left).besideParked right p.parkedFirst).bind _ = _
      rw [parks]
      show (copyBackward s₁ p.besideParked left ((p + left).besideParked + right)).bind _ = _
      rw [ends, moves]
      show (copy s₂ p.parkedFirst right p.besideParked).bind _ = _
      rw [puts]
      rfl
    · rw [Nat.add_comm left right]
      refine (moved.congr fun i below => ?_).prepend (filled.congr fun i below => ?_)
      · rw [rotated, if_neg (by omega), Nat.add_sub_cancel_left]
      · rw [bitsAt_forward, rotated, if_pos below]

theorem exchange_overwritten (m : μ) (p : Cursor w) {left right n : Nat} (apart : n ≤ left)
    (within : n ≤ right) (held : Holds m p (left + right)) :
    ∃ m', swapRanges m p n (p + left) = some (m', p + left + n) ∧
      Overwritten m m' p (left + right) fun i =>
        if i < n then bitsAt m p (left + i)
        else if left ≤ i ∧ i < left + n then bitsAt m p (i - left)
        else bitsAt m p i := by
  obtain ⟨m', swapped, exchanged⟩ := swap_ranges_exchanged m p n (p + left)
    (held.lower (by omega)) (held.part (by omega))
    (.inr (.inl (by simp only [Cursor.position_forward]; omega)))
  refine ⟨m', swapped, fun buffer position => ?_⟩
  rw [exchanged, Overwritten.self held buffer position]
  simp only [Cursor.Covers, Cursor.buffer_forward, Cursor.position_forward]
  by_cases covered : buffer = p.buffer ∧ p.position ≤ position ∧
      position < p.position + (left + right : Nat)
  · rw [if_pos covered, if_pos covered]
    by_cases first : position < p.position + n
    · rw [if_pos ⟨covered.1, by omega, first⟩, if_pos (by omega), bitsAt_forward]
    · rw [if_neg fun both => first both.2.2]
      by_cases second : p.position + left ≤ position ∧ position < p.position + left + n
      · rw [if_pos ⟨covered.1, second⟩, if_neg (by omega), if_pos (by omega)]
        congr 2
        omega
      · rw [if_neg fun both => second both.2, if_neg (by omega), if_neg (by omega)]
  · rw [if_neg covered, if_neg covered, if_neg (fun both => covered ⟨both.1, by omega⟩),
      if_neg (fun both => covered ⟨both.1, by omega⟩)]

/-- An exchange settles as many bits as the shorter side has; what is left to rotate is a part of
the run, and the bits of the shorter side are at its start or its end. -/
theorem rotate_blocks_overwritten (m : μ) (p : Cursor w) (left right : Nat)
    (held : Holds m p (left + right)) :
    ∃ m', rotateBlocks m p left right = some m' ∧
      Overwritten m m' p (left + right) (rotated m p left right) := by
  fun_induction rotateBlocks m p left right with
  | case1 m p left right done =>
      refine ⟨m, rfl, (Overwritten.self held).congr fun i below => ?_⟩
      rw [rotated]
      rcases done with rfl | rfl
      · rw [if_pos (by omega), Nat.zero_add]
      · rw [if_neg (Nat.not_lt_zero i), Nat.sub_zero]
  | case2 m p left right more small => exact rotate_parked_overwritten m p left right small held
  | case3 m p left right more large short ih =>
      obtain ⟨m₁, swapped, exchanged⟩ :=
        exchange_overwritten m p (Nat.le_refl left) short held
      have held₁ := (exchanged.altered held).holds held
      obtain ⟨m₂, ran, became⟩ := ih m₁ (held₁.part (by omega))
      refine ⟨m₂, by simp [swapped, ran], ?_⟩
      refine (exchanged.part became (by omega)).congr fun i below => ?_
      by_cases settled : i < left
      · rw [if_neg (by omega), if_pos settled, rotated, if_pos (by omega)]
      · rw [if_pos (by omega), rotated, rotated]
        by_cases upper : i < right
        · rw [if_pos (by omega), if_pos upper, bitsAt_forward, exchanged.bitsAt (by omega),
            if_neg (by omega), if_neg (by omega)]
          congr 1
          omega
        · rw [if_neg (by omega), if_neg upper, bitsAt_forward, exchanged.bitsAt (by omega),
            if_neg (by omega), if_pos (by omega)]
          congr 1
          omega
  | case4 m p left right more large long ih =>
      obtain ⟨m₁, swapped, exchanged⟩ :=
        exchange_overwritten m p (Nat.le_of_not_le long) (Nat.le_refl right) held
      have held₁ := (exchanged.altered held).holds held
      obtain ⟨m₂, ran, became⟩ := ih m₁ (held₁.part (by omega))
      refine ⟨m₂, by simp [swapped, ran], ?_⟩
      refine (exchanged.part became (by omega)).congr fun i below => ?_
      by_cases settled : i < right
      · rw [if_neg (by omega), if_pos settled, rotated, if_pos settled]
      · rw [if_pos (by omega), rotated, rotated, if_neg settled]
        by_cases upper : i - right < right
        · rw [if_pos upper, bitsAt_forward, exchanged.bitsAt (by omega), if_neg (by omega),
            if_pos (by omega)]
          congr 1
          omega
        · rw [if_neg upper, bitsAt_forward, exchanged.bitsAt (by omega), if_neg (by omega),
            if_neg (by omega)]
          congr 1
          omega

theorem rotate_overwritten (m : μ) (p : Cursor w) {middle n : Nat} (within : middle ≤ n)
    (held : Holds m p n) :
    ∃ m', rotate m p middle n = some (m', p + (n - middle)) ∧
      Overwritten m m' p n (rotated m p middle (n - middle)) := by
  have whole : middle + (n - middle) = n := by omega
  obtain ⟨m', ran, became⟩ := rotate_blocks_overwritten m p middle (n - middle)
    (held.lower (Nat.le_of_eq whole))
  rw [whole] at became
  exact ⟨m', by simp only [rotate, ran]; rfl, became⟩

end

end PackedBits
