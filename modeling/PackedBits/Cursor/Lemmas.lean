import PackedBits.Cursor

/-! Cursor arithmetic is integer arithmetic on positions: every move adds to the position what it
says, and a cursor is determined by its buffer and its position. -/
namespace PackedBits

namespace Cursor
variable {w : Nat}

@[simp] theorem buffer_forward (p : Cursor w) (n : Nat) : (p + n).buffer = p.buffer := rfl

@[simp] theorem position_forward (p : Cursor w) (n : Nat) :
    (p + n).position = p.position + n := by
  have split := Nat.mod_add_div' (p.bit + n) w
  show (p.word + ((p.bit + n) / w : Nat)) * (w : Int) + ((p.bit + n) % w : Nat) = _
  rw [Int.add_mul, position]
  omega

@[simp] theorem buffer_backward (p : Cursor w) (n : Nat) : (p - n).buffer = p.buffer := rfl

@[simp] theorem position_backward (p : Cursor w) (n : Nat) :
    (p - n).position = p.position - n := by
  have split := Nat.mod_add_div' (n + (w - 1 - p.bit)) w
  have below := Nat.mod_lt (n + (w - 1 - p.bit)) p.width_pos
  have inside := p.bit_lt
  show (p.word - ((n + (w - 1 - p.bit)) / w : Nat)) * (w : Int)
    + (w - 1 - (n + (w - 1 - p.bit)) % w : Nat) = _
  rw [Int.sub_mul, position]
  omega

@[simp] theorem position_move (p : Cursor w) (n : Int) : (p.move n).position = p.position + n := by
  have positive : (0 : Int) < w := Int.ofNat_lt.mpr p.width_pos
  have split := Int.mul_ediv_add_emod (p.bit + n) w
  have above := Int.emod_nonneg (p.bit + n) (Int.ne_of_gt positive)
  show (p.word + (p.bit + n) / w) * (w : Int) + ((p.bit + n) % w).toNat = _
  rw [Int.add_mul, position]
  rw [Int.mul_comm] at split
  omega

@[simp] theorem position_next (p : Cursor w) : p.next.position = p.position + 1 := by
  have inside := p.bit_lt
  unfold next
  split
  · simp only [position]
    rw [Int.add_mul]
    omega
  · simp only [position]
    omega

@[simp] theorem position_previous (p : Cursor w) : p.previous.position = p.position - 1 := by
  have inside := p.bit_lt
  unfold previous
  split
  · simp only [position]
    rw [Int.sub_mul]
    omega
  · simp only [position]
    omega

@[simp] theorem position_ofPosition [HasBits w] (buffer n : Nat) :
    (ofPosition buffer n : Cursor w).position = n := by
  have split := Nat.mod_add_div' n w
  show ((n / w : Nat) : Int) * (w : Int) + (n % w : Nat) = n
  omega

theorem distanceFrom_eq (p origin : Cursor w) : p - origin = p.position - origin.position := by
  show (p.word - origin.word) * (w : Int) + p.bit - origin.bit = _
  rw [Int.sub_mul, position, position]
  omega

theorem ext_position {p q : Cursor w} (buffer : p.buffer = q.buffer)
    (position : p.position = q.position) : p = q := by
  have hp := p.bit_lt
  have hq := q.bit_lt
  have positive : (0 : Int) < w := Int.ofNat_lt.mpr p.width_pos
  have word (r : Cursor w) : r.position / w = r.word := by
    rw [Cursor.position, Int.add_comm, Int.add_mul_ediv_right _ _ (Int.ne_of_gt positive),
      Int.ediv_eq_zero_of_lt (Int.natCast_nonneg _) (Int.ofNat_lt.mpr r.bit_lt), Int.zero_add]
  have same : p.word = q.word := by rw [← word p, ← word q, position]
  have bit : p.bit = q.bit := by
    simp only [Cursor.position, same] at position
    omega
  cases p
  cases q
  simp_all

theorem forward_inj (p : Cursor w) {a b : Nat} : p + a = p + b ↔ a = b := by
  refine ⟨fun same => ?_, fun same => by rw [same]⟩
  have places := congrArg position same
  simp only [position_forward] at places
  omega

theorem next_forward (p : Cursor w) (a : Nat) : (p + a).next = p + (a + 1) := by
  refine ext_position ?_ ?_
  · unfold next
    split <;> rfl
  · rw [position_next, position_forward, position_forward]
    omega

theorem previous_forward (p : Cursor w) {b : Nat} (positive : 0 < b) :
    (p + b).previous = p + (b - 1) := by
  refine ext_position ?_ ?_
  · unfold previous
    split <;> rfl
  · rw [position_previous, position_forward, position_forward]
    omega

end Cursor

end PackedBits
