import Mathlib.Order.Compare
import PackedBits.Proofs.Range.Overwrite
import PackedBits.Proofs.Size

/-! Cursors as pointers on a machine. There a pointer is an address in bytes, which wraps around, and
a bit of the word at it; the sums behind a move and the products behind a distance are sizes, and
one that is out of range is a failure. Up to a few words below the largest signed size none of them
is, and pointers move, differ and compare like the cursors they stand for: like integers. -/
namespace PackedBits

namespace Size

def checked (n : Nat) : Option Nat := if n ≤ maxSize then some n else none

def signed (n : Int) : Option Int := if -maxSigned - 1 ≤ n ∧ n ≤ maxSigned then some n else none

theorem checked_of_le {n : Nat} (fits : n ≤ maxSize) : checked n = some n := if_pos fits

theorem signed_of_natAbs_le {n : Int} (fits : n.natAbs ≤ maxSigned) : signed n = some n :=
  if_pos (by omega)

end Size

def stride (w : Nat) : Nat := w / 8

structure Pointer (w : Nat) where
  address : Size
  bit : Nat
deriving DecidableEq, Repr

namespace Pointer
variable {w : Nat}

def skip (p : Pointer w) (words : Int) (bit : Nat) : Pointer w :=
  ⟨p.address + BitVec.ofInt 64 (words * stride w), bit⟩

def forward (p : Pointer w) (n : Nat) : Option (Pointer w) := do
  let total ← Size.checked (p.bit + n)
  return p.skip (total / w : Nat) (total % w)

def backward (p : Pointer w) (n : Nat) : Option (Pointer w) := do
  let back ← Size.checked (n + (w - 1 - p.bit))
  return p.skip (-(back / w : Nat)) (w - 1 - back % w)

def move (p : Pointer w) (n : Int) : Option (Pointer w) := do
  let total ← Size.signed (p.bit + n)
  return p.skip (total / w) (total % w).toNat

def next (p : Pointer w) : Pointer w :=
  if p.bit = w - 1 then p.skip 1 0 else ⟨p.address, p.bit + 1⟩

def previous (p : Pointer w) : Pointer w :=
  if p.bit = 0 then p.skip (-1) (w - 1) else ⟨p.address, p.bit - 1⟩

/-- The addresses differ by a signed number of bytes, and that by a number of words, rounded towards
zero. -/
def distanceFrom (p origin : Pointer w) : Option Int := do
  let words := (p.address - origin.address).toInt.tdiv (stride w)
  let bits ← Size.signed (words * w)
  let reached ← Size.signed (bits + p.bit)
  Size.signed (reached - origin.bit)

instance : Ord (Pointer w) where
  compare p q := (compare p.address.toNat q.address.toNat).then (compare p.bit q.bit)

end Pointer

namespace Cursor
variable {w : Nat}

inductive Move where
  | forward (n : Nat)
  | backward (n : Nat)
  | signed (n : Int)
  | next
  | previous
deriving DecidableEq, Repr

namespace Move

def amount : Move → Int
  | .forward n => n
  | .backward n => -n
  | .signed n => n
  | .next => 1
  | .previous => -1

def total : List Move → Int
  | [] => 0
  | move :: rest => move.amount + total rest

def take (p : Cursor w) : Move → Cursor w
  | .forward n => p + n
  | .backward n => p - n
  | .signed n => p.move n
  | .next => p.next
  | .previous => p.previous

def point (p : Pointer w) : Move → Option (Pointer w)
  | .forward n => p.forward n
  | .backward n => p.backward n
  | .signed n => p.move n
  | .next => some p.next
  | .previous => some p.previous

/-- An amount with two words to spare below the largest signed size. -/
def Fits (w : Nat) (move : Move) : Prop := move.amount.natAbs + 2 * w ≤ maxSigned

end Move

/-- The pointer that a cursor is when the first word of its buffer is at `base`. -/
def pointer (base : Size) (p : Cursor w) : Pointer w :=
  ⟨base + BitVec.ofInt 64 (p.word * stride w), p.bit⟩

/-- The address of the word at a cursor does not wrap around. -/
def Addressed (base : Size) (p : Cursor w) : Prop :=
  0 ≤ base.toNat + p.word * stride w ∧ base.toNat + p.word * stride w ≤ maxSize

@[simp] theorem buffer_next (p : Cursor w) : p.next.buffer = p.buffer := by
  unfold next
  split <;> rfl

@[simp] theorem buffer_previous (p : Cursor w) : p.previous.buffer = p.buffer := by
  unfold previous
  split <;> rfl

@[simp] theorem buffer_move (p : Cursor w) (n : Int) : (p.move n).buffer = p.buffer := rfl

theorem take_eq (p : Cursor w) (move : Move) : move.take p = p.move move.amount := by
  cases move <;> apply ext_position <;> simp [Move.take, Move.amount, Int.sub_eq_add_neg]

theorem move_zero (p : Cursor w) : p.move 0 = p := by
  apply ext_position <;> simp

theorem move_move (p : Cursor w) (m n : Int) : (p.move m).move n = p.move (m + n) := by
  apply ext_position <;> simp [Int.add_assoc]

theorem take_all (p : Cursor w) (moves : List Move) :
    moves.foldl Move.take p = p.move (Move.total moves) := by
  induction moves generalizing p with
  | nil => exact p.move_zero.symm
  | cons move rest ih => simp [ih, take_eq, move_move, Move.total]

section
variable {base : Size}

@[simp] theorem pointer_bit (p : Cursor w) : (p.pointer base).bit = p.bit := rfl

theorem skip_pointer (p : Cursor w) (words : Int) (bit : Nat) (inside : bit < w) :
    (p.pointer base).skip words bit =
      pointer base ⟨p.buffer, p.word + words, bit, inside⟩ := by
  simp [Pointer.skip, pointer, Int.add_mul, BitVec.ofInt_add, BitVec.add_assoc]

theorem forward_pointer (p : Cursor w) {n : Nat} (fits : p.bit + n ≤ maxSize) :
    (p.pointer base).forward n = some ((p + n).pointer base) := by
  rw [Pointer.forward, pointer_bit, Size.checked_of_le fits]
  exact congrArg some (skip_pointer p _ _ (p + n).bit_lt)

theorem backward_pointer (p : Cursor w) {n : Nat} (fits : n + (w - 1 - p.bit) ≤ maxSize) :
    (p.pointer base).backward n = some ((p - n).pointer base) := by
  rw [Pointer.backward, pointer_bit, Size.checked_of_le fits]
  exact congrArg some (skip_pointer p _ _ (p - n).bit_lt)

theorem move_pointer (p : Cursor w) {n : Int} (fits : (p.bit + n).natAbs ≤ maxSigned) :
    (p.pointer base).move n = some ((p.move n).pointer base) := by
  rw [Pointer.move, pointer_bit, Size.signed_of_natAbs_le fits]
  exact congrArg some (skip_pointer p _ _ (p.move n).bit_lt)

theorem next_pointer (p : Cursor w) : (p.pointer base).next = p.next.pointer base := by
  unfold Pointer.next next
  by_cases last : p.bit = w - 1
  · simp only [pointer_bit, last, if_true, dif_pos]
    exact skip_pointer p 1 0 p.width_pos
  · simp [last, pointer]

theorem previous_pointer (p : Cursor w) : (p.pointer base).previous = p.previous.pointer base := by
  unfold Pointer.previous previous
  by_cases first : p.bit = 0
  · simp only [pointer_bit, first, if_true]
    exact skip_pointer p (-1) (w - 1) (Nat.sub_one_lt_of_lt p.width_pos)
  · simp [first, pointer]

theorem point_pointer (p : Cursor w) {move : Move} (fits : move.Fits w) :
    move.point (p.pointer base) = some ((move.take p).pointer base) := by
  have inside := p.bit_lt
  have sizes : maxSigned ≤ maxSize := by decide
  unfold Move.Fits at fits
  cases move with
  | forward n =>
      apply forward_pointer
      simp only [Move.amount] at fits
      omega
  | backward n =>
      apply backward_pointer
      simp only [Move.amount] at fits
      omega
  | signed n =>
      apply move_pointer
      simp only [Move.amount] at fits
      omega
  | next => exact congrArg some p.next_pointer
  | previous => exact congrArg some p.previous_pointer

theorem point_all (p : Cursor w) {moves : List Move} (fit : ∀ move ∈ moves, move.Fits w) :
    moves.foldlM Move.point (p.pointer base) = some ((moves.foldl Move.take p).pointer base) := by
  induction moves generalizing p with
  | nil => rfl
  | cons move rest ih =>
      obtain ⟨first, others⟩ := List.forall_mem_cons.mp fit
      simp [point_pointer p first, ih _ others]

theorem stride_mul (aligned : 8 ∣ w) (words : Int) : words * stride w * 8 = words * w := by
  rw [Int.mul_assoc]
  exact congrArg (words * ·) (mod_cast Nat.div_mul_cancel aligned)

theorem stride_pos (aligned : 8 ∣ w) (p : Cursor w) : 0 < stride w :=
  Nat.div_pos (Nat.le_of_dvd p.width_pos aligned) (by decide)

theorem address_apart (p origin : Cursor w) :
    (p.pointer base).address - (origin.pointer base).address =
      BitVec.ofInt 64 ((p.word - origin.word) * stride w) := by
  rw [Int.sub_mul, Int.sub_eq_add_neg, BitVec.ofInt_add, BitVec.ofInt_neg]
  simp only [pointer]
  bv_omega

theorem distance_pointer (aligned : 8 ∣ w) (p origin : Cursor w)
    (fits : (p - origin : Int).natAbs + 2 * w ≤ maxSigned) :
    (p.pointer base).distanceFrom (origin.pointer base) = some (p - origin) := by
  have inside := p.bit_lt
  have within := origin.bit_lt
  have limit : 2 * maxSigned < 2 ^ 64 := by decide
  have bytes := stride_mul aligned (p.word - origin.word)
  change ((p.word - origin.word) * w + p.bit - origin.bit).natAbs + 2 * w ≤ maxSigned at fits
  have apart : ((p.pointer base).address - (origin.pointer base).address).toInt =
      (p.word - origin.word) * stride w := by
    rw [address_apart]
    apply BitVec.toInt_ofInt_eq_self
    all_goals omega
  have words : ((p.word - origin.word) * stride w).tdiv (stride w) = p.word - origin.word :=
    Int.mul_tdiv_cancel _ (Int.natCast_ne_zero.mpr (Nat.ne_of_gt (p.stride_pos aligned)))
  have first : Size.signed ((p.word - origin.word) * w) = some _ :=
    Size.signed_of_natAbs_le (by omega)
  have second : Size.signed ((p.word - origin.word) * w + p.bit) = some _ :=
    Size.signed_of_natAbs_le (by omega)
  have third : Size.signed ((p.word - origin.word) * w + p.bit - origin.bit) = some _ :=
    Size.signed_of_natAbs_le (by omega)
  simp only [Pointer.distanceFrom, apart, words, first, second, pointer_bit, Option.bind_eq_bind,
    Option.bind_some]
  exact third

theorem compare_sub (a b : Int) : compare (a - b) 0 = compare a b := by
  rcases Int.lt_trichotomy a b with less | rfl | more
  · rw [Int.compare_eq_lt.mpr less, Int.compare_eq_lt.mpr (by omega)]
  · rw [Int.sub_self, Int.compare_eq_eq.mpr rfl, Int.compare_eq_eq.mpr rfl]
  · rw [Int.compare_eq_gt.mpr more, Int.compare_eq_gt.mpr (by omega)]

theorem position_lt {p q : Cursor w} (before : p.word < q.word) : p.position < q.position := by
  have below := p.bit_lt
  have whole : (p.word + 1) * w ≤ q.word * w :=
    Int.mul_le_mul_of_nonneg_right before (Int.natCast_nonneg w)
  rw [Int.add_mul] at whole
  unfold position
  omega

theorem compare_words (p q : Cursor w) :
    (compare p.word q.word).then (compare p.bit q.bit) = compare (p - q : Int) 0 := by
  rw [distanceFrom_eq, compare_sub]
  rcases Int.lt_trichotomy p.word q.word with before | same | after
  · rw [Int.compare_eq_lt.mpr before, Int.compare_eq_lt.mpr (position_lt before)]
    rfl
  · rw [Int.compare_eq_eq.mpr same, Ordering.eq_then, position, position, same]
    rcases Nat.lt_trichotomy p.bit q.bit with less | equal | more
    · rw [Nat.compare_eq_lt.mpr less, Int.compare_eq_lt.mpr (by omega)]
    · rw [Nat.compare_eq_eq.mpr equal, Int.compare_eq_eq.mpr (by omega)]
    · rw [Nat.compare_eq_gt.mpr more, Int.compare_eq_gt.mpr (by omega)]
  · rw [Int.compare_eq_gt.mpr after, Int.compare_eq_gt.mpr (position_lt after)]
    rfl

theorem compare_cursors {p q : Cursor w} (buffer : p.buffer = q.buffer) :
    compare p q = compare (p - q : Int) 0 := by
  rw [← compare_words]
  show ((compare p.buffer q.buffer).then _).then _ = _
  rw [Nat.compare_eq_eq.mpr buffer, Ordering.eq_then]

theorem Addressed.toNat {p : Cursor w} (addressed : p.Addressed base) :
    ((p.pointer base).address.toNat : Int) = base.toNat + p.word * stride w := by
  have limit : maxSize + 1 = 2 ^ 64 := by decide
  unfold Addressed at addressed
  simp only [pointer, BitVec.toNat_add, BitVec.toNat_ofInt]
  omega

theorem compare_pointers (aligned : 8 ∣ w) {p q : Cursor w} (first : p.Addressed base)
    (second : q.Addressed base) :
    compare (p.pointer base) (q.pointer base) = compare (p - q : Int) 0 := by
  have positive : (0 : Int) < stride w := Int.ofNat_lt.mpr (p.stride_pos aligned)
  have left := first.toNat
  have right := second.toNat
  have words : compare (p.pointer base).address.toNat (q.pointer base).address.toNat =
      compare p.word q.word := by
    rcases Int.lt_trichotomy p.word q.word with before | same | after
    · have less := Int.mul_lt_mul_of_pos_right before positive
      rw [Int.compare_eq_lt.mpr before, Nat.compare_eq_lt.mpr (by omega)]
    · rw [Int.compare_eq_eq.mpr same, Nat.compare_eq_eq.mpr (by rw [same] at left; omega)]
    · have more := Int.mul_lt_mul_of_pos_right after positive
      rw [Int.compare_eq_gt.mpr after, Nat.compare_eq_gt.mpr (by omega)]
  rw [← compare_words, ← words]
  rfl

theorem eq_iff {p q : Cursor w} (buffer : p.buffer = q.buffer) : p = q ↔ (p - q : Int) = 0 := by
  rw [distanceFrom_eq, Int.sub_eq_zero]
  exact ⟨congrArg position, ext_position buffer⟩

theorem pointer_eq_iff (aligned : 8 ∣ w) {p q : Cursor w} (buffer : p.buffer = q.buffer)
    (first : p.Addressed base) (second : q.Addressed base) :
    p.pointer base = q.pointer base ↔ (p - q : Int) = 0 := by
  rw [← eq_iff buffer]
  constructor
  · intro same
    have left := first.toNat
    have right := second.toNat
    have bit : p.bit = q.bit := congrArg Pointer.bit same
    rw [same] at left
    have word : p.word = q.word :=
      Int.eq_of_mul_eq_mul_right (Int.natCast_ne_zero.mpr (Nat.ne_of_gt (p.stride_pos aligned)))
        (by omega)
    exact ext_position buffer (by rw [position, position, word, bit])
  · exact congrArg (pointer base)

end

theorem move_sub_move (p : Cursor w) (m n : Int) : (p.move m - p.move n : Int) = m - n := by
  rw [distanceFrom_eq, position_move, position_move, Int.add_sub_add_left]

structure Additive (p : Cursor w) : Prop where
  moves (moves : List Move) : moves.foldl Move.take p = p.move (Move.total moves)
  next : p.next = p + 1
  previous : p.previous = p - 1
  onward (n : Nat) : p.move n = p + n
  back (n : Nat) : p.move (-n) = p - n
  assoc (a b : Nat) : p + a + b = p + (a + b)
  forth_back (a : Nat) : p + a - a = p
  back_forth (a : Nat) : p - a + a = p
  ahead (a : Nat) : (p + a) - p = (a : Int)
  behind (a : Nat) : p - (p + a) = -(a : Int)
  order (m n : Int) : compare (p.move m) (p.move n) = compare (p.move m - p.move n : Int) 0
  same (m n : Int) : p.move m = p.move n ↔ (p.move m - p.move n : Int) = 0

/-- The pointers that a cursor reaches are those of the cursors it reaches, as long as the amounts
and distances fit, and ordered like these when no address wraps around. -/
structure OnMachine (base : Size) (p : Cursor w) : Prop where
  moves {moves : List Move} : (∀ move ∈ moves, move.Fits w) →
    moves.foldlM Move.point (p.pointer base) = some ((p.move (Move.total moves)).pointer base)
  distance {m n : Int} : (m - n).natAbs + 2 * w ≤ maxSigned →
    ((p.move m).pointer base).distanceFrom ((p.move n).pointer base) = some (m - n)
  order {m n : Int} : (p.move m).Addressed base → (p.move n).Addressed base →
    compare ((p.move m).pointer base) ((p.move n).pointer base) = compare (m - n) 0
  same {m n : Int} : (p.move m).Addressed base → (p.move n).Addressed base →
    ((p.move m).pointer base = (p.move n).pointer base ↔ m - n = 0)

theorem additive (p : Cursor w) : p.Additive where
  moves := p.take_all
  next := (p.take_eq .next).trans (p.take_eq (.forward 1)).symm
  previous := (p.take_eq .previous).trans (p.take_eq (.backward 1)).symm
  onward n := (p.take_eq (.forward n)).symm
  back n := (p.take_eq (.backward n)).symm
  assoc := p.forward_forward
  forth_back a := by apply ext_position <;> simp
  back_forth := p.backward_forward
  ahead a := by
    rw [distanceFrom_eq, position_forward]
    omega
  behind a := by
    rw [distanceFrom_eq, position_forward]
    omega
  order _ _ := compare_cursors rfl
  same _ _ := eq_iff rfl

theorem onMachine (aligned : 8 ∣ w) (base : Size) (p : Cursor w) : p.OnMachine base where
  moves fit := by rw [point_all p fit, take_all]
  distance {m n} fits := by
    rw [← p.move_sub_move m n] at fits ⊢
    exact distance_pointer aligned _ _ fits
  order {m n} first second := by
    rw [compare_pointers aligned first second, move_sub_move]
  same {m n} first second := by
    rw [← p.move_sub_move m n]
    exact pointer_eq_iff aligned rfl first second

/-- The arithmetic of cursors is that of integers, before and past the buffer as inside it; and every
pointer to a bit of a word is that of a cursor, and moves, differs and compares like it. -/
theorem cursors_move_like_integers (aligned : 8 ∣ w) :
    (∀ p : Cursor w, p.Additive ∧ ∀ base, p.OnMachine base) ∧
    ∀ start : Pointer w, start.bit < w → ∃ p : Cursor w, p.pointer start.address = start := by
  constructor
  · intro p
    exact ⟨p.additive, fun base => p.onMachine aligned base⟩
  · intro start inside
    exact ⟨⟨0, 0, start.bit, inside⟩, by simp [pointer]⟩

/-- From bit 5 of a byte back to bit 4 of the byte that is two before it, and one bit on. -/
theorem cursors_move_like_integers_before_a_buffer :
    8 ∣ 8 ∧
    [Move.backward 13, .previous, .signed (-3), .next].foldlM Move.point (⟨16, 5⟩ : Pointer 8) =
      some ⟨14, 5⟩ ∧
    (⟨14, 5⟩ : Pointer 8).distanceFrom ⟨16, 5⟩ = some (-16) ∧
    compare (⟨14, 5⟩ : Pointer 8) ⟨16, 5⟩ = .lt := by
  have aligned : 8 ∣ 8 := Nat.dvd_refl 8
  let p : Cursor 8 := ⟨0, 0, 5, by decide⟩
  have onMachine : p.OnMachine 16#64 := ((cursors_move_like_integers aligned).1 p).2 16#64
  have fit : ∀ move ∈ [Move.backward 13, .previous, .signed (-3), .next], move.Fits 8 := by
    simp [Move.Fits, Move.amount, maxSigned]
  have apart := onMachine.distance (m := -16) (n := 0) (by decide)
  have order := onMachine.order (m := -16) (n := 0) (by simp [Addressed, p, move, stride, maxSize])
    (by simp [Addressed, p, move, stride, maxSize])
  have start : (p.move 0).pointer 16#64 = ⟨16, 5⟩ := by decide
  have stop : (p.move (-16)).pointer 16#64 = ⟨14, 5⟩ := by decide
  rw [start, stop] at apart order
  exact ⟨aligned, (onMachine.moves fit).trans (congrArg some stop), apart, order⟩

end Cursor
end PackedBits
