import PackedBits.BitVector.Edit
import PackedBits.Proofs.Words

/-! Sizes on a machine. There a size is a word of 64 bits and arithmetic wraps around; a sum is
tested by its carry, and a product that may be too large is replaced by the largest size. Each of
these is what it is for numbers as long as the number is a size. -/
namespace PackedBits

abbrev Size := BitVec 64

namespace Size

def of (n : Nat) : Size := BitVec.ofNat 64 n

def larger (a b : Size) : Size := if a < b then b else a

def divCeil (a b : Size) : Size := if a % b = 0#64 then a / b else a / b + 1#64

/-- Twice a size, or the largest one if that is none. -/
def doubled (a : Size) : Size := if BitVec.uaddOverflow a a then BitVec.allOnes 64 else a + a

def grown (needed current : Size) : Size :=
  larger (larger needed (doubled current)) (of minBlockWords)

def grownLen {σ : Type} (length n : Size) (max : Nat) : Attempt σ Nat :=
  if BitVec.uaddOverflow length n then Attempt.fail (.capacityExceeded maxSize max)
  else return (length + n).toNat

variable {a b : Nat}

theorem toNat_of (fits : a ≤ maxSize) : (of a).toNat = a := by
  have limit : maxSize + 1 = 2 ^ 64 := by decide
  rw [of, BitVec.toNat_ofNat, Nat.mod_eq_of_lt (by omega)]

theorem add_exact (fits : a + b ≤ maxSize) : (of a + of b).toNat = a + b := by
  have limit : maxSize + 1 = 2 ^ 64 := by decide
  have left : (of a).toNat = a := toNat_of (by omega)
  have right : (of b).toNat = b := toNat_of (by omega)
  rw [BitVec.toNat_add_of_lt (by omega), left, right]

theorem mul_exact (fits : a * b ≤ maxSize) : (of a * of b).toNat = a * b := by
  have limit : maxSize + 1 = 2 ^ 64 := by decide
  rw [BitVec.toNat_mul, of, of, BitVec.toNat_ofNat, BitVec.toNat_ofNat, ← Nat.mul_mod,
    Nat.mod_eq_of_lt (by omega)]

theorem carry_eq (left : a ≤ maxSize) (right : b ≤ maxSize) :
    BitVec.uaddOverflow (of a) (of b) = decide (maxSize < a + b) := by
  have limit : maxSize + 1 = 2 ^ 64 := by decide
  rw [BitVec.uaddOverflow, toNat_of left, toNat_of right]
  exact decide_eq_decide.mpr (by omega)

theorem grownLen_exact {σ : Type} (left : a ≤ maxSize) (right : b ≤ maxSize) (max : Nat) :
    (grownLen (of a) (of b) max : Attempt σ Nat) = BitVector.grownLen a b max := by
  rw [grownLen, BitVector.grownLen, carry_eq left right]
  by_cases fits : a + b ≤ maxSize
  · rw [decide_eq_false (Nat.not_lt.mpr fits), if_neg Bool.false_ne_true, if_pos fits,
      add_exact fits]
  · rw [decide_eq_true (Nat.lt_of_not_le fits), if_pos rfl, if_neg fits]

theorem toNat_larger (a b : Size) : (larger a b).toNat = max a.toNat b.toNat := by
  unfold larger
  split
  case isTrue less => exact (Nat.max_eq_right (Nat.le_of_lt less)).symm
  case isFalse more => exact (Nat.max_eq_left (Nat.le_of_not_lt more)).symm

theorem doubled_exact (fits : a ≤ maxSize) : (doubled (of a)).toNat = min (2 * a) maxSize := by
  rw [doubled, carry_eq fits fits, ← Nat.two_mul]
  by_cases excess : maxSize < 2 * a
  · rw [decide_eq_true excess, if_pos rfl, Nat.min_eq_right (Nat.le_of_lt excess)]
    decide
  · have double : a + a = 2 * a := (Nat.two_mul a).symm
    have small : 2 * a ≤ maxSize := Nat.le_of_not_lt excess
    rw [decide_eq_false excess, if_neg Bool.false_ne_true, Nat.min_eq_left small,
      add_exact (Nat.le_trans (Nat.le_of_eq double) small), double]

theorem grown_exact (needed : a ≤ maxSize) (current : b ≤ maxSize) :
    (grown (of a) (of b)).toNat = grownCapacity a b := by
  rw [grown, toNat_larger, toNat_larger, toNat_of needed, doubled_exact current,
    toNat_of (show minBlockWords ≤ maxSize by decide), grownCapacity]

theorem divCeil_exact {w bits : Nat} [HasBits w] (width : w ≤ maxSize) (fits : bits ≤ maxSize) :
    (divCeil (of bits) (of w)).toNat = wordsFor w bits := by
  have quotient : bits / w ≤ maxSize := Nat.le_trans (Nat.div_le_self bits w) fits
  have whole : of bits / of w = of (bits / w) := BitVec.eq_of_toNat_eq (by
    rw [BitVec.toNat_udiv, toNat_of fits, toNat_of width, toNat_of quotient])
  have rest : of bits % of w = 0#64 ↔ bits % w = 0 := by
    rw [BitVec.toNat_inj.symm, BitVec.toNat_umod, toNat_of fits, toNat_of width]
    rfl
  rw [divCeil, whole]
  by_cases even : bits % w = 0
  · rw [if_pos (rest.mpr even), toNat_of quotient, wordsFor_of_mod_eq_zero even]
  · -- The bits of the last word are fewer than a word, but some.
    have split : bits / w * w + bits % w = bits := Nat.div_add_mod' bits w
    have count : wordsFor w bits = bits / w + 1 := by
      conv => lhs; rw [← split]
      rw [wordsFor_add (Nat.mul_mod_left ..) (Nat.pos_of_ne_zero even)
        (Nat.le_of_lt (Nat.mod_lt _ width_pos)), wordsFor_mul]
    have room : bits / w + 1 ≤ maxSize := by
      have less : bits / w ≤ bits / w * w := Nat.le_mul_of_pos_right _ width_pos
      omega
    rw [if_neg (mt rest.mp even), count]
    exact add_exact room

end Size

end PackedBits
