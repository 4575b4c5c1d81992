import PackedBits.BitVector.Order
import PackedBits.Proofs.Range.Compare
import PackedBits.Proofs.Storage.Resize

/-! Equality, order and hash of vectors in terms of their lists. Comparing words chunk by chunk
compares the lists, and where it finds the common part equal the lengths decide the order; what is
hashed can be taken apart again into the length and the words, which determine the list. -/
namespace PackedBits

/-- An answer that says how two lists are ordered, entry by entry, a list before its extensions. -/
structure Orders (answer : Ordering) (a b : List Bool) : Prop where
  lt : answer = .lt ↔ a < b
  eq : answer = .eq ↔ a = b
  gt : answer = .gt ↔ b < a

namespace BitVector

theorem compareBits_orders (as bs : List Bool) : Orders (compareBits as bs) as bs := by
  induction as generalizing bs with
  | nil =>
      cases bs with
      | nil => exact ⟨by decide, by decide, by decide⟩
      | cons b bs => exact ⟨by simp [compareBits], by simp [compareBits], by simp [compareBits]⟩
  | cons a as ih =>
      cases bs with
      | nil => exact ⟨by simp [compareBits], by simp [compareBits], by simp [compareBits]⟩
      | cons b bs =>
          obtain ⟨lt, eq, gt⟩ := ih bs
          have below : compare false true = .lt := rfl
          have above : compare true false = .gt := rfl
          have order : false < true := by decide
          have strict : ¬ true < false := by decide
          constructor <;> cases a <;> cases b <;>
            simp [compareBits, List.cons_lt_cons_iff, lt, eq, gt, below, above, order, strict]

theorem compareBits_of_take (as bs : List Bool)
    (same : as.take (min as.length bs.length) = bs.take (min as.length bs.length)) :
    compareBits as bs = compare as.length bs.length := by
  induction as generalizing bs with
  | nil =>
      cases bs with
      | nil => rfl
      | cons b bs => exact (Nat.compare_eq_lt.mpr (Nat.succ_pos _)).symm
  | cons a as ih =>
      cases bs with
      | nil => exact (Nat.compare_eq_gt.mpr (Nat.succ_pos _)).symm
      | cons b bs =>
          simp only [List.length_cons, Nat.add_min_add_right, List.take_succ_cons,
            List.cons.injEq] at same
          obtain ⟨rfl, rest⟩ := same
          have lengths : compare (as.length + 1) (bs.length + 1) = compare as.length bs.length := by
            simp [Nat.compare_eq_ite_lt]
          simp [compareBits, ih bs rest, lengths]

end BitVector

namespace Span
variable {w : Nat} [HasBits w] {s other : Span w}

omit [HasBits w] in
theorem take_eq_iff {n : Nat} (within : n ≤ s.len) (withinOther : n ≤ other.len) :
    s.toList.take n = other.toList.take n ↔ ∀ i < n, s.bit i = other.bit i := by
  have first (s : Span w) (within : n ≤ s.len) : s.toList.take n = (List.range n).map s.bit := by
    have part := map_bit_range s 0 n (by omega)
    rw [List.drop_zero] at part
    rw [← part]
    exact List.map_congr_left fun i _ => by rw [Nat.zero_add]
  rw [first s within, first other withinOther]
  simp

theorem equal_beside (held : s.Held) (heldOther : other.Held) {n : Nat} (within : n ≤ s.len)
    (withinOther : n ≤ other.len) :
    s.readBoth other (fun m p q => equal m p n q) =
      .ok (decide (s.toList.take n = other.toList.take n)) := by
  have words : (s.beside other).words 0 = s.words := rfl
  have wordsOther : (s.beside other).words 1 = other.words := rfl
  have compared := equal_eq ((holds_words words held).lower within)
    ((holds_words wordsOther heldOther).lower withinOther)
  have same : (∀ i < n, bitsAt (s.beside other) (s.firstIn 0) i =
      bitsAt (s.beside other) (other.firstIn 1) i) ↔
      s.toList.take n = other.toList.take n := by
    rw [take_eq_iff within withinOther]
    refine forall₂_congr fun i below => ?_
    rw [bitsAt_words words held (Nat.lt_of_lt_of_le below within),
      bitsAt_words wordsOther heldOther (Nat.lt_of_lt_of_le below withinOther)]
  rw [decide_eq_decide.mpr same] at compared
  exact congrArg Query.access compared

theorem bitsEq_eq (held : s.Held) (heldOther : other.Held) :
    s.bitsEq other = .ok (decide (s.toList = other.toList)) := by
  rw [bitsEq]
  by_cases same : s.len = other.len
  · rw [if_pos same, equal_beside held heldOther (Nat.le_refl _) (Nat.le_of_eq same),
      List.take_of_length_le (by simp), List.take_of_length_le (by simp [same])]
  · rw [if_neg same, decide_eq_false fun lists => same (len_congr lists)]
    rfl

end Span

namespace BitVector
variable {w : Nat} [HasBits w] {s other : Span w}

theorem order_eq (held : s.Held) (heldOther : other.Held) :
    order s other = .ok (compareBits s.toList other.toList) := by
  rw [order, Span.equal_beside held heldOther (Nat.min_le_left ..) (Nat.min_le_right ..)]
  by_cases same : s.toList.take (min s.len other.len) = other.toList.take (min s.len other.len)
  · have decided : compareBits s.toList other.toList = compare s.len other.len := by
      have lengths := compareBits_of_take s.toList other.toList
      rw [Span.length_toList, Span.length_toList] at lengths
      exact lengths same
    rw [decided, decide_eq_true same]
    rfl
  · rw [decide_eq_false same, Span.bits_eq held, Span.bits_eq heldOther]
    rfl

end BitVector

def valueOf (bytes : List (BitVec 8)) : Nat :=
  bytes.foldr (fun byte rest => byte.toNat + 256 * rest) 0

@[simp] theorem length_littleEndian (count value : Nat) :
    (littleEndian count value).length = count := by simp [littleEndian]

theorem littleEndian_succ (count value : Nat) :
    littleEndian (count + 1) value = BitVec.ofNat 8 value :: littleEndian count (value / 256) := by
  rw [littleEndian, littleEndian, List.range_succ_eq_map, List.map_cons, List.map_map]
  congr 1
  refine List.map_congr_left fun i _ => congrArg (BitVec.ofNat 8) ?_
  rw [show 8 * Nat.succ i = 8 + 8 * i by omega, Nat.shiftRight_add, Nat.shiftRight_eq_div_pow value]

theorem valueOf_littleEndian {count value : Nat} (fits : value < 256 ^ count) :
    valueOf (littleEndian count value) = value := by
  induction count generalizing value with
  | zero =>
      have zero : value = 0 := by simpa using fits
      rw [zero]
      rfl
  | succ count ih =>
      have small : value / 256 < 256 ^ count := by
        rw [Nat.div_lt_iff_lt_mul (by decide)]
        rwa [Nat.pow_succ] at fits
      have lowest : valueOf (littleEndian (count + 1) value) =
          value % 256 + 256 * valueOf (littleEndian count (value / 256)) := by
        rw [littleEndian_succ]
        rfl
      rw [lowest, ih small]
      exact Nat.mod_add_div ..

theorem littleEndian_inj {count a b : Nat} (fitsA : a < 256 ^ count) (fitsB : b < 256 ^ count)
    (same : littleEndian count a = littleEndian count b) : a = b := by
  have values := congrArg valueOf same
  rwa [valueOf_littleEndian fitsA, valueOf_littleEndian fitsB] at values

section
variable {w : Nat}

theorem wordBytes_inj (bytes : 8 ∣ w) {a b : BitVec w}
    (same : littleEndian (w / 8) a.toNat = littleEndian (w / 8) b.toNat) : a = b := by
  obtain ⟨count, rfl⟩ := bytes
  rw [Nat.mul_div_cancel_left count (by decide)] at same
  have room (word : BitVec (8 * count)) : word.toNat < 256 ^ count := by
    rw [show 256 = 2 ^ 8 by decide, ← Nat.pow_mul]
    exact word.isLt
  exact BitVec.eq_of_toNat_eq (littleEndian_inj (room a) (room b) same)

theorem wordsBytes_inj (bytes : 8 ∣ w) {as bs : List (BitVec w)} (size : as.length = bs.length)
    (same : (as.flatMap fun word => littleEndian (w / 8) word.toNat) =
      bs.flatMap fun word => littleEndian (w / 8) word.toNat) : as = bs := by
  induction as generalizing bs with
  | nil => exact (List.eq_nil_of_length_eq_zero size.symm).symm
  | cons a as ih =>
      cases bs with
      | nil => cases size
      | cons b bs =>
          rw [List.flatMap_cons, List.flatMap_cons] at same
          obtain ⟨here, later⟩ := List.append_inj same (by simp)
          rw [wordBytes_inj bytes here, ih (Nat.succ.inj size) later]

theorem hashWords_inj (bytes : 8 ∣ w) {as bs : Array (BitVec w)} (size : as.size = bs.size)
    (same : hashWords as = hashWords bs) : as = bs := by
  obtain ⟨-, later⟩ := List.append_inj same (by simp)
  exact Array.toList_inj.mp (wordsBytes_inj bytes size later)

end

namespace BitVector
variable {w : Nat} [HasBits w] {S S' : Type} [Storage S w] [StorageSpec S w] [LawfulStorage S w]
  [Storage S' w] [StorageSpec S' w] [LawfulStorage S' w] {s : S} {s' : S'}

theorem words_eq_iff_toList (sound : StorageSpec.Sound s) (sound' : StorageSpec.Sound s')
    (len : Storage.len s = Storage.len s') :
    Storage.words s = Storage.words s' ↔
      (Container.span s).toList = (Container.span s').toList := by
  constructor
  · intro same
    refine Span.toList_congr ?_ fun k below => ?_
    · rw [LawfulStorage.len_span, LawfulStorage.len_span, len]
    · rw [LawfulStorage.len_span] at below
      have bit := LawfulStorage.words_bit sound k
      rw [same, LawfulStorage.words_bit sound' k] at bit
      simpa [below, len] using bit.symm
  · intro same
    refine ext_bitIn ?_ fun k _ => ?_
    · rw [LawfulStorage.words_size sound, LawfulStorage.words_size sound', len]
    · rw [LawfulStorage.words_bit sound, LawfulStorage.words_bit sound', len]
      by_cases below : k < Storage.len s'
      · have bit := congrArg (·[k]?) same
        rw [Span.getElem?_toList, Span.getElem?_toList, LawfulStorage.len_span,
          LawfulStorage.len_span, len, if_pos below, if_pos below] at bit
        rw [Option.some.inj bit]
      · simp [below]

theorem len_fits (sound : StorageSpec.Sound s) : Storage.len s < 256 ^ 8 := by
  have limit := LawfulStorage.maxBits_lt (S := S)
  have least := LawfulStorage.len_le_maxBits sound
  have size : maxSize < 256 ^ 8 := by decide
  omega

theorem hashInput_eq_iff (bytes : 8 ∣ w) (sound : StorageSpec.Sound s)
    (sound' : StorageSpec.Sound s') :
    hashInput s = hashInput s' ↔ (Container.span s).toList = (Container.span s').toList := by
  constructor
  · intro same
    obtain ⟨lens, words⟩ := List.append_inj same (by simp)
    have len := littleEndian_inj (len_fits sound) (len_fits sound') lens
    have size : (Storage.words s).size = (Storage.words s').size := by
      rw [LawfulStorage.words_size sound, LawfulStorage.words_size sound', len]
    exact (words_eq_iff_toList sound sound' len).mp (hashWords_inj bytes size words)
  · intro same
    have len : Storage.len s = Storage.len s' := by
      have lens := Span.len_congr same
      rwa [LawfulStorage.len_span, LawfulStorage.len_span] at lens
    rw [hashInput, hashInput, len, (words_eq_iff_toList sound sound' len).mpr same]

end BitVector

end PackedBits
