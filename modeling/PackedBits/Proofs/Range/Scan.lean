import PackedBits.Range.Scan
import PackedBits.Proofs.Range.Move
import PackedBits.Proofs.Words

/-! What scanning a run of bits yields: an answer inside the run, or its length. -/
namespace PackedBits
variable {μ : Type} {w : Nat} [Memory μ w]

theorem hits_eq {m : μ} {p : Cursor w} {n : Nat} {chunk : Chunk} (value : Bool)
    (fits : Fits p n chunk) (held : Holds m p n) :
    ∃ word, hits m p value chunk = some word ∧
      ∀ i, word.getLsbD i =
        (decide (i < chunk.width) && (bitsAt m p (chunk.offset + i) == value)) := by
  obtain ⟨word, read, bits⟩ := readBits_chunk fits held
  refine ⟨if value then word else word ^^^ maskTo w chunk.width, by simp [hits, read], fun i => ?_⟩
  have small := fits.small
  cases value
  · by_cases below : i < chunk.width
    · simp only [Bool.false_eq_true, if_false, BitVec.getLsbD_xor, bits, getLsbD_maskTo, below,
        show i < w by omega, decide_true]
      cases bitsAt m p (chunk.offset + i) <;> rfl
    · simp [bits, below]
  · by_cases below : i < chunk.width <;> simp [bits, below]

/-- A place is the first one below `n` that holds a value, or `n` and there is none. -/
structure First (bits : Nat → Bool) (value : Bool) (n found : Nat) : Prop where
  within : found ≤ n
  before : ∀ i < found, bits i = !value
  hit : found < n → bits found = value

structure Last (bits : Nat → Bool) (value : Bool) (n found : Nat) : Prop where
  within : found ≤ n
  hit : found < n → bits found = value
  after : ∀ i, found < i → i < n → bits i = !value
  none : found = n → ∀ i < n, bits i = !value

omit [Memory μ w] in
theorem eq_not_of_miss {bit value : Bool} (miss : (bit == value) = false) : bit = !value := by
  revert miss
  cases bit <;> cases value <;> decide

theorem miss_chunk {m : μ} {p : Cursor w} {value : Bool} {chunk : Chunk}
    (marks : ∀ i, (0#w).getLsbD i =
      (decide (i < chunk.width) && (bitsAt m p (chunk.offset + i) == value))) :
    ∀ i < chunk.width, bitsAt m p (chunk.offset + i) = !value := by
  intro i below
  have mark := marks i
  rw [BitVec.getLsbD_zero, decide_eq_true below, Bool.true_and] at mark
  exact eq_not_of_miss mark.symm

omit [Memory μ w] in
theorem forall_chunk {holds : Nat → Prop} {chunk : Chunk} (before : ∀ i < chunk.offset, holds i)
    (here : ∀ i < chunk.width, holds (chunk.offset + i)) :
    ∀ i < chunk.offset + chunk.width, holds i := by
  intro i below
  by_cases early : i < chunk.offset
  · exact before i early
  · have within := here (i - chunk.offset) (by omega)
    rwa [Nat.add_sub_cancel' (Nat.le_of_not_lt early)] at within

theorem first_hit_chunk {m : μ} {p : Cursor w} {n : Nat} {chunk : Chunk} (value : Bool)
    (fits : Fits p n chunk) (held : Holds m p n)
    (before : ∀ i < chunk.offset, bitsAt m p i = !value) :
    (∃ found, firstHit m p value chunk = some (some found) ∧
        First (bitsAt m p) value n found) ∨
      (firstHit m p value chunk = some none ∧
        ∀ i < chunk.offset + chunk.width, bitsAt m p i = !value) := by
  obtain ⟨word, marked, marks⟩ := hits_eq value fits held
  have inside := fits.inside
  by_cases clear : word = 0#w
  · subst clear
    exact .inr ⟨by simp [firstHit, marked], forall_chunk before (miss_chunk marks)⟩
  · obtain ⟨-, -, passed, stop⟩ := firstSetFrom_spec word (Nat.zero_le w)
    have set : trailingZeros word < w := by
      refine Nat.lt_of_not_le fun none => clear (BitVec.eq_of_getLsbD_eq fun i below => ?_)
      rw [passed i (Nat.zero_le i) (Nat.lt_of_lt_of_le below none), BitVec.getLsbD_zero]
    have here := stop set
    rw [show firstSetFrom word 0 = trailingZeros word from rfl, marks, Bool.and_eq_true,
      decide_eq_true_eq, beq_iff_eq] at here
    refine .inl ⟨chunk.offset + trailingZeros word, by simp [firstHit, marked, clear], by omega,
      ?_, ?_⟩
    · intro i below
      by_cases early : i < chunk.offset
      · exact before i early
      · have miss := passed (i - chunk.offset) (Nat.zero_le _) (by
          show _ < trailingZeros word
          omega)
        rw [marks, decide_eq_true (by omega), Bool.true_and,
          Nat.add_sub_cancel' (Nat.le_of_not_lt early)] at miss
        exact eq_not_of_miss miss
    · exact fun _ => here.2

theorem seek_first_hit {m : μ} {p : Cursor w} {n stop offset : Nat} {value : Bool}
    (held : Holds m p n) (within : stop ≤ n) (started : offset ≤ stop)
    (before : ∀ i < offset, bitsAt m p i = !value) :
    (∃ found, p.seekFrom stop (firstHit m p value) offset = some (some found) ∧
        First (bitsAt m p) value n found) ∨
      (p.seekFrom stop (firstHit m p value) offset = some none ∧
        ∀ i < stop, bitsAt m p i = !value) :=
  p.seekFrom_spec (fun k => ∀ i < k, bitsAt m p i = !value) _
    (fun _ fits missed => first_hit_chunk value (fits.mono within) held missed) started before

theorem mark_chunk {m : μ} {p : Cursor w} {n : Nat} {chunk : Chunk} {marks : BitVec w}
    (value : Bool) (fits : Fits p n chunk) (held : Holds m p n)
    (missed : marks = 0#w → ∀ i < chunk.offset, bitsAt m p i = !value) :
    ∃ next, (do return marks ||| (← hits m p value chunk)) = some next ∧
      (next = 0#w → ∀ i < chunk.offset + chunk.width, bitsAt m p i = !value) := by
  obtain ⟨word, marked, places⟩ := hits_eq value fits held
  refine ⟨marks ||| word, by simp [marked], fun clear => ?_⟩
  obtain ⟨earlier, here⟩ := BitVec.or_eq_zero_iff.mp clear
  subst here
  exact forall_chunk (missed earlier) (miss_chunk places)

theorem lane_hit_spec {m : μ} {p : Cursor w} {n offset : Nat} (value : Bool)
    (held : Holds m p n) (within : offset + lane * w ≤ n)
    (before : ∀ i < offset, bitsAt m p i = !value) :
    ∃ hit, laneHit m p value offset = some hit ∧
      (hit = false → ∀ i < offset + lane * w, bitsAt m p i = !value) := by
  obtain ⟨marks, swept, missed⟩ := p.sweepFrom_spec
    (fun k (marks : BitVec w) => marks = 0#w → ∀ i < k, bitsAt m p i = !value)
    (fun _ _ fits missed => mark_chunk value (fits.mono within) held missed)
    (Nat.le_add_right offset (lane * w)) (fun _ => before)
  refine ⟨marks != 0#w, by rw [laneHit, swept]; rfl, fun clear => missed ?_⟩
  exact bne_eq_false_iff_eq.mp clear

theorem pass_lanes_spec {m : μ} {p : Cursor w} {n offset : Nat} (value : Bool)
    (held : Holds m p n) (within : offset ≤ n) (before : ∀ i < offset, bitsAt m p i = !value) :
    ∃ reached, passLanes m p n value offset = some reached ∧ reached ≤ n ∧
      ∀ i < reached, bitsAt m p i = !value := by
  fun_induction passLanes m p n value offset with
  | case1 offset positive room ih =>
      obtain ⟨hit, looked, missed⟩ := lane_hit_spec value held room before
      cases hit with
      | true => exact ⟨offset, by simp [looked], within, before⟩
      | false =>
          obtain ⟨reached, passed, rest⟩ := ih room (missed rfl)
          exact ⟨reached, by simp [looked, passed], rest⟩
  | case2 offset positive short => exact ⟨offset, rfl, within, before⟩

omit [Memory μ w] in
theorem Cursor.head_le (p : Cursor w) (n : Nat) : p.head n ≤ n := by
  rw [head]
  split
  · exact Nat.zero_le n
  · exact Nat.le_trans (Nat.min_le_left ..) (Nat.sub_le n 0)

theorem find_spec (m : μ) (p : Cursor w) (n : Nat) (value : Bool) (held : Holds m p n) :
    ∃ found, find m p n value = some found ∧ First (bitsAt m p) value n found := by
  have within := p.head_le n
  have none_before (i : Nat) (below : i < 0) : bitsAt m p i = !value :=
    absurd below (Nat.not_lt_zero i)
  rcases seek_first_hit held within (Nat.zero_le (p.head n)) none_before with
    ⟨found, sought, first⟩ | ⟨sought, missed⟩
  · exact ⟨found, by simp [find, sought], first⟩
  · obtain ⟨reached, passed, inside, missed⟩ := pass_lanes_spec value held within missed
    rcases seek_first_hit held (Nat.le_refl n) inside missed with
      ⟨found, last, first⟩ | ⟨last, none⟩
    · exact ⟨found, by simp [find, sought, passed, last], first⟩
    · exact ⟨n, by simp [find, sought, passed, last], Nat.le_refl n, none,
        fun below => absurd below (Nat.lt_irrefl n)⟩

omit [Memory μ w] in
theorem highestSet_spec {word : BitVec w} (nonzero : word ≠ 0#w) :
    word.getLsbD (w - 1 - leadingZeros word) = true ∧
      ∀ i, w - 1 - leadingZeros word < i → word.getLsbD i = false := by
  have positive : word.toNat ≠ 0 := fun zero => nonzero (BitVec.toNat_inj.mp (by simpa using zero))
  have wide := (Nat.log2_lt positive).mpr word.isLt
  have place : w - 1 - leadingZeros word = word.toNat.log2 := by
    rw [leadingZeros, if_neg nonzero]
    omega
  rw [place]
  refine ⟨Nat.testBit_log2 positive, fun i above => Nat.testBit_lt_two_pow ?_⟩
  exact (Nat.log2_lt positive).mp above

theorem findLast_chunk {m : μ} {p : Cursor w} {n : Nat} {chunk : Chunk} (value : Bool)
    (fits : Fits p n chunk) (held : Holds m p n)
    (behind : ∀ i, chunk.offset + chunk.width ≤ i → i < n → bitsAt m p i = !value) :
    (∃ found, (do
        let word ← hits m p value chunk
        return if word = 0#w then none else some (chunk.offset + (w - 1 - leadingZeros word))) =
          some (some found) ∧ Last (bitsAt m p) value n found) ∨
      ((do
        let word ← hits m p value chunk
        return if word = 0#w then none else some (chunk.offset + (w - 1 - leadingZeros word))) =
          some none ∧ ∀ i, chunk.offset ≤ i → i < n → bitsAt m p i = !value) := by
  obtain ⟨word, marked, marks⟩ := hits_eq value fits held
  have inside := fits.inside
  by_cases clear : word = 0#w
  · subst clear
    refine .inr ⟨by simp [marked], fun i above below => ?_⟩
    by_cases late : chunk.offset + chunk.width ≤ i
    · exact behind i late below
    · have miss := miss_chunk marks (i - chunk.offset) (by omega)
      rwa [Nat.add_sub_cancel' above] at miss
  · obtain ⟨here, above⟩ := highestSet_spec clear
    rw [marks, Bool.and_eq_true, decide_eq_true_eq, beq_iff_eq] at here
    refine .inl ⟨chunk.offset + (w - 1 - leadingZeros word), by simp [marked, clear], by omega,
      fun _ => here.2, fun i after below => ?_, fun none => by omega⟩
    by_cases late : chunk.offset + chunk.width ≤ i
    · exact behind i late below
    · have miss := above (i - chunk.offset) (by omega)
      rw [marks, decide_eq_true (by omega), Bool.true_and, Nat.add_sub_cancel' (by omega)] at miss
      exact eq_not_of_miss miss

theorem findLast_spec (m : μ) (p : Cursor w) (n : Nat) (value : Bool) (held : Holds m p n) :
    ∃ found, findLast m p n value = some found ∧ Last (bitsAt m p) value n found := by
  rcases p.seekBack_spec (fun k => ∀ i, k ≤ i → i < n → bitsAt m p i = !value) _
    (fun chunk fits behind => findLast_chunk value fits held behind) (Nat.le_refl n)
    (fun i above below => by omega) with ⟨found, sought, last⟩ | ⟨sought, none⟩
  · exact ⟨found, by rw [findLast, sought]; rfl, last⟩
  · exact ⟨n, by rw [findLast, sought]; rfl, Nat.le_refl n,
      fun below => absurd below (Nat.lt_irrefl n), fun i _ below => none i (Nat.zero_le i) below,
      fun _ i below => none i (Nat.zero_le i) below⟩

end PackedBits
