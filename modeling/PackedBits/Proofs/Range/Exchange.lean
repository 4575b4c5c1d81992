import PackedBits.Range.Reverse
import PackedBits.Proofs.Range.Scan

/-! What exchanging and reversing do, bit for bit. Each of them overwrites parts of a run one after
the other, so what has become of the run is told as a function of the place in it, part by part. -/
namespace PackedBits
variable {μ : Type} {w : Nat} [Memory μ w]

theorem Holds.bit_covered {m : μ} {p : Cursor w} {n buffer : Nat} {position : Int}
    (held : Holds m p n) (covered : p.Covers n buffer position) :
    bit? m buffer position = some (bitsAt m p (position - p.position).toNat) := by
  obtain ⟨rfl, low, high⟩ := covered
  have here := held (position - p.position).toNat (by omega)
  have place : p.position + ((position - p.position).toNat : Int) = position := by omega
  rw [place] at here
  obtain ⟨bit, found⟩ := Option.isSome_iff_exists.mp here
  rw [bitsAt, place, found, Option.getD_some]

namespace Overwritten
variable {m m₁ m₂ : μ} {p : Cursor w} {n offset k : Nat} {first second : Nat → Bool}

theorem bitsAt (written : Overwritten m m₁ p n first) {i : Nat} (below : i < n) :
    bitsAt m₁ p i = first i := by
  rw [PackedBits.bitsAt, written, if_pos ⟨rfl, by omega, by omega⟩, Option.getD_some]
  congr 1
  omega

theorem self (held : Holds m p n) : Overwritten m m p n (PackedBits.bitsAt m p) := by
  intro buffer position
  by_cases covered : p.Covers n buffer position
  · rw [if_pos covered, held.bit_covered covered]
  · rw [if_neg covered]

theorem part (whole : Overwritten m m₁ p n first)
    (here : Overwritten m₁ m₂ (p + offset) k second) (within : offset + k ≤ n) :
    Overwritten m m₂ p n fun i =>
      if offset ≤ i ∧ i < offset + k then second (i - offset) else first i := by
  intro buffer position
  rw [here, whole]
  simp only [Cursor.Covers, Cursor.buffer_forward, Cursor.position_forward]
  by_cases inside : buffer = p.buffer ∧ p.position + offset ≤ position ∧
      position < p.position + offset + k
  · rw [if_pos inside, if_pos ⟨inside.1, by omega, by omega⟩, if_pos (by omega)]
    rw [show (position - (p.position + offset)).toNat = (position - p.position).toNat - offset by
      omega]
  · rw [if_neg inside]
    by_cases covered : buffer = p.buffer ∧ p.position ≤ position ∧ position < p.position + n
    · rw [if_pos covered, if_pos covered, if_neg fun both => inside ⟨covered.1, by omega⟩]
    · rw [if_neg covered, if_neg covered]

end Overwritten

def Apart (p q : Cursor w) (n : Nat) : Prop :=
  p.buffer ≠ q.buffer ∨ p.position + n ≤ q.position ∨ q.position + n ≤ p.position

theorem Apart.excludes {p q : Cursor w} {n buffer : Nat} {position : Int} (apart : Apart p q n)
    (inP : p.Covers n buffer position) : ¬ q.Covers n buffer position := by
  obtain ⟨here, low, high⟩ := inP
  rintro ⟨there, low', high'⟩
  rcases apart with buffers | order | order
  · exact buffers (here.symm.trans there)
  · omega
  · omega

/-- Two runs have each other's bits, and nothing else has changed. -/
def Exchanged (m m' : μ) (p q : Cursor w) (n : Nat) : Prop :=
  ∀ buffer position, bit? m' buffer position =
    if p.Covers n buffer position then some (bitsAt m q (position - p.position).toNat)
    else if q.Covers n buffer position then some (bitsAt m p (position - q.position).toNat)
    else bit? m buffer position

namespace Exchanged
variable {m m₁ m₂ m₃ : μ} {p q : Cursor w} {n offset k : Nat}

theorem nil (m : μ) (p q : Cursor w) : Exchanged m m p q 0 := by
  intro buffer position
  rw [if_neg, if_neg] <;> rintro ⟨-, low, high⟩ <;> omega

theorem altered (exchanged : Exchanged m m₁ p q n) (heldP : Holds m p n) (heldQ : Holds m q n) :
    Altered m m₁ fun buffer position => p.Covers n buffer position ∨ q.Covers n buffer position where
  held buffer position := by
    rw [exchanged]
    split
    case isTrue covered => rw [heldP.bit_covered covered, Option.isSome_some, Option.isSome_some]
    case isFalse =>
      split
      case isTrue covered => rw [heldQ.bit_covered covered, Option.isSome_some, Option.isSome_some]
      case isFalse => rfl
  kept buffer position outside := by
    rw [exchanged, if_neg fun first => outside (.inl first), if_neg fun second =>
      outside (.inr second)]

theorem first (exchanged : Exchanged m m₁ p q n) {i : Nat} (below : i < n) :
    bit? m₁ p.buffer (p.position + i) = some (PackedBits.bitsAt m q i) := by
  rw [exchanged, if_pos ⟨rfl, by omega, by omega⟩,
    show (p.position + i - p.position).toNat = i by omega]

theorem second (apart : Apart p q n) (exchanged : Exchanged m m₁ p q n) {i : Nat} (below : i < n) :
    bit? m₁ q.buffer (q.position + i) = some (PackedBits.bitsAt m p i) := by
  have inside : q.Covers n q.buffer (q.position + i) := ⟨rfl, by omega, by omega⟩
  have outside : ¬ p.Covers n q.buffer (q.position + i) := fun inP => apart.excludes inP inside
  rw [exchanged, if_neg outside, if_pos inside,
    show (q.position + i - q.position).toNat = i by omega]

theorem append (apart : Apart p q n) (within : offset + k ≤ n) (lower : Exchanged m m₁ p q offset)
    (upper : Overwritten m₁ m₂ (p + offset) k fun i => bitsAt m q (offset + i))
    (upper' : Overwritten m₂ m₃ (q + offset) k fun i => bitsAt m p (offset + i)) :
    Exchanged m m₃ p q (offset + k) := by
  intro buffer position
  rw [upper', upper, lower]
  simp only [Cursor.Covers, Cursor.buffer_forward, Cursor.position_forward]
  by_cases inP : buffer = p.buffer ∧ p.position ≤ position ∧ position < p.position + (offset + k : Nat)
  · have outQ : ¬ (buffer = q.buffer ∧ q.position + offset ≤ position ∧
        position < q.position + offset + k) := fun inQ =>
      apart.excludes ⟨inP.1, inP.2.1, by omega⟩ ⟨inQ.1, by omega, by omega⟩
    rw [if_pos inP, if_neg outQ]
    by_cases early : position < p.position + offset
    · rw [if_neg (by omega), if_pos ⟨inP.1, by omega, early⟩]
    · rw [if_pos ⟨inP.1, by omega, by omega⟩]
      rw [show offset + (position - (p.position + offset)).toNat = (position - p.position).toNat by
        omega]
  · rw [if_neg inP, if_neg (fun both => inP ⟨both.1, by omega⟩ :
      ¬ (buffer = p.buffer ∧ p.position + offset ≤ position ∧ position < p.position + offset + k)),
      if_neg (fun both => inP ⟨both.1, by omega⟩ :
        ¬ (buffer = p.buffer ∧ p.position ≤ position ∧ position < p.position + offset))]
    by_cases inQ : buffer = q.buffer ∧ q.position ≤ position ∧
        position < q.position + (offset + k : Nat)
    · rw [if_pos inQ]
      by_cases early : position < q.position + offset
      · rw [if_neg (by omega), if_pos ⟨inQ.1, by omega, early⟩]
      · rw [if_pos ⟨inQ.1, by omega, by omega⟩]
        rw [show offset + (position - (q.position + offset)).toNat =
          (position - q.position).toNat by omega]
    · rw [if_neg inQ, if_neg fun both => inQ ⟨both.1, by omega⟩,
        if_neg fun both => inQ ⟨both.1, by omega⟩]

theorem bitsAt_above (apart : Apart p q n) (exchanged : Exchanged m m₁ p q offset) {i : Nat}
    (above : offset ≤ i) (below : i < n) :
    PackedBits.bitsAt m₁ p i = PackedBits.bitsAt m p i ∧
      PackedBits.bitsAt m₁ q i = PackedBits.bitsAt m q i := by
  constructor <;> rw [PackedBits.bitsAt, exchanged, if_neg, if_neg, PackedBits.bitsAt]
  · rintro ⟨there, low, high⟩
    exact apart.excludes ⟨rfl, by omega, by omega⟩ ⟨there, low, by omega⟩
  · rintro ⟨-, low, high⟩
    omega
  · rintro ⟨-, low, high⟩
    omega
  · rintro ⟨there, low, high⟩
    exact apart.excludes ⟨there, low, by omega⟩ ⟨rfl, by omega, by omega⟩

end Exchanged

/-- The `k` bits of two runs from `offset` on have changed places, those of the first written
first. -/
def Traded (p q : Cursor w) (offset k : Nat) (m m' : μ) : Prop :=
  ∃ m₁, Overwritten m m₁ (p + offset) k (fun i => bitsAt m q (offset + i)) ∧
    Overwritten m₁ m' (q + offset) k fun i => bitsAt m p (offset + i)

section
variable {p q : Cursor w} {n : Nat} {m m' : μ}

theorem Traded.altered {offset k : Nat} (traded : Traded p q offset k m m')
    (movable : Movable p q n m) (within : offset + k ≤ n) :
    Altered m m' fun buffer position =>
      p.Covers n buffer position ∨ q.Covers n buffer position := by
  obtain ⟨m₁, first, second⟩ := traded
  have changed := first.altered (movable.1.part within)
  have changed' := second.altered (changed.holds (movable.2.part within))
  exact (changed.mono fun _ _ covered => .inl (Cursor.covers_part within covered)).trans
    (changed'.mono fun _ _ covered => .inr (Cursor.covers_part within covered))

theorem Traded.progress (movable : Movable p q n m) :
    Progress (Movable p q n) (Traded p q) n fun _ m₁ => Altered m m₁ fun buffer position =>
      p.Covers n buffer position ∨ q.Covers n buffer position where
  ready _ before := movable.altered before
  advance within before step := before.trans (step.altered (movable.altered before) within)

theorem Exchanged.progress (movable : Movable p q n m) (apart : Apart p q n) :
    Progress (Movable p q n) (Traded p q) n fun offset m₁ => Exchanged m m₁ p q offset where
  ready within before :=
    movable.altered (before.altered (movable.1.lower within) (movable.2.lower within))
  advance {offset k m₁ m₂} within before step := by
    obtain ⟨m', first, second⟩ := step
    have old (i : Nat) (below : i < k) :=
      before.bitsAt_above apart (Nat.le_add_right offset i) (show offset + i < n by omega)
    exact before.append apart within (first.congr fun i below => (old i below).2)
      (second.congr fun i below => (old i below).1)

variable [LawfulMemory μ w]

/-- Two words that are stored with the bits under a mask exchanged. They may be one word. -/
theorem Masked.traded {chunk : Chunk} {index : Nat} {mask a b a' b' : BitVec w}
    (masked : Masked p n chunk index mask) (same : p.bit = q.bit) (movable : Movable p q n m)
    (loadedA : Memory.load m (p.wordAddress index) = some a)
    (loadedB : Memory.load m (q.wordAddress index) = some b)
    (bitsA : ∀ i < w, a'.getLsbD i = if mask.getLsbD i then b.getLsbD i else a.getLsbD i)
    (bitsB : ∀ i < w, b'.getLsbD i = if mask.getLsbD i then a.getLsbD i else b.getLsbD i) :
    ∃ m₁ m', Memory.store m (p.wordAddress index) a' = some m₁ ∧
      Memory.store m₁ (q.wordAddress index) b' = some m' ∧
      Traded p q chunk.offset chunk.width m m' := by
  obtain ⟨a₀, foundA, placesA⟩ := masked.loaded rfl movable.1
  obtain rfl : a₀ = a := Option.some.inj (foundA.symm.trans loadedA)
  obtain ⟨b₀, foundB, placesB⟩ := masked.loaded same.symm movable.2
  obtain rfl : b₀ = b := Option.some.inj (foundB.symm.trans loadedB)
  obtain ⟨m₁, storedA, becameA⟩ := masked.store (bitsAt m q) rfl loadedA
    (fun i below clear => by rw [bitsA i below, clear, if_neg Bool.false_ne_true])
    fun i below => by
      rw [bitsA _ (masked.inWord below), if_pos (masked.selected below), placesB i below]
  -- Outside of the mask the second word is as it was, also where it is the first one.
  have kept : ∃ b₁, Memory.load m₁ (q.wordAddress index) = some b₁ ∧
      ∀ i < w, mask.getLsbD i = false → b₁.getLsbD i = b₀.getLsbD i := by
    rw [LawfulMemory.load_store storedA]
    by_cases one : q.wordAddress index = p.wordAddress index
    · rw [one, loadedA] at loadedB
      obtain rfl : a₀ = b₀ := Option.some.inj loadedB
      refine ⟨a', if_pos one, fun i below clear => ?_⟩
      rw [bitsA i below, clear, if_neg Bool.false_ne_true]
    · exact ⟨b₀, by rw [if_neg one, loadedB], fun i _ _ => rfl⟩
  obtain ⟨b₁, loaded, outside⟩ := kept
  obtain ⟨m', storedB, becameB⟩ := masked.store (bitsAt m p) same.symm loaded
    (fun i below clear => by
      rw [bitsB i below, clear, if_neg Bool.false_ne_true, outside i below clear])
    fun i below => by
      rw [bitsB _ (masked.inWord below), if_pos (masked.selected below), placesA i below]
  exact ⟨m₁, m', storedA, storedB, m₁, becameA, becameB⟩

omit [Memory μ w] [LawfulMemory μ w] in
theorem getLsbD_exchanged (a b mask : BitVec w) {i : Nat} (below : i < w) :
    ((a &&& ~~~mask) ||| (b &&& mask)).getLsbD i =
      if mask.getLsbD i then b.getLsbD i else a.getLsbD i := by
  rw [BitVec.getLsbD_or, BitVec.getLsbD_and, BitVec.getLsbD_and, BitVec.getLsbD_not,
    decide_eq_true below, Bool.true_and]
  cases mask.getLsbD i <;> simp

theorem swapMasked_traded {chunk : Chunk} {index : Nat} {mask : BitVec w}
    (masked : Masked p n chunk index mask) (same : p.bit = q.bit) (movable : Movable p q n m) :
    ∃ m', swapMasked p q m index mask = some m' ∧ Traded p q chunk.offset chunk.width m m' := by
  obtain ⟨a, loadedA, -⟩ := masked.loaded rfl movable.1
  obtain ⟨b, loadedB, -⟩ := masked.loaded same.symm movable.2
  obtain ⟨m₁, m', storedA, storedB, traded⟩ := masked.traded same movable loadedA loadedB
    (fun i below => getLsbD_exchanged a b mask below)
    fun i below => getLsbD_exchanged b a mask below
  refine ⟨m', ?_, traded⟩
  simp only [swapMasked, loadedA, loadedB, storedA, storedB, Option.bind_eq_bind, Option.bind_some]

theorem swapWord_traded {offset count i : Nat} (whole : Whole p n offset count) (below : i < count)
    (same : p.bit = q.bit) (movable : Movable p q n m) :
    ∃ m', swapWord p q m ((p.bit + offset) / w + i) = some m' ∧
      Traded p q (offset + i * w) w m m' := by
  have masked := whole.masked below
  obtain ⟨a, loadedA, -⟩ := masked.loaded rfl movable.1
  obtain ⟨b, loadedB, -⟩ := masked.loaded same.symm movable.2
  have all (x y : BitVec w) (j : Nat) (inWord : j < w) : x.getLsbD j =
      if (BitVec.allOnes w).getLsbD j then x.getLsbD j else y.getLsbD j := by
    rw [BitVec.getLsbD_allOnes, decide_eq_true inWord, if_pos rfl]
  obtain ⟨m₁, m', storedA, storedB, traded⟩ :=
    masked.traded same movable loadedA loadedB (all b a) (all a b)
  refine ⟨m', ?_, traded⟩
  simp only [swapWord, loadedA, loadedB, storedA, storedB, Option.bind_eq_bind, Option.bind_some]

theorem swapChunk_traded {r : Cursor w} {chunk : Chunk} (fits : Fits r n chunk)
    (movable : Movable p q n m) :
    ∃ m', swapChunk p q m chunk = some m' ∧ Traded p q chunk.offset chunk.width m m' := by
  obtain ⟨a, readA, bitsA⟩ := readBits_chunk fits movable.1
  obtain ⟨b, readB, bitsB⟩ := readBits_chunk fits movable.2
  obtain ⟨m₁, writtenA, becameA⟩ := writeBits_chunk fits movable.1 b (bitsAt m q) fun i below => by
    rw [bitsB, decide_eq_true below, Bool.true_and]
  have held := (becameA.altered (movable.1.part fits.inside)).holds movable.2
  obtain ⟨m', writtenB, becameB⟩ := writeBits_chunk fits held a (bitsAt m p) fun i below => by
    rw [bitsA, decide_eq_true below, Bool.true_and]
  refine ⟨m', ?_, m₁, becameA, becameB⟩
  simp only [swapChunk, readA, readB, writtenA, writtenB, Option.bind_eq_bind, Option.bind_some]

/-- Both paths of an exchange carry on what every step of it does. -/
theorem Progress.swapRanges {holds : Nat → μ → Prop}
    (progress : Progress (Movable p q n) (Traded p q) n holds) (before : holds 0 m) :
    ∃ m', swapRanges m p n q = some (m', q + n) ∧ holds n m' := by
  by_cases none : n = 0
  · subst none
    exact ⟨m, by rw [PackedBits.swapRanges, if_pos rfl, Cursor.forward_zero], before⟩
  have swapped : ∃ m', (if p.bit = q.bit then swapAligned m p n q else swapUnaligned m p n q) =
      some m' ∧ holds n m' := by
    by_cases same : p.bit = q.bit
    · rw [if_pos same]
      refine progress.maskedRun (fun masked movable => swapMasked_traded masked same movable)
        (fun whole here => ?_) (Nat.pos_of_ne_zero none) before
      exact progress.eachIndex whole (fun below movable => swapWord_traded whole below same movable)
        here
    · rw [if_neg same]
      refine progress.chunkedRun (fun fits movable => swapChunk_traded fits movable)
        (fun whole here => ?_) before
      refine progress.eachIndex whole (fun below movable => ?_) here
      rw [Nat.zero_add]
      exact swapChunk_traded (whole.fits below) movable
  obtain ⟨m', ran, after⟩ := swapped
  exact ⟨m', by rw [PackedBits.swapRanges, if_neg none, ran]; rfl, after⟩

theorem swap_ranges_exchanged (m : μ) (p : Cursor w) (n : Nat) (q : Cursor w)
    (heldP : Holds m p n) (heldQ : Holds m q n) (apart : Apart p q n) :
    ∃ m', swapRanges m p n q = some (m', q + n) ∧ Exchanged m m' p q n :=
  (Exchanged.progress ⟨heldP, heldQ⟩ apart).swapRanges (.nil m p q)

end

omit [Memory μ w] in
theorem getLsbD_reverseLow (word : BitVec w) {n : Nat} (small : n ≤ w) (i : Nat) :
    (reverseLow word n).getLsbD i = (decide (i < n) && word.getLsbD (n - 1 - i)) := by
  rw [reverseLow, BitVec.getLsbD_ushiftRight, BitVec.getLsbD_reverse, BitVec.getMsbD]
  by_cases below : i < n
  · rw [show w - 1 - (w - n + i) = n - 1 - i by omega]
    simp [below, show w - n + i < w by omega]
  · simp [below, show ¬ w - n + i < w by omega]

section
variable [LawfulMemory μ w]

def reversedEnds (m : μ) (p : Cursor w) (n offset i : Nat) : Bool :=
  if i < offset ∨ n - offset ≤ i then bitsAt m p (n - 1 - i) else bitsAt m p i

omit [LawfulMemory μ w] in
theorem readBits_between {m m₁ : μ} {p : Cursor w} {n offset place k : Nat} (held : Holds m₁ p n)
    (before : Overwritten m m₁ p n (reversedEnds m p n offset)) (nonempty : 0 < k) (small : k ≤ w)
    (above : offset ≤ place) (below : place + k ≤ n - offset) :
    ∃ word, readBits m₁ (p + place) k = some word ∧
      ∀ i < k, word.getLsbD i = bitsAt m p (place + i) := by
  obtain ⟨word, read, bits⟩ := readBits_eq m₁ (p + place) k nonempty small (held.part (by omega))
  refine ⟨word, read, fun i inside => ?_⟩
  have bit := bits i
  rw [decide_eq_true inside, Bool.true_and] at bit
  have same : bitsAt m₁ (p + place) i = bitsAt m p (place + i) := by
    rw [bitsAt_forward, before.bitsAt (by omega)]
    exact if_neg (by omega)
  exact bit.trans same

/-- A chunk from below and the one as far from the other end change places, each turned around. -/
theorem reverse_chunk_overwritten {m m₁ : μ} {p : Cursor w} {n : Nat} {chunk : Chunk}
    (fits : Fits p.flush (n / 2) chunk) (held : Holds m p n)
    (before : Overwritten m m₁ p n (reversedEnds m p n chunk.offset)) :
    ∃ m₃, (do
        let low := p + chunk.offset
        let high := p + (n - chunk.offset - chunk.width)
        let a ← readBits m₁ low chunk.width
        let b ← readBits m₁ high chunk.width
        let m₂ ← writeBits m₁ low chunk.width (reverseLow b chunk.width)
        writeBits m₂ high chunk.width (reverseLow a chunk.width)) = some m₃ ∧
      Overwritten m m₃ p n (reversedEnds m p n (chunk.offset + chunk.width)) := by
  have inside := fits.inside
  have nonempty := fits.nonempty
  have small := fits.small
  have low : chunk.offset + chunk.width ≤ n := by omega
  have high : n - chunk.offset - chunk.width + chunk.width ≤ n := by omega
  have held₁ := (before.altered held).holds held
  obtain ⟨a, readA, bitsA⟩ := readBits_between held₁ before nonempty small
    (Nat.le_refl chunk.offset) (by omega)
  obtain ⟨b, readB, bitsB⟩ := readBits_between held₁ before nonempty small
    (show chunk.offset ≤ n - chunk.offset - chunk.width by omega) (by omega)
  obtain ⟨m₂, writtenLow, becameLow⟩ := writeBits_overwritten m₁ (p + chunk.offset) chunk.width
    (reverseLow b chunk.width) nonempty small (held₁.part low)
  have held₂ := (becameLow.altered (held₁.part low)).holds held₁
  obtain ⟨m₃, writtenHigh, becameHigh⟩ := writeBits_overwritten m₂
    (p + (n - chunk.offset - chunk.width)) chunk.width (reverseLow a chunk.width) nonempty small
    (held₂.part high)
  refine ⟨m₃, by simp [readA, readB, writtenLow, writtenHigh], ?_⟩
  -- A place is in the upper chunk, in the lower one, in an end reversed before, or between them.
  refine ((before.part becameLow low).part becameHigh high).congr fun i below => ?_
  simp only [reversedEnds, getLsbD_reverseLow _ small]
  by_cases inHigh : n - chunk.offset - chunk.width ≤ i ∧ i < n - chunk.offset
  · rw [if_pos (by omega), if_pos (by omega), bitsA _ (by omega), decide_eq_true (by omega),
      Bool.true_and]
    congr 1
    omega
  · rw [if_neg (by omega)]
    by_cases inLow : chunk.offset ≤ i ∧ i < chunk.offset + chunk.width
    · rw [if_pos inLow, if_pos (by omega), bitsB _ (by omega), decide_eq_true (by omega),
        Bool.true_and]
      congr 1
      omega
    · rw [if_neg inLow]
      by_cases outer : i < chunk.offset ∨ n - chunk.offset ≤ i
      · rw [if_pos outer, if_pos (by omega)]
      · rw [if_neg outer, if_neg (by omega)]

theorem reverse_overwritten (m : μ) (p : Cursor w) (n : Nat) (held : Holds m p n) :
    ∃ m', reverse m p n = some m' ∧ Overwritten m m' p n fun i => bitsAt m p (n - 1 - i) := by
  obtain ⟨m', swept, became⟩ := p.flush.sweep_spec
    (fun offset m₁ => Overwritten m m₁ p n (reversedEnds m p n offset))
    (fun _ _ fits before => reverse_chunk_overwritten fits held before)
    ((Overwritten.self held).congr fun i below => (if_neg (by omega)).symm)
  refine ⟨m', swept, became.congr fun i below => ?_⟩
  by_cases moved : i < n / 2 ∨ n - n / 2 ≤ i
  · exact if_pos moved
  · -- The bit in the middle of an odd number stays where it is.
    rw [show n - 1 - i = i by omega]
    exact if_neg moved

end

end PackedBits
