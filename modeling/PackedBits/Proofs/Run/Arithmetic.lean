import PackedBits.Proofs.Size
import PackedBits.Proofs.Storage.Growth

/-! The arithmetic of storages on a machine. Whatever has been done and whatever is asked next, the
sums, products and rounded quotients of a storage are sizes, so a machine reckons them as they are,
and the fields that a length or a capacity is packed into are wide enough for it. What carries this
is that a capacity stays a size, and that only a length within the limit makes it grow. -/
namespace PackedBits

namespace Storage
section
variable {S : Type} {w : Nat} [Storage S w] [StorageSpec S w]

/-- The words of the blocks that a storage may ask for next: to hold a length that has passed its
capacity, to hold no more than its length, and to hold a copy. -/
inductive Asks (s : S) : Nat → Prop where
  | grow {bits : Nat} : bits ≤ maxBits S → capacity s < bits →
      Asks s (StorageSpec.blockWords S (wordsFor w bits) (heldWords s))
  | shrink : Asks s (wordsFor w (len s) + StorageSpec.header S)
  | copy : Asks s (max (wordsFor w (len s)) minBlockWords + StorageSpec.header S)

def sizedCapacity (s : S) : Size :=
  if onHeap s then Size.of (heldWords s) * Size.of w else Size.of (capacity s)

/-- Makes room as the machine does, by moving to a block of the size it has reckoned. -/
def reserveSized (move : Nat → Attempt (Holding S) Unit) (bits : Size) :
    Attempt (Holding S) Unit := do
  checkBits bits.toNat (maxBits S)
  let s := (← get).storage
  if sizedCapacity s < bits then
    move (Size.grown (Size.divCeil bits (Size.of w)) (Size.of (heldWords s))).toNat

/-- What the machine reckons for a storage, and for what may be asked of it, is exact. -/
structure Exact (s : S) : Prop where
  capacity : (sizedCapacity s).toNat = capacity s
  block {grant : Grant} : StorageSpec.block s = some grant →
    (Size.of (heldWords s) + Size.of (StorageSpec.header S)).toNat = grant.words
  /-- One bit more. -/
  next : (Size.of (len s) + 1#64).toNat = len s + 1
  /-- `n` bits more, whether or not that is a size. -/
  sum {n : Nat} : n ≤ maxSize → Size.grownLen (Size.of (len s)) (Size.of n) (maxBits S) =
    (BitVector.grownLen (len s) n (maxBits S) : Attempt (Holding S) Nat)
  /-- The end of `n` bits put in at a position. -/
  place {index n : Nat} : index ≤ len s → len s + n ≤ maxSize →
    (Size.of index + Size.of n).toNat = index + n
  words {bits : Nat} : bits ≤ maxSize →
    (Size.divCeil (Size.of bits) (Size.of w)).toNat = wordsFor w bits
  enough {needed current : Nat} : needed ≤ maxSize → current ≤ maxSize →
    needed ≤ (Size.grown (Size.of needed) (Size.of current)).toNat
  /-- The next block holds the words needed and twice those that there are; nothing is cut off. -/
  grow {bits : Nat} : bits ≤ maxBits S → Storage.capacity s < bits →
    (Size.grown (Size.divCeil (Size.of bits) (Size.of w)) (Size.of (heldWords s))).toNat =
      max (max (wordsFor w bits) (2 * heldWords s)) minBlockWords
  asked {words : Nat} : Asks s words → ∃ room, words = room + StorageSpec.header S ∧
    (Size.of room).toNat = room ∧ (Size.of room + Size.of (StorageSpec.header S)).toNat = words ∧
    (Size.of room * Size.of w).toNat = room * w

/-- A storage with a limit that is a signed size, whose blocks hold whole words behind less than a
word of header and are no larger than growing makes them. -/
structure Measured (S : Type) {w : Nat} [Storage S w] [StorageSpec S w] : Prop where
  narrow : w ≤ 64
  limit : maxBits S ≤ maxSigned
  header : StorageSpec.header S < w
  whole {s : S} : StorageSpec.Sound s → onHeap s = true → w ∣ capacity s
  room (needed current : Nat) : ∃ room ≤ grownCapacity needed current,
    StorageSpec.blockWords S needed current = room + StorageSpec.header S

theorem Measured.sizedCapacity_eq {s : S} (measured : Measured S) (sound : StorageSpec.Sound s)
    (fits : capacity s ≤ maxSize) : (sizedCapacity s).toNat = capacity s := by
  unfold sizedCapacity
  split
  case isTrue heap =>
    have held : heldWords s * w = capacity s := by
      rw [heldWords, if_pos heap, Nat.div_mul_cancel (measured.whole sound heap)]
    rw [Size.mul_exact (Nat.le_trans (Nat.le_of_eq held) fits), held]
  case isFalse => exact Size.toNat_of fits

end

section
variable {w : Nat} [HasBits w]

omit [HasBits w] in
theorem header_fits {room header : Nat} (narrow : w ≤ 64) (less : header < w)
    (fits : room * w ≤ maxSize) : room + header ≤ maxSize := by
  have limit : 64 ≤ maxSize := by decide
  cases room with
  | zero => omega
  | succ room =>
      have first : room ≤ room * w := Nat.le_mul_of_pos_right room (Nat.zero_lt_of_lt less)
      have last : (room + 1) * w = room * w + w := Nat.succ_mul room w
      omega

theorem room_fits {room limit : Nat} (fits : room * w ≤ limit) : room ≤ limit :=
  Nat.le_trans (Nat.le_mul_of_pos_right room width_pos) fits

end

variable {S : Type} {w : Nat} [HasBits w] [Storage S w] [StorageSpec S w] {s : S}

theorem Measured.room_of_asks [LawfulStorage S w] (measured : Measured S)
    (sound : StorageSpec.Sound s) {words : Nat} (asks : Asks s words) :
    ∃ room, words = room + StorageSpec.header S ∧ room * w ≤ maxSize := by
  have limit : maxSize = 2 * maxSigned + 1 := by decide
  have large : 4 * 64 ≤ maxSigned := by decide
  have narrow := measured.narrow
  have small : len s ≤ maxSigned := Nat.le_trans (LawfulStorage.len_le_maxBits sound) measured.limit
  have needed := wordsFor_mul_le (w := w) (len s)
  cases asks with
  | @grow bits within full =>
      obtain ⟨room, less, asked⟩ := measured.room (wordsFor w bits) (heldWords s)
      have passed : heldWords s * w < bits := Nat.lt_of_le_of_lt (heldWords_mul_le s) full
      exact ⟨room, asked, Nat.le_trans (Nat.mul_le_mul_right w less)
        (grownCapacity_fits narrow (Nat.le_trans within measured.limit) passed)⟩
  | shrink => exact ⟨wordsFor w (len s), rfl, by omega⟩
  | copy =>
      have least : minBlockWords * w ≤ 4 * 64 := Nat.mul_le_mul_left 4 narrow
      refine ⟨max (wordsFor w (len s)) minBlockWords, rfl, ?_⟩
      rw [← Nat.mul_max_mul_right]
      omega

theorem Measured.grown_eq (measured : Measured S) {bits : Nat} (small : bits ≤ maxBits S)
    (full : capacity s < bits) :
    (Size.grown (Size.divCeil (Size.of bits) (Size.of w)) (Size.of (heldWords s))).toNat =
      grownCapacity (wordsFor w bits) (heldWords s) := by
  have limit : maxSize = 2 * maxSigned + 1 := by decide
  have signed : bits ≤ maxSigned := Nat.le_trans small measured.limit
  have width : w ≤ maxSize := Nat.le_trans measured.narrow (by decide)
  have words : Size.divCeil (Size.of bits) (Size.of w) = Size.of (wordsFor w bits) := by
    have fits : wordsFor w bits ≤ maxSize := Nat.le_trans (wordsFor_le bits) (by omega)
    refine BitVec.eq_of_toNat_eq ?_
    rw [Size.divCeil_exact width (by omega), Size.toNat_of fits]
  have passed : heldWords s * w ≤ bits :=
    Nat.le_of_lt (Nat.lt_of_le_of_lt (heldWords_mul_le s) full)
  have held : heldWords s ≤ bits := room_fits passed
  rw [words]
  exact Size.grown_exact (Nat.le_trans (wordsFor_le bits) (by omega)) (by omega)

theorem Measured.exact [LawfulStorage S w] (measured : Measured S) (sound : StorageSpec.Sound s)
    (fits : Storage.capacity s ≤ maxSize) : Exact s := by
  have limit : maxSize = 2 * maxSigned + 1 := by decide
  have positive : 1 ≤ maxSigned := by decide
  have width : w ≤ maxSize := Nat.le_trans measured.narrow (by decide)
  have small : len s ≤ maxSigned := Nat.le_trans (LawfulStorage.len_le_maxBits sound) measured.limit
  refine
    { capacity := measured.sizedCapacity_eq sound fits
      next := Size.add_exact (by omega)
      sum := fun size => Size.grownLen_exact (by omega) size _
      place := fun inside size => Size.add_exact (Nat.le_trans (Nat.add_le_add_right inside _) size)
      words := fun size => Size.divCeil_exact width size
      enough := fun needed current => by
        rw [Size.grown_exact needed current]
        exact le_grownCapacity ..
      block := ?_
      grow := ?_
      asked := ?_ }
  · intro grant owned
    have heap : onHeap s = true := by
      rw [LawfulStorage.onHeap sound, owned]
      rfl
    have held : heldWords s = Storage.capacity s / w := if_pos heap
    have room := header_fits measured.narrow measured.header
      (Nat.le_trans (heldWords_mul_le s) fits)
    rw [Size.add_exact room, LawfulStorage.block_words sound owned, held]
  · intro bits within full
    have passed : heldWords s * w < bits := Nat.lt_of_le_of_lt (heldWords_mul_le s) full
    rw [measured.grown_eq within full,
      grownCapacity_eq (Nat.le_trans within measured.limit) passed]
  · intro words asks
    obtain ⟨room, rfl, size⟩ := measured.room_of_asks sound asks
    exact ⟨room, rfl, Size.toNat_of (room_fits size),
      Size.add_exact (header_fits measured.narrow measured.header size), Size.mul_exact size⟩

theorem Measured.reserveSized_eq [LawfulStorage S w] (measured : Measured S)
    (sound : StorageSpec.Sound s) (fits : capacity s ≤ maxSize) {bits : Nat}
    (size : bits ≤ maxSize) {move : Nat → Attempt (Holding S) Unit}
    (grow : S → Attempt (Holding S) Unit)
    (moves : grow s = move (grownCapacity (wordsFor w bits) (heldWords s))) (p : Provider) :
    reserveSized move (Size.of bits) ⟨s, p⟩ =
      (do
        checkBits bits (maxBits S)
        let s := (← get).storage
        if capacity s < bits then grow s : Attempt (Holding S) Unit) ⟨s, p⟩ := by
  have less : sizedCapacity s < Size.of bits ↔ capacity s < bits := by
    rw [BitVec.lt_def, measured.sizedCapacity_eq sound fits, Size.toNat_of size]
  rw [reserveSized, Size.toNat_of size, checkBits]
  by_cases excess : maxBits S < bits
  · rw [if_pos excess]
    rfl
  · rw [if_neg excess]
    show (if sizedCapacity s < Size.of bits then _ else _ : Attempt (Holding S) Unit) ⟨s, p⟩ =
      (if capacity s < bits then _ else _ : Attempt (Holding S) Unit) ⟨s, p⟩
    by_cases full : capacity s < bits
    · rw [if_pos full, if_pos (less.mpr full),
        measured.grown_eq (Nat.le_of_not_lt excess) full, moves]
    · rw [if_neg full, if_neg (mt less.mp full)]

end Storage

structure ControlBlock.Counts (c : ControlBlock) : Prop where
  small : c.inlineLen < 128
  unflagged : c.second.getLsbD 63 = false
  setLen {bits : Nat} : bits ≤ inlineBits →
    (c.setInlineLen bits).inlineLen = bits ∧ (c.setInlineLen bits).onHeap = false

theorem ControlBlock.Inline.counts {c : ControlBlock} (inline : c.Inline) : c.Counts where
  small := Nat.lt_of_le_of_lt inline.room (by decide)
  unflagged := (onHeap_eq c).symm.trans inline.onHeap
  setLen := setInlineLen_count c

namespace Plain
variable {w : Nat} [HasBits w]

theorem measured (narrow : w ≤ 64) : Storage.Measured (Plain w) where
  narrow := narrow
  limit := Nat.le_refl _
  header := width_pos
  whole _ _ := Nat.dvd_mul_left ..
  room _ _ := ⟨_, Nat.le_refl _, rfl⟩

theorem reserve_eq (narrow : w ≤ 64) {s : Plain w} (sound : Sound s)
    (fits : s.capacity * w ≤ maxSize) {bits : Nat} (size : bits ≤ maxSize) (p : Provider) :
    Storage.reserveSized move (Size.of bits) ⟨s, p⟩ = reserve bits ⟨s, p⟩ :=
  (measured narrow).reserveSized_eq sound fits size
    (fun s => move (grownCapacity (wordsFor w bits) s.capacity)) (by rw [heldWords_eq]) p

end Plain

namespace SmallBuffer
variable {s : SmallBuffer}

structure Fields (s : SmallBuffer) : Prop where
  held : Storage.heldWords s = if s.onHeap then s.heapCapacity else 0
  inline : s.onHeap = false → s.control.Counts
  small : s.onHeap = true → s.len < 2 ^ 63
  second : s.onHeap = true → s.control.second = BitVec.ofNat 64 s.len ||| ControlBlock.heapFlag
  setLen {bits : Nat} : s.onHeap = true → bits ≤ maxBits →
    (s.setLen bits).onHeap = true ∧ (s.setLen bits).len = bits ∧
      (s.setLen bits).heapCapacity = s.heapCapacity

theorem measured : Storage.Measured SmallBuffer where
  narrow := Nat.le_refl 64
  limit := by decide
  header := by decide
  whole {s} _ (heap : s.onHeap = true) := by
    show 64 ∣ s.capacity
    rw [capacity, if_pos heap]
    exact Nat.dvd_mul_left ..
  room _ _ := ⟨_, Nat.le_refl _, rfl⟩

theorem setLen_fields {bits : Nat} (mode : s.onHeap = true) (small : bits ≤ maxBits) :
    (s.setLen bits).onHeap = true ∧ (s.setLen bits).len = bits ∧
      (s.setLen bits).heapCapacity = s.heapCapacity := by
  have changed : s.setLen bits = ⟨{ s.control with
      second := BitVec.ofNat 64 bits ||| ControlBlock.heapFlag }⟩ := if_pos mode
  have flagged : (s.setLen bits).onHeap = true := by
    rw [changed]
    exact ControlBlock.onHeap_flagged rfl
  refine ⟨flagged, ?_, by rw [changed]; rfl⟩
  rw [len, if_pos flagged, changed]
  exact ControlBlock.unflagged (Nat.lt_of_le_of_lt small (by decide))

theorem fields (sound : Sound s) : Fields s := by
  have held := heldWords_eq sound
  rcases sound with inline | ⟨address, capacity, bits, heap⟩
  · have absent {fact : Prop} (mode : s.onHeap = true) : fact := absurd mode (inline_mode inline)
    exact ⟨held, fun _ => inline.counts, absent, absent, setLen_fields⟩
  · have small : s.len < 2 ^ 63 := by
      rw [heap.len]
      exact Nat.lt_of_le_of_lt heap.small (by decide)
    exact ⟨held, fun inline => absurd heap.onHeap (ne_true_of_eq_false inline), fun _ => small,
      fun _ => by rw [heap.len, heap.second], setLen_fields⟩

theorem reserve_eq (sound : Sound s) (fits : s.capacity ≤ maxSize) {bits : Nat}
    (size : bits ≤ maxSize) (p : Provider) :
    Storage.reserveSized moveToHeap (Size.of bits) ⟨s, p⟩ = reserve bits ⟨s, p⟩ :=
  measured.reserveSized_eq sound fits size (fun s => moveToHeap
    (grownCapacity (wordsFor 64 bits) (if s.onHeap then s.heapCapacity else 0)))
    (by rw [heldWords_eq sound]) p

end SmallBuffer

namespace Tagged
variable {s : Tagged}

structure Fields (s : Tagged) : Prop where
  held : Storage.heldWords s = if s.onHeap then s.heapCapacity else 0
  inline : s.onHeap = false → s.control.Counts
  few : s.onHeap = true → s.heapCapacity < 2 ^ 32
  small : s.onHeap = true → s.len < 2 ^ 29
  first : s.onHeap = true → s.control.first =
    (BitVec.ofNat 64 s.heapCapacity <<< capacityShift) ||| BitVec.ofNat 64 s.len
  setLen {bits : Nat} : s.onHeap = true → bits ≤ maxBits →
    (s.setLen bits).len = bits ∧ (s.setLen bits).heapCapacity = s.heapCapacity
  asked {words : Nat} : Storage.Asks s words → words < 2 ^ 32 ∧ ∀ address bits live,
    bits ≤ maxBits → (ofBlock address words bits live).len = bits ∧
      (ofBlock address words bits live).heapCapacity = words

theorem measured : Storage.Measured Tagged where
  narrow := Nat.le_refl 64
  limit := by decide
  header := by decide
  whole {s} _ (heap : s.onHeap = true) := by
    show 64 ∣ s.capacity
    rw [capacity, if_pos heap]
    exact Nat.dvd_mul_left ..
  room _ _ := ⟨_, Nat.min_le_left .., rfl⟩

theorem ofBlock_fields (address : Nat) {capacity bits : Nat} (words : Array (BitVec 64))
    (few : capacity < 2 ^ 32) (small : bits ≤ maxBits) :
    (ofBlock address capacity bits words).len = bits ∧
      (ofBlock address capacity bits words).heapCapacity = capacity := by
  have flagged : (ofBlock address capacity bits words).onHeap = true :=
    ControlBlock.onHeap_flagged rfl
  refine ⟨?_, packed_capacity few small⟩
  rw [len, if_pos flagged]
  exact packed_len capacity small

theorem Heap.setLen_fields {address capacity old bits : Nat} (heap : Heap s address capacity old)
    (small : bits ≤ maxBits) :
    (s.setLen bits).len = bits ∧ (s.setLen bits).heapCapacity = s.heapCapacity := by
  have changed : s.setLen bits = ⟨{ s.control with first :=
      (BitVec.ofNat 64 capacity <<< capacityShift) ||| BitVec.ofNat 64 bits }⟩ := by
    rw [setLen, if_pos heap.onHeap, heap.first, relength_first heap.small]
  have mode : (s.setLen bits).onHeap = true := by
    rw [changed]
    exact heap.onHeap
  constructor
  · rw [Tagged.len, if_pos mode, changed]
    exact packed_len capacity small
  · rw [heap.heapCapacity, changed]
    exact packed_capacity heap.count small

theorem asked_fields (sound : Sound s) {words : Nat} (asks : Storage.Asks s words) :
    words < 2 ^ 32 ∧ ∀ address bits live, bits ≤ maxBits →
      (ofBlock address words bits live).len = bits ∧
        (ofBlock address words bits live).heapCapacity = words := by
  have most : wordsFor 64 maxBits < 2 ^ 32 := by decide
  have used : wordsFor 64 s.len ≤ wordsFor 64 maxBits := wordsFor_mono (len_le_maxBits sound)
  have few : words < 2 ^ 32 := by
    cases asks with
    | grow => exact Nat.lt_of_le_of_lt (Nat.min_le_right ..) most
    | shrink => exact Nat.lt_of_le_of_lt used most
    | copy => exact Nat.max_lt.mpr ⟨Nat.lt_of_le_of_lt used most, by decide⟩
  exact ⟨few, fun address _ live => ofBlock_fields address live few⟩

theorem fields (sound : Sound s) : Fields s := by
  have held := heldWords_eq sound
  have asked {words : Nat} (asks : Storage.Asks s words) := asked_fields sound asks
  rcases sound with inline | ⟨address, capacity, bits, heap⟩
  · have absent {fact : Prop} (mode : s.onHeap = true) : fact := absurd mode (inline_mode inline)
    exact ⟨held, fun _ => inline.counts, absent, absent, absent, absent, asked⟩
  · have few : s.heapCapacity < 2 ^ 32 := by
      rw [heap.heapCapacity]
      exact heap.count
    have small : s.len < 2 ^ 29 := by
      rw [heap.len]
      exact Nat.lt_of_le_of_lt heap.small (by decide)
    exact ⟨held, fun inline => absurd heap.onHeap (ne_true_of_eq_false inline), fun _ => few,
      fun _ => small, fun _ => by rw [heap.heapCapacity, heap.len, heap.first],
      fun _ => heap.setLen_fields, asked⟩

/-- Moves to a block of the size that has been reckoned, but of no more than the words that the
greatest length fills. -/
def moveCapped (capacity : Nat) : Attempt (Holding Tagged) Unit :=
  moveToHeap (min capacity (wordsFor 64 maxBits))

theorem reserve_eq (sound : Sound s) (fits : s.capacity ≤ maxSize) {bits : Nat}
    (size : bits ≤ maxSize) (p : Provider) :
    Storage.reserveSized moveCapped (Size.of bits) ⟨s, p⟩ = reserve bits ⟨s, p⟩ :=
  measured.reserveSized_eq sound fits size (fun s => moveCapped
    (grownCapacity (wordsFor 64 bits) (if s.onHeap then s.heapCapacity else 0)))
    (by rw [heldWords_eq sound]) p

end Tagged

namespace Backend

def move : (b : Backend) → Nat → Attempt (Holding b.Carrier) Unit
  | plain _ _ => Plain.move
  | smallBuffer => SmallBuffer.moveToHeap
  | tagged => Tagged.moveCapped

def Fields : (b : Backend) → b.Carrier → Prop
  | plain width _, s => Storage.heldWords (S := Plain width) s = Plain.capacity s
  | smallBuffer, s => SmallBuffer.Fields s
  | tagged, s => Tagged.Fields s

theorem measured (b : Backend) (narrow : b.width ≤ 64) : Storage.Measured b.Carrier := by
  cases b with
  | plain width positive =>
      have : HasBits width := ⟨Nat.ne_of_gt positive⟩
      exact Plain.measured narrow
  | smallBuffer => exact SmallBuffer.measured
  | tagged => exact Tagged.measured

theorem fields (b : Backend) {s : b.Carrier} (sound : StorageSpec.Sound s) : b.Fields s := by
  cases b with
  | plain width positive =>
      have : HasBits width := ⟨Nat.ne_of_gt positive⟩
      exact Plain.heldWords_eq s
  | smallBuffer => exact SmallBuffer.fields sound
  | tagged => exact Tagged.fields sound

theorem reserve_eq (b : Backend) (narrow : b.width ≤ 64) {s : b.Carrier}
    (sound : StorageSpec.Sound s) (fits : Storage.capacity s ≤ maxSize) {bits : Nat}
    (size : bits ≤ maxSize) (p : Provider) :
    Storage.reserveSized b.move (Size.of bits) ⟨s, p⟩ = Storage.reserve bits ⟨s, p⟩ := by
  cases b with
  | plain width positive =>
      have : HasBits width := ⟨Nat.ne_of_gt positive⟩
      exact Plain.reserve_eq narrow sound fits size p
  | smallBuffer => exact SmallBuffer.reserve_eq sound fits size p
  | tagged => exact Tagged.reserve_eq sound fits size p

end Backend

/-- Whatever has been done, and however large the blocks that the provider grants. The words of a
machine are no wider than its sizes. -/
theorem sizes_never_wrap (b : Backend) (narrow : b.width ≤ 64) {policy : Policy}
    (lawful : policy.Lawful) (actions : List (Action b.width)) (name : String) :
    let pool : Pool b.Carrier := (Action.run actions (Action.start policy)).2
    let s := pool.vector name
    Storage.Exact s ∧ b.Fields s ∧ ∀ bits ≤ maxSize, ∀ p,
      Storage.reserveSized b.move (Size.of bits) ⟨s, p⟩ = Storage.reserve bits ⟨s, p⟩ := by
  intro pool s
  have sound : StorageSpec.Sound s :=
    ((Action.reached_sound (S := b.Carrier) lawful actions).holding name).storage
  have fits : Storage.capacity s ≤ maxSize := b.capacity_fits narrow lawful actions name
  exact ⟨(b.measured narrow).exact sound fits, b.fields sound,
    fun bits size p => b.reserve_eq narrow sound fits size p⟩

/-- Five hundred bits behind a header, and the block that a hundred more would take. -/
theorem sizes_never_wrap_behind_header :
    Backend.smallBuffer.width ≤ 64 ∧ (Policy.pages 1).Lawful ∧
    (let actions := [.work .inPlace "a" (.grow (.resize 500 true)) (.vector "a")]
    let pool : Pool Backend.smallBuffer.Carrier :=
      (Action.run actions (Action.start (Policy.pages 1))).2
    let s := pool.vector "a"
    (Storage.sizedCapacity s).toNat = 512 ∧ (Size.of (Storage.len s) + 1#64).toNat = 501 ∧
      (Size.grown (Size.divCeil (Size.of 600) (Size.of 64)) (Size.of (Storage.heldWords s))).toNat =
        16 ∧
      SmallBuffer.len s < 2 ^ 63) := by
  have narrow : Backend.smallBuffer.width ≤ 64 := Nat.le_refl 64
  have lawful : (Policy.pages 1).Lawful := Policy.pages_lawful (by decide)
  refine ⟨narrow, lawful, ?_⟩
  intro actions pool s
  obtain ⟨reckoned, fields, -⟩ := sizes_never_wrap .smallBuffer narrow lawful actions "a"
  have capacity : Storage.capacity s = 512 := by decide +kernel
  have len : Storage.len s = 500 := by decide +kernel
  have held : Storage.heldWords s = 8 := by decide +kernel
  have heap : Storage.onHeap s = true := by decide +kernel
  have full : Storage.capacity s < 600 := by rw [capacity]; decide
  refine ⟨reckoned.capacity.trans capacity, reckoned.next.trans (by rw [len]),
    (reckoned.grow (by decide) full).trans ?_, fields.small heap⟩
  rw [held]
  decide

end PackedBits
