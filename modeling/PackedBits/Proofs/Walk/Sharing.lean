import Mathlib.Data.List.Nodup
import Mathlib.Logic.Function.Basic
import PackedBits.Proofs.Run.Locality

/-! References side by side. A write through a reference reads and writes back a whole word, which
other references may refer into. Still every reference to a bit of its own behaves as a boolean of
its own: whatever is done through any of them, in whatever order, each answers and ends as that
boolean would, and a bit that none of them refers to is left as it was. -/
namespace PackedBits

namespace BitRef
variable {ι : Type}

/-- What is done with references that go by names: a call on one, or an exchange of two. -/
inductive Use (ι : Type) where
  | call (name : ι) (made : Call)
  | swap (first second : ι)

namespace Use

section
variable {μ : Type} {w : Nat} [Memory μ w]

def run (refs : ι → BitRef w) (m : μ) : Use ι → Option (Option Bool × μ)
  | .call name made => (refs name).call m made
  | .swap first second => ((refs first).swap (refs second) m).map (none, ·)

def runAll (refs : ι → BitRef w) (m : μ) : List (Use ι) → Option (List (Option Bool) × μ)
  | [] => some ([], m)
  | use :: rest => do
      let (answer, m) ← use.run refs m
      let (answers, m) ← runAll refs m rest
      return (answer :: answers, m)

end

section
variable [DecidableEq ι]

def onBits (bits : ι → Bool) : Use ι → Option Bool × (ι → Bool)
  | .call name made =>
      ((made.onBit (bits name)).1, Function.update bits name (made.onBit (bits name)).2)
  | .swap first second =>
      (none, Function.update (Function.update bits first (bits second)) second (bits first))

def onAllBits (bits : ι → Bool) : List (Use ι) → List (Option Bool) × (ι → Bool)
  | [] => ([], bits)
  | use :: rest =>
      let after := use.onBits bits
      let later := onAllBits after.2 rest
      (after.1 :: later.1, later.2)

end

end Use

end BitRef

section
variable {μ : Type} {w : Nat} [Memory μ w] {ι : Type} {cursors : ι → Cursor w} {bits : ι → Bool}
  {m m₁ m₂ : μ}

def Referred (cursors : ι → Cursor w) (buffer : Nat) (position : Int) : Prop :=
  ∃ i, buffer = (cursors i).buffer ∧ position = (cursors i).position

/-- One memory has these bits at the references and is otherwise like another one. -/
structure Reflects (m m₁ : μ) (cursors : ι → Cursor w) (bits : ι → Bool) : Prop where
  bit (i : ι) : bit? m₁ (cursors i).buffer (cursors i).position = some (bits i)
  altered : Altered m m₁ (Referred cursors)

namespace Reflects

theorem start (held : ∀ i, Holds m (cursors i) 1) :
    Reflects m m cursors fun i => bitsAt m (cursors i) 0 where
  bit i := by
    have covered : (cursors i).Covers 1 (cursors i).buffer (cursors i).position :=
      ⟨rfl, by omega, by omega⟩
    have found := (held i).bit_covered covered
    rwa [Int.sub_self] at found
  altered := .refl m _

variable (reflects : Reflects m m₁ cursors bits)
include reflects

theorem held (i : ι) : Holds m₁ (cursors i) 1 := by
  intro k below
  rw [Nat.lt_one_iff.mp below, Int.natCast_zero, Int.add_zero, reflects.bit i]
  rfl

theorem bitsAt (i : ι) : PackedBits.bitsAt m₁ (cursors i) 0 = bits i := by
  rw [PackedBits.bitsAt, Int.natCast_zero, Int.add_zero, reflects.bit i]
  rfl

variable [DecidableEq ι]

theorem write (distinct : cursors.Injective) {i : ι} {value : Bool}
    (written : Overwritten m₁ m₂ (cursors i) 1 fun _ => value) :
    Reflects m m₂ cursors (Function.update bits i value) where
  bit k := by
    rw [written]
    by_cases same : k = i
    · subst same
      rw [if_pos ⟨rfl, by omega, by omega⟩, Function.update_self]
    · rw [if_neg, reflects.bit k, Function.update_of_ne same]
      rintro ⟨buffer, low, high⟩
      exact same (distinct (Cursor.ext_position buffer (by omega)))
  altered := by
    refine reflects.altered.trans ((written.altered (reflects.held i)).mono ?_)
    rintro buffer position ⟨here, low, high⟩
    exact ⟨i, here, by omega⟩

variable [LawfulMemory μ w]

theorem run (distinct : cursors.Injective) (use : BitRef.Use ι) :
    ∃ m₂, use.run (fun i => (cursors i).ref) m₁ = some ((use.onBits bits).1, m₂) ∧
      Reflects m m₂ cursors (use.onBits bits).2 := by
  cases use with
  | call i made =>
      obtain ⟨m₂, called, became⟩ := ref_call_overwritten m₁ (cursors i) made (reflects.held i)
      rw [reflects.bitsAt i] at called became
      exact ⟨m₂, called, reflects.write distinct became⟩
  | swap i k =>
      have readFirst : (cursors i).ref.get m₁ = some (bits i) := by
        rw [ref_get m₁ _ (reflects.held i), reflects.bitsAt i]
      have readSecond : (cursors k).ref.get m₁ = some (bits k) := by
        rw [ref_get m₁ _ (reflects.held k), reflects.bitsAt k]
      simp only [BitRef.Use.run, BitRef.Use.onBits, BitRef.swap, readFirst, readSecond,
        Option.bind_eq_bind, Option.bind_some]
      by_cases alike : bits i = bits k
      · -- Nothing is written, and exchanging equal booleans changes neither.
        refine ⟨m₁, by simp [alike], ?_⟩
        rwa [← alike, Function.update_eq_self, alike, Function.update_eq_self]
      · obtain ⟨mFirst, setFirst, becameFirst⟩ :=
          ref_set_overwritten m₁ (cursors i) (bits k) (reflects.held i)
        have first := reflects.write distinct becameFirst
        obtain ⟨m₂, setSecond, becameSecond⟩ :=
          ref_set_overwritten mFirst (cursors k) (bits i) (first.held k)
        exact ⟨m₂, by simp [alike, setFirst, setSecond], first.write distinct becameSecond⟩

/-- Any uses, in any order, do what they do to booleans. -/
theorem runAll (distinct : cursors.Injective) (uses : List (BitRef.Use ι)) :
    ∃ m₂, BitRef.Use.runAll (fun i => (cursors i).ref) m₁ uses =
        some ((BitRef.Use.onAllBits bits uses).1, m₂) ∧
      Reflects m m₂ cursors (BitRef.Use.onAllBits bits uses).2 := by
  induction uses generalizing m₁ bits with
  | nil => exact ⟨m₁, rfl, reflects⟩
  | cons use rest ih =>
      obtain ⟨mUse, ran, after⟩ := reflects.run distinct use
      obtain ⟨m₂, ranRest, done⟩ := ih after
      refine ⟨m₂, ?_, done⟩
      simp only [BitRef.Use.runAll, ran, ranRest, Option.bind_eq_bind, Option.bind_some,
        BitRef.Use.onAllBits, Option.pure_def]

end Reflects

theorem ref_swap_self (m : μ) (p : Cursor w) (held : Holds m p 1) :
    p.ref.swap p.ref m = some m := by
  simp [BitRef.swap, ref_get m p held]

end

namespace Span
variable {w : Nat} [HasBits w] {s : Span w} {ι : Type} [DecidableEq ι] {places : ι → Nat}

theorem uses_do (held : s.Held) (distinct : places.Injective) (inside : ∀ i, places i < s.len)
    (uses : List (BitRef.Use ι)) :
    let after := BitRef.Use.onAllBits (fun i => s.bit (places i)) uses
    ∃ bits, s.Does (useRef fun m : Buffers w =>
        BitRef.Use.runAll (fun i => (s.first + places i).ref) m uses) (.ok (after.1, bits)) ∧
      bits.length = s.len ∧ (∀ i, bits[places i]? = some (after.2 i)) ∧
      ∀ place, (∀ i, places i ≠ place) → bits[place]? = s.toList[place]? := by
  intro after
  have apart : (fun i => s.first + places i).Injective := fun i k same =>
    distinct ((Cursor.forward_inj s.first).mp same)
  have start : Reflects s.buffers s.buffers (fun i => s.first + places i)
      fun i => s.bit (places i) := by
    have begun := Reflects.start fun i => (holds_first held).part (Nat.succ_le_of_lt (inside i))
    simpa only [bitsAt_forward, Nat.add_zero, bitsAt_first held (inside _)] using begun
  obtain ⟨m', ran, done⟩ := start.runAll apart uses
  have covered : Altered s.buffers m' (s.first.Covers s.len) := by
    apply done.altered.mono
    rintro buffer position ⟨i, rfl, rfl⟩
    have below := inside i
    rw [Cursor.buffer_forward, Cursor.position_forward]
    exact ⟨rfl, by omega, by omega⟩
  let s' : Span w := { s with words := m'.words 0 }
  have held' : s'.Held := (Within.of_altered rfl covered fun _ => id).held held
  have bit {place : Nat} (below : place < s.len) : s'.bit place = bitsAt m' s.first place :=
    (bitsAt_words (show m'.words 0 = s'.words from rfl) held' below).symm
  refine ⟨s'.toList, .of_value (write_ends (congrArg (Option.map _) ran) covered ⟨rfl, rfl⟩),
    length_toList s', fun i => ?_, fun place other => ?_⟩
  · have here := done.bitsAt i
    rw [bitsAt_forward, Nat.add_zero] at here
    rw [getElem?_toList_of_lt (s := s') (inside i), bit (inside i), here]
  · by_cases below : place < s.len
    · have unreferred : ¬ Referred (fun i => s.first + places i) s.first.buffer
          (s.first.position + place) := by
        rintro ⟨i, -, same⟩
        rw [Cursor.position_forward] at same
        exact other i (by omega)
      rw [getElem?_toList_of_lt (s := s') below, getElem?_toList_of_lt below, bit below,
        done.altered.bitsAt unreferred, bitsAt_first held below]
    · have above := Nat.le_of_not_lt below
      rw [getElem?_toList_of_le (s := s') above, getElem?_toList_of_le above]

end Span

/-- References to different positions are used as booleans of their own. Whatever is done through any
of them in any order, each use answers as it would on booleans, with the bits as they were at first,
each bit ends as its boolean does, and no bit changes that none of them refers to; a bit exchanged
with itself leaves the memory as it is. The references that a walk over a container hands out, from
either end, are references to different bits of it, and so it is with these. -/
theorem references_are_used_as_booleans_of_their_own {w : Nat} :
    (∀ {μ : Type} [Memory μ w] [LawfulMemory μ w] {ι : Type} [DecidableEq ι] (m : μ)
      (cursors : ι → Cursor w), cursors.Injective → (∀ i, Holds m (cursors i) 1) →
        (∀ uses : List (BitRef.Use ι),
          let after := BitRef.Use.onAllBits (fun i => bitsAt m (cursors i) 0) uses
          ∃ m', BitRef.Use.runAll (fun i => (cursors i).ref) m uses = some (after.1, m') ∧
            (∀ i, bit? m' (cursors i).buffer (cursors i).position = some (after.2 i)) ∧
            Altered m m' fun buffer position =>
              ∃ i, buffer = (cursors i).buffer ∧ position = (cursors i).position) ∧
        ∀ i, (cursors i).ref.swap (cursors i).ref m = some m) ∧
    ∀ [HasBits w] (host : Host w),
      (∀ sides : List Bool, (RefWalk.handOut sides).Ends host.span.walkRefs
        (fun refs _ => ∃ places : Fin refs.length → Nat, places.Injective ∧
          (∀ i, host.span.bitRef (places i) = .ok refs[i]) ∧
          ∀ uses : List (BitRef.Use (Fin refs.length)),
            let after := BitRef.Use.onAllBits (fun i => host.span.bit (places i)) uses
            ∃ bits, host.Does (Span.useRef fun m : Buffers w =>
                BitRef.Use.runAll (fun i => refs[i]) m uses) (.ok (after.1, bits)) ∧
              bits.length = host.bits.length ∧ (∀ i, bits[places i]? = some (after.2 i)) ∧
              ∀ place, (∀ i, places i ≠ place) → bits[place]? = host.bits[place]?)
        fun _ _ => False) ∧
      ∀ i < host.bits.length, inPlace (Span.swap i i) host.value = .ok () host.value := by
  constructor
  · intro μ _ _ ι _ m cursors distinct held
    refine ⟨fun uses => ?_, fun i => ref_swap_self m (cursors i) (held i)⟩
    obtain ⟨m', ran, done⟩ := (Reflects.start held).runAll distinct uses
    exact ⟨m', ran, done.bit, done.altered⟩
  · intro _ host
    constructor
    · intro sides
      rw [RefWalk.walkRefs_eq]
      refine (RefWalk.handOut_ends sides (Nat.zero_le _)).imp ?_ fun _ _ => id
      rintro refs walk ⟨places, distinct, inside, rfl⟩
      let refs := places.map fun i => (host.span.first + i).ref
      have length : refs.length = places.length := List.length_map ..
      let place (i : Fin refs.length) : Nat := places.get (i.cast length)
      have refer : (fun i : Fin refs.length => refs[i]) = fun i =>
          (host.span.first + place i).ref := by
        funext i
        simp [refs, place]
      have below (i : Fin refs.length) : place i < host.span.len :=
        (inside (place i) (List.get_mem ..)).2
      have apart : place.Injective := fun i k same =>
        Fin.ext (Fin.mk.inj (distinct.injective_get same))
      refine ⟨place, apart, fun i => ?_, fun uses => ?_⟩
      · rcases host.span.bitRef_cases (place i) with ⟨-, answer⟩ | ⟨above, -⟩
        · rw [answer]
          exact congrArg Except.ok (congrFun refer i).symm
        · exact absurd (below i) (Nat.not_lt.mpr above)
      · obtain ⟨bits, does, same, named, unnamed⟩ := Span.uses_do host.held apart below uses
        refine ⟨bits, ?_, same.trans (Span.length_toList host.span).symm, named, unnamed⟩
        rw [refer]
        exact Host.does_of_span does
    · intro i below
      have still : OnList.swap i i host.bits = .ok ((), host.bits) := by
        simp [OnList.swap, List.getElem?_eq_getElem below, Pure.pure, Except.pure]
      have swapped := Span.swap_does host.held i i
      exact Host.inPlace_unchanged (still ▸ swapped)

/-- Three references, two of them into one byte and the third into the next one, and a container in
which a bit is exchanged with itself. -/
theorem references_are_used_as_booleans_in_two_bytes :
    let m : Buffers 8 := ⟨#[#[0xA5#8, 0x3C#8]]⟩
    let p : Cursor 8 := ⟨0, 0, 6, by decide⟩
    let cursors : Fin 3 → Cursor 8 := fun i => p + (i : Nat)
    let uses : List (BitRef.Use (Fin 3)) :=
      [.call 0 .flip, .swap 0 2, .call 1 (.replace false), .call 2 (.andWith true),
        .call 0 (.xorWith true), .call 2 .get]
    let host : Host 8 := .slice ⟨#[0xA5#8, 0x5A#8], 5, 7⟩ (show 5 + 7 ≤ 2 * 8 by decide)
    cursors.Injective ∧ (∀ i, Holds m (cursors i) 1) ∧
      (∃ m', BitRef.Use.runAll (fun i => (cursors i).ref) m uses =
          some ([none, none, some true, none, none, some true], m') ∧
        bit? m' 0 6 = some true ∧ bit? m' 0 7 = some false ∧ bit? m' 0 8 = some true ∧
        bit? m' 0 5 = bit? m 0 5) ∧
      4 < host.bits.length ∧ inPlace (Span.swap 4 4) host.value = .ok () host.value := by
  intro m p cursors uses host
  have distinct : cursors.Injective := fun i k same => Fin.ext ((Cursor.forward_inj p).mp same)
  have held : ∀ i, Holds m (cursors i) 1 := by decide
  have below : 4 < host.bits.length := by decide
  have atFirst : ∀ i, bitsAt m (cursors i) 0 = (i == 1) := by decide
  have position : ∀ i : Fin 3, (cursors i).position = 6 + (i : Nat) := by decide
  obtain ⟨m', ran, bits, altered⟩ :=
    (references_are_used_as_booleans_of_their_own.1 m cursors distinct held).1 uses
  simp only [atFirst, position] at ran bits
  refine ⟨distinct, held, ⟨m', ran, bits 0, bits 1, bits 2, altered.kept 0 5 (by decide)⟩, below,
    (references_are_used_as_booleans_of_their_own.2 host).2 4 below⟩

end PackedBits
