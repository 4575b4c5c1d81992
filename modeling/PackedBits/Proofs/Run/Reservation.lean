import PackedBits.Proofs.Backend
import PackedBits.Proofs.Run.Edit

/-! Reserved room. Once room for some more bits has been granted, a run of edits that stays inside it
needs nothing from the provider: it does what it does to a list, and the room is as large as it was
and where it was. The lengths are those of the list, so they are known before the run. -/
namespace PackedBits

inductive Turn (w : Nat) where
  | edit (edit : Edit) (beside : Window w)
  /-- All bits are exchanged with those of a window of the same length. -/
  | exchange (other : Window w)

namespace Edit

/-- Edits that ask for no more room than the bits they leave take up. -/
def Filling : Edit → Prop
  | grow (.reserve _) => False
  | force (.reserve _) => False
  | reserveTotal _ => False
  | extend .. => False
  | shrinkToFit => False
  | _ => True

theorem Filling.single {edit : Edit} (filling : edit.Filling) : edit.Single := by
  cases edit with
  | extend announced bits => exact filling.elim
  | shrinkToFit => exact filling.elim
  | _ => trivial

end Edit

namespace Attempt
variable {σ α : Type} (attempt : Attempt σ α) (start : σ)

theorem outcome_orPanic : (attempt.orPanic.outcome start).2 = (attempt.outcome start).2 := by
  cases ran : attempt start with
  | ok value state => rw [outcome_ok ran, outcome_ok (orPanic_ok ran)]
  | error failure state => rw [outcome_error ran, outcome_error (orPanic_error ran)]

end Attempt

theorem length_insertAt (index : Nat) (new bits : List Bool) :
    ((insertAt index new).outcome bits).2.length =
      if index ≤ bits.length then bits.length + new.length else bits.length := by
  by_cases inside : index ≤ bits.length
  · rw [Attempt.outcome_ok (insertAt_inside new inside), if_pos inside]
    simp only [List.length_append, List.length_take, List.length_drop]
    omega
  · rw [Attempt.outcome_error (insertAt_outside new inside), if_neg inside]

theorem Growth.total_le (growth : Growth) (bits other : List Bool)
    (filling : ∀ additional, growth ≠ .reserve additional) :
    growth.total bits other ≤ ((growth.onList other).outcome bits).2.length := by
  cases growth with
  | reserve additional => exact absurd rfl (filling additional)
  | resize count value => exact Nat.le_of_eq (Holding.length_resized bits count value).symm
  | push value =>
      show bits.length + 1 ≤ (bits ++ [value]).length
      rw [List.length_append]
      exact Nat.le_refl _
  | insert index value =>
      rw [total, onList, length_insertAt]
      split
      · exact Nat.le_refl _
      · exact Nat.zero_le _
  | insertMany index n value =>
      rw [total, onList, length_insertAt, List.length_replicate]
      split
      · exact Nat.le_refl _
      · exact Nat.zero_le _
  | extendFrom => exact Nat.le_of_eq List.length_append.symm

theorem length_combine_padded (op : BitOp) (other bits : List Bool) :
    (OnList.combine op other (Edit.padded bits other.length)).length =
      max bits.length other.length := by
  have length : (Edit.padded bits other.length).length = max bits.length other.length :=
    Holding.length_resized ..
  rw [OnList.combine, List.length_append, List.length_zipWith, List.length_drop, length]
  omega

theorem Edit.total_le {edit : Edit} (filling : edit.Filling) (bits other : List Bool) :
    edit.total bits other ≤ ((edit.onList other).outcome bits).2.length := by
  cases edit with
  | grow growth =>
      rw [onList, Attempt.outcome_map]
      refine growth.total_le bits other ?_
      rintro additional rfl
      exact filling
  | force growth =>
      rw [onList, Attempt.outcome_map, Attempt.outcome_orPanic]
      refine growth.total_le bits other ?_
      rintro additional rfl
      exact filling
  | reserveTotal bits => exact filling.elim
  | extend announced bits => exact filling.elim
  | shrinkToFit => exact filling.elim
  | union => exact Nat.le_of_eq (length_combine_padded .or other bits).symm
  | symmetricDifference => exact Nat.le_of_eq (length_combine_padded .xor other bits).symm
  | _ => exact Nat.zero_le _

/-- The positions and ranges of a change are inside so many bits. -/
def Change.Inside (length : Nat) : Change → Prop
  | .set index _ => index < length
  | .reset index => index < length
  | .flip index => index < length
  | .replace index _ => index < length
  | .useRef index _ => index < length
  | .swap a b => a < length ∧ b < length
  | .fillRange bounds _ => bounds.panic length = none
  | .flipRange bounds => bounds.panic length = none
  | .copyWithin bounds target =>
      bounds.panic length = none ∧ target + (bounds.past length - bounds.first) ≤ length
  | .rotate middle => middle ≤ length
  | _ => True

def Growth.Inside (length : Nat) : Growth → Prop
  | insert index _ => index ≤ length
  | insertMany index _ _ => index ≤ length
  | _ => True

def Edit.Inside (length : Nat) : Edit → Prop
  | grow growth => growth.Inside length
  | force growth => growth.Inside length
  | erase index => index < length
  | eraseRange bounds => bounds.Fits length
  | .change inner => inner.Inside length
  | _ => True

section Inside
variable {bits : List Bool}

theorem OnList.atBit_ok {α : Type} {index : Nat} (inside : index < bits.length)
    (change : Bool → α × Bool) : ∃ after, OnList.atBit index change bits = .ok after :=
  ⟨_, by rw [OnList.atBit, List.getElem?_eq_getElem inside]; rfl⟩

theorem Reply.beside_ok {α : Type} {reply : α → Reply} {outcome : Query (α × List Bool)}
    (succeeds : ∃ after, outcome = .ok after) : ∃ after, Reply.beside reply outcome = .ok after := by
  obtain ⟨after, rfl⟩ := succeeds
  exact ⟨_, rfl⟩

theorem Change.onList_ok {change : Change} (other : List Bool)
    (inside : change.Inside bits.length) : ∃ after, change.onList other bits = .ok after := by
  unfold onList
  cases change with
  | set index value => exact Reply.beside_ok (OnList.atBit_ok inside _)
  | reset index => exact Reply.beside_ok (OnList.atBit_ok inside _)
  | flip index => exact Reply.beside_ok (OnList.atBit_ok inside _)
  | replace index value => exact Reply.beside_ok (OnList.atBit_ok inside _)
  | useRef index call => exact Reply.beside_ok (OnList.atBit_ok inside _)
  | swap a b =>
      obtain ⟨insideA, insideB⟩ := inside
      refine Reply.beside_ok ⟨((), (bits.set a bits[b]).set b bits[a]), ?_⟩
      rw [OnList.swap, List.getElem?_eq_getElem insideA, List.getElem?_eq_getElem insideB]
      rfl
  | fillRange bounds value =>
      exact Reply.beside_ok ⟨_, OnList.onRange_ok (Bounds.resolve_of_panic_none inside)⟩
  | flipRange bounds =>
      exact Reply.beside_ok ⟨_, OnList.onRange_ok (Bounds.resolve_of_panic_none inside)⟩
  | copyWithin bounds target =>
      obtain ⟨none, below⟩ := inside
      have order := (Bounds.fits_of_panic_none none).1
      refine Reply.beside_ok ⟨_,
        (OnList.copyWithin_resolved (Bounds.resolve_of_panic_none none)).trans (if_neg ?_)⟩
      show ¬ bits.length - (bounds.past bits.length - bounds.first) < target
      omega
  | rotate middle =>
      exact Reply.beside_ok
        ⟨(bits.length - middle, OnList.turned middle bits), if_neg (Nat.not_lt.mpr inside)⟩
  | _ => exact ⟨_, rfl⟩

theorem Growth.onList_ok {growth : Growth} (other : List Bool)
    (inside : growth.Inside bits.length) : ∃ after, growth.onList other bits = .ok () after := by
  cases growth with
  | insert index value => exact ⟨_, insertAt_inside _ inside⟩
  | insertMany index n value => exact ⟨_, insertAt_inside _ inside⟩
  | _ => exact ⟨_, rfl⟩

theorem Edit.onList_ok {edit : Edit} (other : List Bool) (inside : edit.Inside bits.length) :
    ∃ reply after, edit.onList other bits = .ok reply after := by
  cases edit with
  | grow growth =>
      obtain ⟨after, ran⟩ := Growth.onList_ok other inside
      exact ⟨_, after, Attempt.map_ok ran _⟩
  | force growth =>
      obtain ⟨after, ran⟩ := Growth.onList_ok other inside
      exact ⟨_, after, Attempt.map_ok (Attempt.orPanic_ok ran) _⟩
  | erase index =>
      have found : bits[index]? = some bits[index] := List.getElem?_eq_getElem inside
      exact ⟨_, _, Attempt.map_ok (Task.eraseAt_inside found) _⟩
  | eraseRange bounds =>
      exact ⟨_, _, Attempt.map_ok (eraseFrom_ok (Bounds.misfit_of_fits inside)) _⟩
  | change inner =>
      obtain ⟨after, ran⟩ := inner.onList_ok other inside
      exact ⟨after.1, after.2, by simp only [onList, Attempt.rewriting, ran]⟩
  | _ => exact ⟨_, _, rfl⟩

end Inside

namespace Turn
variable {S : Type} {w : Nat}

def onList : Turn w → Attempt (List Bool) Reply
  | .edit inner beside => inner.onList beside.bits
  | .exchange other => .rewriting fun bits =>
      (fun after => (.done, after.1)) <$> OnList.exchange bits other.bits

def Filling : Turn w → Prop
  | .edit inner _ => inner.Filling
  | .exchange _ => True

def Inside (length : Nat) : Turn w → Prop
  | .edit inner _ => inner.Inside length
  | .exchange other => other.bits.length = length

def listTrace : List (Turn w) → List Bool → List (Query Reply × List Bool)
  | [], _ => []
  | turn :: rest, bits =>
      let (reply, bits) := turn.onList.outcome bits
      (reply, bits) :: listTrace rest bits

/-- Every turn of a run finds its positions inside the list that it comes to. -/
def AllInside : List (Turn w) → List Bool → Prop
  | [], _ => True
  | turn :: rest, bits =>
      turn.Inside bits.length ∧ AllInside rest (turn.onList.outcome bits).2

section
variable [HasBits w] [Storage S w]

def attempt : Turn w → Attempt (Holding S) Reply
  | .edit inner beside => inner.attempt beside.span
  | .exchange other => (fun _ => .done) <$>
      Span.swapBits.within (fun h => (BitVector.span h, other.span)) fun h spans =>
        Container.putWords h spans.1.words

def trace : List (Turn w) → Holding S → List (Query Reply × Holding S)
  | [], _ => []
  | turn :: rest, h =>
      let (reply, h) := turn.attempt.outcome h
      (reply, h) :: trace rest h

def seen (entry : Query Reply × Holding S) : Query Reply × List Bool := (entry.1, entry.2.list)

end

variable [HasBits w] [Storage S w] [StorageSpec S w] [LawfulStorage S w] {policy : Policy}
  {refusals : Nat} {others : List Grant} {h : Holding S}

/-- What a turn inside the room has done. -/
structure Kept (policy : Policy) (refusals : Nat) (others : List Grant) (h h' : Holding S) :
    Prop where
  sound : h'.Sound policy refusals others
  room : h.SameRoom h'

theorem exchange_ends (sound : h.Sound policy refusals others) (other : Window w) :
    (attempt (exchange other) : Attempt (Holding S) Reply).Ends h
      (fun reply h' => Kept policy refusals others h h' ∧
        (exchange other).onList h.list = .ok reply h'.list)
      fun failure h' => Kept policy refusals others h h' ∧
        (exchange other).onList h.list = .error failure h'.list := by
  have swapped : Span.swapBits.Ends (BitVector.span h, other.span) _ _ :=
    Span.swapBits_does (BitVector.span_held sound) other.held
  have within : (Span.swapBits.within (fun h => (BitVector.span h, other.span)) fun h spans =>
      Container.putWords h spans.1.words : Attempt (Holding S) Unit).Ends h
      (fun _ h' => Kept policy refusals others h h' ∧
        (exchange other).onList h.list = .ok .done h'.list)
      fun failure h' => Kept policy refusals others h h' ∧
        (exchange other).onList h.list = .error failure h'.list := by
    refine Attempt.Ends.within h swapped ?_ ?_
    · rintro ⟨⟩ ⟨s, t⟩ ⟨inside, -, same⟩
      obtain ⟨touched, span⟩ := sound.put inside
      refine ⟨⟨touched.sound, touched.room⟩, ?_⟩
      have list : (Container.putWords h s.words).list = s.toList := congrArg Span.toList span
      rw [list, onList, Attempt.rewriting, show OnList.exchange h.list other.bits = _ from same]
      rfl
    · rintro failure spans ⟨rfl, -, same⟩
      obtain ⟨touched, span⟩ := sound.put (Span.Within.refl _)
      refine ⟨⟨touched.sound, touched.room⟩, ?_⟩
      have list : (Container.putWords h (BitVector.span h).words).list = h.list :=
        congrArg Span.toList span
      rw [list, onList, Attempt.rewriting, show OnList.exchange h.list other.bits = _ from same]
      rfl
  exact within.map fun _ _ => id

theorem attempt_ends (sound : h.Sound policy refusals others) {turn : Turn w} {limit : Nat}
    (filling : turn.Filling) (small : limit ≤ Storage.maxBits S)
    (room : limit ≤ Storage.capacity h.storage)
    (below : (turn.onList.outcome h.list).2.length ≤ limit) :
    (turn.attempt : Attempt (Holding S) Reply).Ends h
      (fun reply h' => Kept policy refusals others h h' ∧
        turn.onList h.list = .ok reply h'.list)
      fun failure h' => Kept policy refusals others h h' ∧
        turn.onList h.list = .error failure h'.list := by
  cases turn with
  | exchange other => exact exchange_ends sound other
  | edit inner beside =>
      have total : inner.total h.list beside.bits ≤ limit :=
        Nat.le_trans (Edit.total_le filling h.list beside.bits) below
      have small' := Nat.le_trans total small
      have room' := Nat.le_trans total room
      refine Attempt.Ends.imp (Edit.attempt_performs sound filling.single beside.held) ?_ ?_
      · rintro reply h' ⟨after, same, reserved⟩
        exact ⟨⟨after, (Holding.reserved_inside_iff small' room').mp reserved⟩, same⟩
      · rintro failure h' (⟨after, stopped, list, same⟩ | denied)
        · exact ⟨⟨after, same⟩, by rw [list]; exact stopped⟩
        · exact absurd room' (denied.short small')

omit [LawfulStorage S w] in
theorem outcome_eq {turn : Turn w}
    (ends : (turn.attempt : Attempt (Holding S) Reply).Ends h
      (fun reply h' => Kept policy refusals others h h' ∧ turn.onList h.list = .ok reply h'.list)
      fun failure h' => Kept policy refusals others h h' ∧
        turn.onList h.list = .error failure h'.list) :
    Kept policy refusals others h (turn.attempt.outcome h).2 ∧
      seen (turn.attempt.outcome h) = turn.onList.outcome h.list := by
  unfold seen
  obtain ⟨reply, answer, kept, same⟩ | ⟨failure, answer, kept, same⟩ := ends.outcome
  · rw [answer, Attempt.outcome_ok same]
    exact ⟨kept, rfl⟩
  · rw [answer, Attempt.outcome_error same]
    exact ⟨kept, rfl⟩

theorem trace_inside {limit : Nat} (turns : List (Turn w)) (sound : h.Sound policy refusals others)
    (small : limit ≤ Storage.maxBits S) (room : limit ≤ Storage.capacity h.storage)
    (filling : ∀ turn ∈ turns, turn.Filling)
    (below : ∀ entry ∈ listTrace turns h.list, entry.2.length ≤ limit) :
    (trace turns h).map seen = listTrace turns h.list ∧
      ∀ entry ∈ trace turns h, h.SameRoom entry.2 := by
  induction turns generalizing h with
  | nil => exact ⟨rfl, nofun⟩
  | cons turn rest ih =>
      obtain ⟨first, later⟩ := List.forall_mem_cons.mp below
      obtain ⟨fills, filling⟩ := List.forall_mem_cons.mp filling
      obtain ⟨kept, same⟩ := outcome_eq (attempt_ends sound fills small room first)
      have list : (turn.attempt.outcome h).2.list = (turn.onList.outcome h.list).2 :=
        congrArg Prod.snd same
      -- The room is the same after the turn, so the rest stays inside it too.
      obtain ⟨traced, rooms⟩ := ih kept.sound (by rw [kept.room.capacity]; exact room) filling
        (by rw [list]; exact later)
      constructor
      · show seen (turn.attempt.outcome h) :: (trace rest (turn.attempt.outcome h).2).map seen =
          turn.onList.outcome h.list :: listTrace rest (turn.onList.outcome h.list).2
        rw [traced, same, list]
      · exact List.forall_mem_cons.mpr
          ⟨kept.room, fun entry listed => kept.room.trans (rooms entry listed)⟩

omit [HasBits w] in
theorem onList_ok {turn : Turn w} {bits : List Bool} (inside : turn.Inside bits.length) :
    ∃ reply, (turn.onList.outcome bits).1 = .ok reply := by
  cases turn with
  | edit inner beside =>
      obtain ⟨reply, after, ran⟩ := Edit.onList_ok beside.bits inside
      exact ⟨reply, congrArg Prod.fst (Attempt.outcome_ok ran)⟩
  | exchange other =>
      have same : OnList.exchange bits other.bits = .ok (other.bits, bits) := if_pos inside.symm
      exact ⟨.done, by simp only [onList, Attempt.outcome, Attempt.rewriting, same]; rfl⟩

omit [HasBits w] in
theorem listTrace_ok (turns : List (Turn w)) {bits : List Bool} (inside : AllInside turns bits) :
    ∀ entry ∈ listTrace turns bits, ∃ reply, entry.1 = .ok reply := by
  induction turns generalizing bits with
  | nil => exact nofun
  | cons turn rest ih => exact List.forall_mem_cons.mpr ⟨onList_ok inside.1, ih inside.2⟩

end Turn

namespace Holding
variable {S : Type} {w : Nat} [HasBits w] [Storage S w] [StorageSpec S w] [LawfulStorage S w]
  {policy later : Policy} {refusals : Nat} {others : List Grant} {h : Holding S}

omit [HasBits w] [LawfulStorage S w] in
/-- A provider may change its policy at any time: what is on its books stays there. -/
theorem Sound.under (sound : h.Sound policy refusals others) (lawful : later.Lawful) :
    Sound later refusals others { h with provider := { h.provider with policy := later } } :=
  ⟨sound.storage, lawful, rfl, sound.books.live, sound.books.balance, sound.books.refused⟩

end Holding

/-- On any storage, once room for some more bits has been granted to a vector, any run that asks for
no more than it fills and never gets longer than that does what it does to a list. Whatever the
provider would answer from then on, it is not asked; capacity and mode stay as they are; and every
step whose positions are inside succeeds. -/
theorem reserved_room_is_enough (b : Backend) {policy later : Policy} (lawful : policy.Lawful)
    (lawfulLater : later.Lawful) (actions : List (Action b.width)) (name : String)
    (additional : Nat) {granted : Holding b.Carrier} (turns : List (Turn b.width)) :
    let pool : Pool b.Carrier := (Action.run actions (Action.start policy)).2
    let h : Holding b.Carrier := ⟨pool.vector name, pool.provider⟩
    let start : Holding b.Carrier :=
      { granted with provider := { granted.provider with policy := later } }
    BitVector.tryReserve additional h = .ok () granted →
    (∀ turn ∈ turns, turn.Filling) →
    (∀ entry ∈ Turn.listTrace turns h.list, entry.2.length ≤ BitVector.len h + additional) →
      (Turn.trace turns start).map Turn.seen = Turn.listTrace turns h.list ∧
      (∀ entry ∈ Turn.trace turns start, start.SameRoom entry.2) ∧
      (Turn.AllInside turns h.list →
        ∀ entry ∈ Turn.trace turns start, ∃ reply, entry.1 = .ok reply) := by
  intro pool h start ran filling below
  have sound := (Action.reached_sound (S := b.Carrier) lawful actions).holding name
  obtain ⟨soundGranted, list, -, reserved⟩ :=
    (BitVector.tryReserve_ends sound additional).at_ok ran
  obtain ⟨room, small⟩ := reserved.room sound
  have same : start.list = h.list := list
  have inside : ∀ entry ∈ Turn.listTrace turns start.list,
      entry.2.length ≤ BitVector.len h + additional := by
    rw [same]
    exact below
  obtain ⟨traced, rooms⟩ :=
    Turn.trace_inside turns (soundGranted.under lawfulLater) small room filling inside
  rw [same] at traced
  refine ⟨traced, rooms, fun positions entry listed => ?_⟩
  have shown : Turn.seen entry ∈ Turn.listTrace turns h.list := by
    rw [← traced]
    exact List.mem_map_of_mem listed
  exact Turn.listTrace_ok turns positions _ shown

/-- Room for three hundred bits in the only page there is: pushed over the inline room, inserted
into, cut, cleared and filled again, a vector never asks for another. -/
theorem reserved_room_is_enough_on_one_page :
    let pool : Pool Backend.smallBuffer.Carrier := (Action.run
      [.work .inPlace "a" (.grow (.resize 100 false)) (.vector "a")]
      (Action.start (Policy.pages 1))).2
    let h : Holding Backend.smallBuffer.Carrier := ⟨pool.vector "a", pool.provider⟩
    let byte : Window Backend.smallBuffer.width := ⟨⟨#[0xA5#64], 0, 8⟩, (by decide : 8 ≤ 64)⟩
    let turns : List (Turn Backend.smallBuffer.width) :=
      [.edit (.grow .extendFrom) byte, .edit (.force (.insertMany 3 192 true)) byte,
        .edit (.erase 7) byte, .edit .clear byte, .edit .union byte, .exchange byte,
        .edit (.grow (.resize 300 true)) byte]
    (Policy.pages 1).Lawful ∧ (Policy.pages 0).Lawful ∧
    ∃ granted : Holding Backend.smallBuffer.Carrier,
      BitVector.tryReserve 200 h = .ok () granted ∧
      let start : Holding Backend.smallBuffer.Carrier :=
        { granted with provider := { granted.provider with policy := Policy.pages 0 } }
      (∀ entry ∈ Turn.trace turns start, start.SameRoom entry.2) ∧
      ∀ entry ∈ Turn.trace turns start, ∃ reply, entry.1 = .ok reply := by
  intro pool h byte turns
  have lawful : (Policy.pages 1).Lawful := Policy.pages_lawful (by decide)
  have lawfulLater : (Policy.pages 0).Lawful := Policy.pages_lawful (by decide)
  have sound := (Action.reached_sound (S := Backend.smallBuffer.Carrier) lawful
    [.work .inPlace "a" (.grow (.resize 100 false)) (.vector "a")]).holding "a"
  have free : BitVector.growth h 200 = none := by decide +kernel
  have filling : ∀ turn ∈ turns, turn.Filling := by
    simp only [turns, List.forall_mem_cons]
    exact ⟨trivial, trivial, trivial, trivial, trivial, trivial, trivial, nofun⟩
  have below : ∀ entry ∈ Turn.listTrace turns h.list, entry.2.length ≤ BitVector.len h + 200 := by
    decide +kernel
  have inside : Turn.AllInside turns h.list := by
    refine ⟨trivial, ?_, ?_, trivial, trivial, ?_, trivial, trivial⟩
    · show 3 ≤ List.length _
      decide +kernel
    · show 7 < List.length _
      decide +kernel
    · show List.length _ = List.length _
      decide +kernel
  obtain ⟨_, granted, ran, -⟩ | ⟨_, _, -, refused⟩ := (BitVector.tryReserve_ends sound 200).ran
  · obtain ⟨-, rooms, done⟩ := reserved_room_is_enough .smallBuffer lawful lawfulLater _ "a" 200
      turns ran filling below
    exact ⟨lawful, lawfulLater, granted, ran, rooms, done inside⟩
  · obtain ⟨error, -, short⟩ := refused.cause
    cases short.symm.trans free

end PackedBits
