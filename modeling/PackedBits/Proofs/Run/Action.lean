import PackedBits.Proofs.BitVector.Pool
import PackedBits.Proofs.Run.Change

/-! Everything that can be done with the vectors of a pool. An action is an edit of one vector, the
making of a vector, or a move of vectors between names; a run takes actions one after the other,
going on from wherever the last one has stopped, and lists their answers. -/
namespace PackedBits

/-- A span whose words hold it. -/
structure Window (w : Nat) where
  span : Span w
  held : span.Held

def Window.bits {w : Nat} (window : Window w) : List Bool := window.span.toList

/-- Bits beside which a vector is worked on: given ones, or those of a vector. -/
inductive Operand (ω : Type) where
  | given (bits : ω)
  | vector (name : String)

/-- The answer of an attempt beside the state it leaves, which is the state to go on from. -/
def Attempt.outcome {σ α : Type} (attempt : Attempt σ α) (start : σ) : Query α × σ :=
  match attempt start with
  | .ok value state => (.ok value, state)
  | .error failure state => (.error failure, state)

namespace Attempt
variable {σ α : Type} {attempt : Attempt σ α} {start : σ}

theorem outcome_ok {value : α} {state : σ} (ran : attempt start = .ok value state) :
    attempt.outcome start = (.ok value, state) := by
  rw [outcome, ran]

theorem outcome_error {failure : Failure} {state : σ} (ran : attempt start = .error failure state) :
    attempt.outcome start = (.error failure, state) := by
  rw [outcome, ran]

theorem Ends.outcome {done : α → σ → Prop} {failed : Failure → σ → Prop}
    (ends : attempt.Ends start done failed) :
    (∃ value, (attempt.outcome start).1 = .ok value ∧ done value (attempt.outcome start).2) ∨
      ∃ failure, (attempt.outcome start).1 = .error failure ∧
        failed failure (attempt.outcome start).2 := by
  obtain ⟨value, state, ran, reached⟩ | ⟨failure, state, ran, stopped⟩ := ends.ran
  · rw [outcome_ok ran]
    exact .inl ⟨value, rfl, reached⟩
  · rw [outcome_error ran]
    exact .inr ⟨failure, rfl, stopped⟩

end Attempt

inductive Growth where
  | reserve (additional : Nat)
  | resize (bits : Nat) (value : Bool)
  | push (value : Bool)
  | insert (index : Nat) (value : Bool)
  | insertMany (index n : Nat) (value : Bool)
  | extendFrom

inductive Edit where
  | grow (growth : Growth)
  | force (growth : Growth)
  | reserveTotal (bits : Nat)
  | extend (announced : Nat) (bits : List Bool)
  | truncate (bits : Nat)
  | clear
  | shrinkToFit
  | pop
  | erase (index : Nat)
  | eraseRange (bounds : Bounds)
  | union
  | intersection
  | difference
  | symmetricDifference
  | change (change : Change)

inductive Making (w : Nat) where
  | empty
  | withCapacity (bits : Nat)
  | withLen (bits : Nat) (value : Bool)
  | tryWithLen (bits : Nat) (value : Bool)
  | ofWords (words : Array (BitVec w)) (bits : Nat)
  | ofBits (announced : Nat) (bits : List Bool)
  | parse (text : String)
  | parseWith (text : String) (on off : Char)

/-- Where an edit leaves its result: in the vector, in what becomes of a vector used up, or in a
copy that takes its place. -/
inductive Manner where
  | inPlace
  | owned
  | copy
deriving DecidableEq, Repr

inductive Action (w : Nat) where
  | make (name : String) (making : Making w)
  | work (manner : Manner) (name : String) (edit : Edit) (beside : Operand (Window w))
  /-- An edit beside a copy of a vector, which is given up afterwards. -/
  | workBesideCopy (manner : Manner) (name : String) (edit : Edit) (other : String)
  /-- An edit of a copy that is looked at and given up. -/
  | glance (name : String) (edit : Edit) (beside : Operand (Window w))
  | slice (source : Operand (Window w)) (target : String) (bounds : Bounds)
  | splitOff (name target : String) (position : Nat)
  | clone (name target : String)
  | tryClone (name target : String)
  | move (name target : String)
  | drop (name : String)
  | exchange (name other : String)
  | clear

section
variable {S : Type} {w : Nat} [HasBits w] [Storage S w]

def Growth.attempt (growth : Growth) (other : Span w) : Attempt (Holding S) Unit :=
  match growth with
  | .reserve additional => BitVector.tryReserve additional
  | .resize bits value => BitVector.tryResize bits value
  | .push value => BitVector.tryPush value
  | .insert index value => BitVector.tryInsert index value
  | .insertMany index n value => BitVector.tryInsertMany index n value
  | .extendFrom => BitVector.tryExtendFrom other

def Growth.forced (growth : Growth) (other : Span w) : Attempt (Holding S) Unit :=
  match growth with
  | .reserve additional => BitVector.reserve additional
  | .resize bits value => BitVector.resize bits value
  | .push value => BitVector.push value
  | .insert index value => BitVector.insert index value
  | .insertMany index n value => BitVector.insertMany index n value
  | .extendFrom => BitVector.extendFrom other

def Edit.attempt (edit : Edit) (other : Span w) : Attempt (Holding S) Reply :=
  let plain (attempt : Attempt (Holding S) Unit) : Attempt (Holding S) Reply :=
    (fun _ => .done) <$> attempt
  match edit with
  | .grow growth => plain (growth.attempt other)
  | .force growth => plain (growth.forced other)
  | .reserveTotal bits => plain (Storage.reserve bits)
  | .extend announced bits => plain (BitVector.extend announced bits)
  | .truncate bits => plain (BitVector.truncate bits)
  | .clear => plain BitVector.clear
  | .shrinkToFit => plain BitVector.shrinkToFit
  | .pop => .bit <$> BitVector.pop
  | .erase index => .flag <$> BitVector.erase index
  | .eraseRange bounds => plain (BitVector.eraseRange bounds)
  | .union => plain (BitVector.unionWith other)
  | .intersection => plain (BitVector.intersectionWith other)
  | .difference => plain (BitVector.differenceWith other)
  | .symmetricDifference => plain (BitVector.symmetricDifferenceWith other)
  | .change inner => inPlace (inner.attempt other)

def Making.attempt (making : Making w) : Attempt Provider S :=
  match making with
  | .empty => BitVector.build (return ())
  | .withCapacity bits => BitVector.withCapacity bits
  | .withLen bits value => BitVector.withLen bits value
  | .tryWithLen bits value => BitVector.tryWithLen bits value
  | .ofWords words bits => BitVector.ofWords words bits
  | .ofBits announced bits => BitVector.ofBits announced bits
  | .parse text => Text.parse text
  | .parseWith text on off => Text.parseWith text on off

def Operand.span (pool : Pool S) (operand : Operand (Window w)) : Span w :=
  match operand with
  | .given window => window.span
  | .vector name => pool.span name

def Manner.perform (manner : Manner) (name : String) (change : Attempt (Holding S) Reply) :
    Attempt (Pool S) Reply :=
  match manner with
  | .inPlace => Pool.work name change
  | .owned => (fun _ => .done) <$> Pool.changeOwned name (discard change)
  | .copy => (fun _ => .done) <$> Pool.changeCopy name (discard change)

namespace Action

def perform (action : Action w) : Attempt (Pool S) Reply :=
  let plain (attempt : Attempt (Pool S) Unit) : Attempt (Pool S) Reply :=
    (fun _ => .done) <$> attempt
  match action with
  | .make name making => plain (Pool.make name making.attempt)
  | .work manner name edit beside => do
      let pool : Pool S ← get
      manner.perform name (edit.attempt (beside.span pool))
  | .workBesideCopy manner name edit other => do
      let pool : Pool S ← get
      manner.perform name ((fun _ => .done) <$>
        BitVector.besideCopy (pool.vector other) fun copy => discard (edit.attempt copy))
  | .glance name edit beside => do
      let pool : Pool S ← get
      let change := discard (edit.attempt (beside.span pool))
      Pool.glance (BitVector.copied (pool.vector name) change) fun s => .number (Storage.len s)
  | .slice source target bounds => do
      let pool : Pool S ← get
      plain (Pool.make target (BitVector.slice (source.span pool) bounds))
  | .splitOff name target position => plain (Pool.splitOff name target position)
  | .clone name target => do
      let pool : Pool S ← get
      plain (Pool.make target (BitVector.clone (pool.vector name)))
  | .tryClone name target => do
      let pool : Pool S ← get
      plain (Pool.make target (BitVector.tryClone (pool.vector name)))
  | .move name target => plain do Pool.assign target (← Pool.take name)
  | .drop name => plain do Pool.drop (← Pool.take name)
  | .exchange name other => plain (Pool.exchange name other)
  | .clear => plain Pool.clear

def run : List (Action w) → Pool S → List (Query Reply) × Pool S
  | [], pool => ([], pool)
  | action :: rest, pool =>
      let (reply, pool) := action.perform.outcome pool
      let (replies, pool) := run rest pool
      (reply :: replies, pool)

def start (policy : Policy) : Pool S := ⟨[], Provider.of policy⟩

end Action

end

variable {S : Type} {w : Nat} [HasBits w] [Storage S w] [StorageSpec S w] [LawfulStorage S w]
  {other : Span w} {policy : Policy} {refusals : Nat} {others : List Grant}

theorem Growth.attempt_keeps (growth : Growth) (held : other.Held) :
    BitVector.Preserves (growth.attempt other : Attempt (Holding S) Unit) := by
  cases growth with
  | reserve additional => exact BitVector.tryReserve_keeps additional
  | resize bits value => exact BitVector.tryResize_keeps bits value
  | push value => exact BitVector.tryPush_keeps value
  | insert index value => exact BitVector.tryInsertMany_keeps index 1 value
  | insertMany index n value => exact BitVector.tryInsertMany_keeps index n value
  | extendFrom => exact BitVector.tryExtendFrom_keeps held

omit [StorageSpec S w] [LawfulStorage S w] in
theorem Growth.forced_eq (growth : Growth) (other : Span w) :
    (growth.forced other : Attempt (Holding S) Unit) = (growth.attempt other).orPanic := by
  cases growth with
  | reserve additional => rfl
  | resize bits value => rfl
  | push value => rfl
  | insert index value => rfl
  | insertMany index n value => rfl
  | extendFrom => rfl

theorem Edit.attempt_keeps (edit : Edit) (held : other.Held) :
    BitVector.Preserves (edit.attempt other : Attempt (Holding S) Reply) := by
  cases edit with
  | grow growth => exact (growth.attempt_keeps held).map _
  | force growth =>
      intro policy refusals others
      have kept : (growth.attempt other).Keeps (Holding.Sound policy refusals others) :=
        growth.attempt_keeps (S := S) held
      have forced := kept.orPanic
      rw [← growth.forced_eq] at forced
      exact forced.map _
  | reserveTotal bits => exact (BitVector.storage_reserve_keeps bits).map _
  | extend announced bits => exact (BitVector.extend_keeps announced bits).map _
  | truncate bits => exact (BitVector.truncate_keeps bits).map _
  | clear => exact BitVector.clear_keeps.map _
  | shrinkToFit => exact BitVector.shrinkToFit_keeps.map _
  | pop => exact BitVector.pop_keeps.map _
  | erase index => exact (BitVector.erase_keeps index).map _
  | eraseRange bounds => exact (BitVector.eraseRange_keeps bounds).map _
  | union => exact (BitVector.unionWith_keeps held).map _
  | intersection => exact (BitVector.intersectionWith_keeps held).map _
  | difference => exact (BitVector.differenceWith_keeps held).map _
  | symmetricDifference => exact (BitVector.symmetricDifferenceWith_keeps held).map _
  | change change => exact BitVector.inPlace_keeps (change.attempt_framed held)

theorem Making.attempt_makes (making : Making w) :
    BitVector.Makes (making.attempt : Attempt Provider S) := by
  cases making with
  | empty => exact BitVector.build_makes (.pure ())
  | withCapacity bits => exact BitVector.withCapacity_makes bits
  | withLen bits value => exact BitVector.withLen_makes bits value
  | tryWithLen bits value => exact BitVector.tryWithLen_makes bits value
  | ofWords words bits => exact BitVector.ofWords_makes words bits
  | ofBits announced bits => exact BitVector.ofBits_makes announced bits
  | parse text => exact BitVector.parse_makes text
  | parseWith text on off => exact BitVector.parseWith_makes text on off

theorem Operand.span_held {pool : Pool S} (tidy : pool.Tidy) (operand : Operand (Window w)) :
    (operand.span pool).Held := by
  cases operand with
  | given window => exact window.held
  | vector name => exact tidy.span_held name

theorem Manner.perform_keeps (manner : Manner) (name : String) {change : Attempt (Holding S) Reply}
    (preserves : BitVector.Preserves change) :
    (manner.perform name change).Keeps (Pool.Sound policy refusals others) := by
  cases manner with
  | inPlace => exact Pool.work_keeps preserves
  | owned => exact (Pool.changeOwned_keeps preserves.discard).map _
  | copy => exact (Pool.changeCopy_keeps preserves.discard).map _

namespace Action

/-- Every action keeps a sound pool sound, whether it succeeds or not, and none goes wild. -/
theorem perform_keeps (action : Action w) :
    (action.perform : Attempt (Pool S) Reply).Keeps (Pool.Sound policy refusals others) := by
  cases action with
  | make name making => exact (Pool.make_keeps making.attempt_makes).map _
  | work manner name edit beside =>
      exact .get_bind fun pool sound =>
        manner.perform_keeps name (edit.attempt_keeps (beside.span_held sound.tidy)) pool sound
  | workBesideCopy manner name edit other =>
      refine .get_bind fun pool sound => manner.perform_keeps name ?_ pool sound
      exact (BitVector.besideCopy_keeps (sound.tidy.vector_sound other) fun copy held =>
        (edit.attempt_keeps held).discard).map _
  | glance name edit beside =>
      refine .get_bind fun pool sound => Pool.glance_keeps ?_ _ pool sound
      exact BitVector.copied_makes (sound.tidy.vector_sound name)
        (edit.attempt_keeps (beside.span_held sound.tidy)).discard
  | slice source target bounds =>
      exact .get_bind fun pool sound => (Pool.make_keeps
        (BitVector.slice_makes (source.span_held sound.tidy) bounds)).map _ pool sound
  | splitOff name target position => exact (Pool.splitOff_keeps name target position).map _
  | clone name target =>
      exact .get_bind fun pool sound => (Pool.make_keeps
        (BitVector.clone_makes (sound.tidy.vector_sound name))).map _ pool sound
  | tryClone name target =>
      exact .get_bind fun pool sound => (Pool.make_keeps
        (BitVector.tryClone_makes (sound.tidy.vector_sound name))).map _ pool sound
  | move name target => exact (Pool.moved_keeps name target).map _
  | drop name => exact (Pool.dropped_keeps name).map _
  | exchange name other => exact (Pool.exchange_keeps name other).map _
  | clear => exact Pool.clear_keeps.map _

theorem outcome_sound (action : Action w) {pool : Pool S}
    (sound : pool.Sound policy refusals others) :
    (action.perform.outcome pool).1 ≠ .error .wild ∧
      (action.perform.outcome pool).2.Sound policy refusals others := by
  obtain ⟨reply, same, sound'⟩ | ⟨failure, same, tame, sound'⟩ :=
    (action.perform_keeps pool sound).outcome
  · rw [same]
    exact ⟨nofun, sound'⟩
  · rw [same]
    exact ⟨fun wild => tame (by injection wild), sound'⟩

theorem run_sound (actions : List (Action w)) {pool : Pool S}
    (sound : pool.Sound policy refusals others) :
    (∀ reply ∈ (run actions pool).1, reply ≠ .error .wild) ∧
      (run actions pool).2.Sound policy refusals others := by
  induction actions generalizing pool with
  | nil => exact ⟨nofun, sound⟩
  | cons action rest ih =>
      obtain ⟨tame, after⟩ := action.outcome_sound sound
      obtain ⟨later, reached⟩ := ih after
      refine ⟨?_, reached⟩
      intro reply member
      rcases List.mem_cons.mp member with rfl | listed
      · exact tame
      · exact later reply listed

theorem reached_sound (lawful : policy.Lawful) (actions : List (Action w)) :
    (run actions (start policy) : _ × Pool S).2.Sound policy 0 [] :=
  (run_sound actions (Pool.Sound.start lawful)).2

end Action

end PackedBits
