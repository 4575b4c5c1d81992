import PackedBits.Proofs.Run.Action

/-! Commands on lists. A command is an action on vectors that means something for plain lists of
bits: what it does to them is said here without words, capacities or blocks. A run of commands on
lists gives a trace, which tells each answer and what all lists are after it. -/
namespace PackedBits

/-- The lists of bits that names stand for. -/
abbrev Lists := String → List Bool

abbrev Sight := String → Nat × Query (List Bool)

/-- The answers of a run, and what can be seen after each. -/
abbrev Trace := List (Query Reply × Sight)

namespace Lists

def none : Lists := fun _ => []

def sight (lists : Lists) : Sight := fun name => ((lists name).length, .ok (lists name))

def put (lists : Lists) (name : String) (bits : List Bool) : Lists := fun other =>
  if other = name then bits else lists other

end Lists

inductive Task where
  | grow (growth : Growth)
  | force (growth : Growth)
  | truncate (bits : Nat)
  | clear
  | shrinkToFit
  | pop
  | erase (index : Nat)
  | eraseRange (bounds : Bounds)
  | setBit (index : Nat) (value : Bool)
  | fillRange (bounds : Bounds) (value : Bool)
  | flipRange (bounds : Bounds)

inductive Command (ω : Type) where
  | edit (name : String) (task : Task) (beside : Operand ω)
  | slice (source : Operand ω) (target : String) (bounds : Bounds)
  | splitOff (name target : String) (position : Nat)
  | clone (name target : String)
  | tryClone (name target : String)

def insertAt (index : Nat) (new : List Bool) : Attempt (List Bool) Unit := do
  let bits ← get
  if index ≤ bits.length then set (bits.take index ++ new ++ bits.drop index)
  else Attempt.fail (.outOfRange index bits.length)

namespace Growth

def onList (growth : Growth) (other : List Bool) : Attempt (List Bool) Unit :=
  match growth with
  | reserve _ => return ()
  | resize count value => modify fun bits => Holding.resized bits count value
  | push value => modify fun bits => bits ++ [value]
  | insert index value => insertAt index [value]
  | insertMany index n value => insertAt index (List.replicate n value)
  | extendFrom => modify fun bits => bits ++ other

/-- The number of bits that have to be held for a growth, none if it fails for its position. -/
def total (growth : Growth) (bits other : List Bool) : Nat :=
  match growth with
  | reserve additional => bits.length + additional
  | resize count _ => count
  | push _ => bits.length + 1
  | insert index _ => if index ≤ bits.length then bits.length + 1 else 0
  | insertMany index n _ => if index ≤ bits.length then bits.length + n else 0
  | extendFrom => bits.length + other.length

end Growth

namespace Task

def popLast : Attempt (List Bool) (Option Bool) := do
  let bits ← get
  set bits.dropLast
  return bits.getLast?

def eraseAt (index : Nat) : Attempt (List Bool) Bool := do
  let bits ← get
  match bits[index]? with
  | some value => do
      set (bits.eraseIdx index)
      return value
  | none => Attempt.fail (.outOfRange index bits.length)

def setAt (index : Nat) (value : Bool) : Attempt (List Bool) Unit := do
  let bits ← get
  if index < bits.length then set (bits.set index value)
  else Attempt.panic (.position index bits.length)

def onRange (bounds : Bounds) (new : List Bool → Extent → List Bool) :
    Attempt (List Bool) Unit := do
  let bits ← get
  let extent : Extent := ⟨bounds.first, bounds.past bits.length⟩
  match bounds.panic bits.length with
  | none => set (splice bits extent.start extent.stop (new bits extent))
  | some panic => Attempt.panic panic

def eraseFrom (bounds : Bounds) : Attempt (List Bool) Unit := do
  let bits ← get
  match bounds.misfit bits.length with
  | none => set (bits.take bounds.first ++ bits.drop (bounds.past bits.length))
  | some error => Attempt.fail error

def onList (task : Task) (other : List Bool) : Attempt (List Bool) Reply :=
  let plain (attempt : Attempt (List Bool) Unit) : Attempt (List Bool) Reply :=
    (fun _ => .done) <$> attempt
  match task with
  | .grow growth => plain (growth.onList other)
  | .force growth => plain (growth.onList other).orPanic
  | .truncate count => plain (modify fun bits => bits.take count)
  | .clear => plain (set ([] : List Bool))
  | .shrinkToFit => plain (return ())
  | .pop => .bit <$> popLast
  | .erase index => .flag <$> eraseAt index
  | .eraseRange bounds => plain (eraseFrom bounds)
  | .setBit index value => plain (setAt index value)
  | .fillRange bounds value =>
      plain (onRange bounds fun _ extent => List.replicate extent.size value)
  | .flipRange bounds => plain (onRange bounds fun bits extent =>
      ((bits.drop extent.start).take extent.size).map not)

def total (task : Task) (bits other : List Bool) : Nat :=
  match task with
  | .grow growth => growth.total bits other
  | .force growth => growth.total bits other
  | _ => 0

def toEdit : Task → Edit
  | grow growth => .grow growth
  | force growth => .force growth
  | truncate bits => .truncate bits
  | clear => .clear
  | shrinkToFit => .shrinkToFit
  | pop => .pop
  | erase index => .erase index
  | eraseRange bounds => .eraseRange bounds
  | setBit index value => .change (.set index value)
  | fillRange bounds value => .change (.fillRange bounds value)
  | flipRange bounds => .change (.flipRange bounds)

end Task

namespace Operand
variable {α β : Type}

def map (change : α → β) : Operand α → Operand β
  | given bits => .given (change bits)
  | vector name => .vector name

def list (lists : Lists) : Operand (List Bool) → List Bool
  | given bits => bits
  | vector name => lists name

end Operand

namespace Command
variable {α β : Type} {w : Nat}

def map (change : α → β) : Command α → Command β
  | edit name task beside => .edit name task (beside.map change)
  | slice source target bounds => .slice (source.map change) target bounds
  | splitOff name target position => .splitOff name target position
  | clone name target => .clone name target
  | tryClone name target => .tryClone name target

def toAction : Command (Window w) → Action w
  | edit name task beside => .work .inPlace name task.toEdit beside
  | slice source target bounds => .slice source target bounds
  | splitOff name target position => .splitOff name target position
  | clone name target => .clone name target
  | tryClone name target => .tryClone name target

def resolving (bounds : Bounds) (length : Nat) (next : Extent → Lists) : Attempt Lists Reply :=
  match bounds.panic length with
  | none => do
      set (next ⟨bounds.first, bounds.past length⟩)
      return .done
  | some panic => Attempt.panic panic

def onLists (command : Command (List Bool)) : Attempt Lists Reply := do
  let lists : Lists ← get
  match command with
  | edit name task beside =>
      (task.onList (beside.list lists)).within (fun lists : Lists => lists name)
        fun lists bits => lists.put name bits
  | slice source target bounds =>
      let bits := source.list lists
      resolving bounds bits.length fun extent =>
        lists.put target ((bits.drop extent.start).take extent.size)
  | splitOff name target position =>
      let bits := lists name
      resolving (Bounds.startingAt position) bits.length fun extent =>
        (lists.put name (bits.take position)).put target
          ((bits.drop extent.start).take extent.size)
  | clone name target => do
      set (lists.put target (lists name))
      return .done
  | tryClone name target => do
      set (lists.put target (lists name))
      return .done

def total (command : Command (List Bool)) (lists : Lists) : Nat :=
  match command with
  | edit name task beside => task.total (lists name) (beside.list lists)
  | slice source _ bounds =>
      match bounds.panic (source.list lists).length with
      | none => bounds.past (source.list lists).length - bounds.first
      | some _ => 0
  | _ => 0

def listTrace : List (Command (List Bool)) → Lists → Trace
  | [], _ => []
  | command :: rest, lists =>
      let (reply, lists) := command.onLists.outcome lists
      (reply, lists.sight) :: listTrace rest lists

theorem listTrace_cons (command : Command (List Bool)) (rest : List (Command (List Bool)))
    (lists : Lists) :
    listTrace (command :: rest) lists = ((command.onLists.outcome lists).1,
      (command.onLists.outcome lists).2.sight) ::
        listTrace rest (command.onLists.outcome lists).2 := rfl

def listsAfter : List (Command (List Bool)) → Lists → Lists
  | [], lists => lists
  | command :: rest, lists => listsAfter rest (command.onLists.outcome lists).2

/-- No command of a run asks for more bits than `max`. -/
def Fit (max : Nat) : List (Command (List Bool)) → Lists → Prop
  | [], _ => True
  | command :: rest, lists =>
      command.total lists ≤ max ∧ Fit max rest (command.onLists.outcome lists).2

end Command

namespace Attempt
variable {σ τ α β : Type}

theorem outcome_congr {attempt other : Attempt σ α} {start : σ}
    (same : attempt start = other start) : attempt.outcome start = other.outcome start := by
  unfold outcome
  rw [same]

theorem outcome_within (attempt : Attempt τ α) (part : σ → τ) (put : σ → τ → σ) (start : σ) :
    (attempt.within part put).outcome start =
      ((attempt.outcome (part start)).1, put start (attempt.outcome (part start)).2) := by
  unfold outcome within
  cases attempt (part start) with
  | ok value state => rfl
  | error failure state => rfl

end Attempt

namespace Operand
variable {ω : Type}

def Among (kept : String → Prop) : Operand ω → Prop
  | given _ => True
  | vector name => kept name

end Operand

namespace Lists

/-- The same lists under the kept names. -/
def Alike (kept : String → Prop) (a b : Lists) : Prop := ∀ name, kept name → a name = b name

variable {kept : String → Prop} {a b : Lists}

theorem Alike.operand (alike : Alike kept a b) {operand : Operand (List Bool)}
    (among : operand.Among kept) : operand.list a = operand.list b := by
  cases operand with
  | given bits => rfl
  | vector name => exact alike name among

theorem Alike.put (alike : Alike kept a b) (name : String) (bits : List Bool) :
    Alike kept (a.put name bits) (b.put name bits) := by
  intro other keep
  unfold Lists.put
  by_cases same : other = name
  · rw [if_pos same, if_pos same]
  · rw [if_neg same, if_neg same]
    exact alike other keep

theorem Alike.put_idle (alike : Alike kept a b) {name target : String}
    (idle : target = name ∨ ¬ kept target) : Alike kept a (b.put target (b name)) := by
  intro other keep
  unfold Lists.put
  by_cases same : other = target
  · rw [if_pos same]
    rcases idle with rfl | dropped
    · rw [← same]
      exact alike other keep
    · exact absurd (same ▸ keep) dropped
  · rw [if_neg same]
    exact alike other keep

end Lists

namespace Command

section
variable {ω : Type}

def Among (kept : String → Prop) : Command ω → Prop
  | edit name _ beside => kept name ∧ beside.Among kept
  | slice source target _ => source.Among kept ∧ kept target
  | splitOff name target _ => kept name ∧ kept target
  | clone name target => kept name ∧ kept target
  | tryClone name target => kept name ∧ kept target

/-- Making room, giving room back, and copying a vector onto itself or where no one looks. -/
inductive Idle (kept : String → Prop) : Command ω → Prop
  | tryReserve (name additional beside) :
      Idle kept (.edit name (.grow (.reserve additional)) beside)
  | reserve (name additional beside) :
      Idle kept (.edit name (.force (.reserve additional)) beside)
  | shrinkToFit (name beside) : Idle kept (.edit name .shrinkToFit beside)
  | tryClone {name target} (unseen : target = name ∨ ¬ kept target) :
      Idle kept (.tryClone name target)
  | clone {name target} (unseen : target = name ∨ ¬ kept target) :
      Idle kept (.clone name target)

/-- One run is the other with idle commands put in anywhere. -/
inductive Padded (kept : String → Prop) : List (Command ω) → List (Command ω) → Prop
  | nil : Padded kept [] []
  | keep {command plain longer} (among : Among kept command) (rest : Padded kept plain longer) :
      Padded kept (command :: plain) (command :: longer)
  | idle {command plain longer} (idle : Idle kept command) (rest : Padded kept plain longer) :
      Padded kept plain (command :: longer)

end

variable {kept : String → Prop} {a b : Lists}

theorem outcome_edit (name : String) (task : Task) (beside : Operand (List Bool)) (lists : Lists) :
    (edit name task beside).onLists.outcome lists =
      (((task.onList (beside.list lists)).outcome (lists name)).1,
        lists.put name ((task.onList (beside.list lists)).outcome (lists name)).2) :=
  Attempt.outcome_within (task.onList (beside.list lists)) (fun lists : Lists => lists name)
    (fun lists bits => lists.put name bits) lists

theorem onLists_slice (source : Operand (List Bool)) (target : String) (bounds : Bounds)
    (lists : Lists) :
    (slice source target bounds).onLists lists =
      resolving bounds (source.list lists).length (fun extent => lists.put target
        (((source.list lists).drop extent.start).take extent.size)) lists := rfl

theorem onLists_splitOff (name target : String) (position : Nat) (lists : Lists) :
    (splitOff name target position).onLists lists =
      resolving (Bounds.startingAt position) (lists name).length (fun extent =>
        (lists.put name ((lists name).take position)).put target
          (((lists name).drop extent.start).take extent.size)) lists := rfl

theorem resolving_alike (alike : Lists.Alike kept a b) (bounds : Bounds) (length : Nat)
    {next next' : Extent → Lists}
    (after : ∀ extent, Lists.Alike kept (next extent) (next' extent)) :
    ((resolving bounds length next).outcome a).1 = ((resolving bounds length next').outcome b).1 ∧
      Lists.Alike kept ((resolving bounds length next).outcome a).2
        ((resolving bounds length next').outcome b).2 := by
  unfold resolving
  cases bounds.panic length with
  | none => exact ⟨rfl, after _⟩
  | some panic => exact ⟨rfl, alike⟩

theorem outcome_alike {command : Command (List Bool)} (among : command.Among kept)
    (alike : Lists.Alike kept a b) :
    (command.onLists.outcome a).1 = (command.onLists.outcome b).1 ∧
      Lists.Alike kept (command.onLists.outcome a).2 (command.onLists.outcome b).2 := by
  cases command with
  | edit name task beside =>
      rw [outcome_edit, outcome_edit, alike.operand among.2, alike name among.1]
      exact ⟨rfl, alike.put name _⟩
  | slice source target bounds =>
      rw [Attempt.outcome_congr (onLists_slice ..), Attempt.outcome_congr (onLists_slice ..),
        alike.operand among.1]
      exact resolving_alike alike _ _ fun extent => alike.put target _
  | splitOff name target position =>
      rw [Attempt.outcome_congr (onLists_splitOff ..), Attempt.outcome_congr (onLists_splitOff ..),
        alike name among.1]
      exact resolving_alike alike _ _ fun extent => (alike.put name _).put target _
  | clone name target =>
      refine ⟨rfl, ?_⟩
      show Lists.Alike kept (a.put target (a name)) (b.put target (b name))
      rw [alike name among.1]
      exact alike.put target _
  | tryClone name target =>
      refine ⟨rfl, ?_⟩
      show Lists.Alike kept (a.put target (a name)) (b.put target (b name))
      rw [alike name among.1]
      exact alike.put target _

theorem outcome_idle {command : Command (List Bool)} (idle : command.Idle kept)
    (alike : Lists.Alike kept a b) : Lists.Alike kept a (command.onLists.outcome b).2 := by
  cases idle with
  | tryReserve name additional beside => exact alike.put_idle (.inl rfl)
  | reserve name additional beside => exact alike.put_idle (.inl rfl)
  | shrinkToFit name beside => exact alike.put_idle (.inl rfl)
  | tryClone unseen => exact alike.put_idle unseen
  | clone unseen => exact alike.put_idle unseen

/-- What can be seen under the kept names. -/
def narrow (kept : String → Prop) (entry : Query Reply × Sight) :
    Query Reply × ({ name : String // kept name } → Nat × Query (List Bool)) :=
  (entry.1, fun name => entry.2 name.val)

theorem narrow_alike (alike : Lists.Alike kept a b) (reply : Query Reply) :
    narrow kept (reply, a.sight) = narrow kept (reply, b.sight) := by
  have same : (fun name : { name : String // kept name } => a.sight name.val) =
      fun name => b.sight name.val := by
    funext name
    unfold Lists.sight
    rw [alike name.val name.property]
  exact congrArg (Prod.mk reply) same

theorem listTrace_padded {plain longer : List (Command (List Bool))}
    (padded : Padded kept plain longer) (alike : Lists.Alike kept a b) :
    ((listTrace plain a).map (narrow kept)).Sublist ((listTrace longer b).map (narrow kept)) ∧
      Lists.Alike kept (listsAfter plain a) (listsAfter longer b) := by
  induction padded generalizing a b with
  | nil => exact ⟨.slnil, alike⟩
  | @keep command plain longer among rest ih =>
      obtain ⟨reply, after⟩ := outcome_alike among alike
      obtain ⟨later, final⟩ := ih after
      refine ⟨?_, final⟩
      -- Both runs take this command, from lists that look alike to it.
      rw [listTrace_cons, listTrace_cons, List.map_cons, List.map_cons, reply, narrow_alike after]
      exact later.cons_cons _
  | @idle command plain longer idle rest ih =>
      obtain ⟨later, final⟩ := ih (outcome_idle idle alike)
      rw [listTrace_cons, List.map_cons]
      -- Only the longer run takes this one, which shows in its own entry alone.
      exact ⟨later.cons _, final⟩

end Command

end PackedBits
