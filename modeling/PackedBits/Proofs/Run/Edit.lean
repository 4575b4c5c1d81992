import PackedBits.Proofs.Run.Lists

/-! What one edit does to a vector. Room is asked for first, and once it is there the edit does to
the bits what it does to a list of them. An edit that stops, because the list stops it or because
the room is denied, has changed neither the bits nor the room. -/
namespace PackedBits

namespace Attempt
variable {σ α β : Type}

theorem outcome_map (attempt : Attempt σ α) (change : α → β) (start : σ) :
    (change <$> attempt).outcome start =
      ((attempt.outcome start).1.map change, (attempt.outcome start).2) := by
  cases ran : attempt start with
  | ok value state =>
      rw [outcome_ok ran, outcome_ok (map_ok ran change)]
      rfl
  | error failure state =>
      rw [outcome_error ran, outcome_error (map_error ran change)]
      rfl

end Attempt

section Lists

namespace Task

theorem eraseAt_inside {index : Nat} {bits : List Bool} {value : Bool}
    (found : bits[index]? = some value) :
    eraseAt index bits = .ok value (bits.eraseIdx index) := by
  unfold eraseAt
  rw [Attempt.get_bind_apply, found]
  rfl

theorem eraseAt_outside {index : Nat} {bits : List Bool} (outside : ¬ index < bits.length) :
    eraseAt index bits = .error (.error (.outOfRange index bits.length)) bits := by
  unfold eraseAt
  rw [Attempt.get_bind_apply, List.getElem?_eq_none (Nat.le_of_not_lt outside)]
  rfl

end Task

theorem insertAt_inside {index : Nat} {bits : List Bool} (new : List Bool)
    (inside : index ≤ bits.length) :
    insertAt index new bits = .ok () (bits.take index ++ new ++ bits.drop index) := by
  unfold insertAt
  rw [Attempt.get_bind_apply, if_pos inside]
  rfl

theorem insertAt_outside {index : Nat} {bits : List Bool} (new : List Bool)
    (outside : ¬ index ≤ bits.length) :
    insertAt index new bits = .error (.error (.outOfRange index bits.length)) bits := by
  unfold insertAt
  rw [Attempt.get_bind_apply, if_neg outside]
  rfl

variable {bounds : Bounds} {bits : List Bool}

theorem eraseFrom_ok (fit : bounds.misfit bits.length = none) :
    Task.eraseFrom bounds bits =
      .ok () (bits.take bounds.first ++ bits.drop (bounds.past bits.length)) := by
  unfold Task.eraseFrom
  rw [Attempt.get_bind_apply, fit]
  rfl

theorem eraseFrom_error {error : Error} (misfit : bounds.misfit bits.length = some error) :
    Task.eraseFrom bounds bits = .error (.error error) bits := by
  unfold Task.eraseFrom
  rw [Attempt.get_bind_apply, misfit]
  rfl

end Lists

def Attempt.rewriting {α : Type} (question : List Bool → Query (α × List Bool)) :
    Attempt (List Bool) α := fun bits =>
  match question bits with
  | .ok (value, after) => .ok value after
  | .error failure => .error failure bits

namespace Edit

def padded (bits : List Bool) (length : Nat) : List Bool :=
  Holding.resized bits (max bits.length length) false

def onList (edit : Edit) (other : List Bool) : Attempt (List Bool) Reply :=
  let plain (attempt : Attempt (List Bool) Unit) : Attempt (List Bool) Reply :=
    (fun _ => .done) <$> attempt
  match edit with
  | grow growth => plain (growth.onList other)
  | force growth => plain (growth.onList other).orPanic
  | reserveTotal _ => plain (return ())
  | extend _ bits => plain (modify fun before => before ++ bits)
  | truncate count => plain (modify fun bits => bits.take count)
  | clear => plain (set ([] : List Bool))
  | shrinkToFit => plain (return ())
  | pop => .bit <$> Task.popLast
  | erase index => .flag <$> Task.eraseAt index
  | eraseRange bounds => plain (Task.eraseFrom bounds)
  | union => plain (modify fun bits => OnList.combine .or other (padded bits other.length))
  | intersection => plain (modify (OnList.andWith other))
  | difference => plain (modify (OnList.combine .andNot other))
  | symmetricDifference =>
      plain (modify fun bits => OnList.combine .xor other (padded bits other.length))
  | change inner => .rewriting (inner.onList other)

/-- The number of bits in all that an edit asks room for. -/
def total (edit : Edit) (bits other : List Bool) : Nat :=
  match edit with
  | grow growth => growth.total bits other
  | force growth => growth.total bits other
  | reserveTotal total => total
  | extend announced more => bits.length + max announced more.length
  | union => max bits.length other.length
  | symmetricDifference => max bits.length other.length
  | _ => 0

/-- Edits that ask for room once at most and give none back. -/
def Single : Edit → Prop
  | extend .. => False
  | shrinkToFit => False
  | _ => True

end Edit

variable {S α β : Type} {w : Nat} [HasBits w] [Storage S w] [StorageSpec S w]

namespace Holding

/-- Room for `total` bits was denied, and nothing but the number of requests has changed. -/
structure Denied (policy : Policy) (refusals : Nat) (others : List Grant) (h : Holding S)
    (total : Nat) (h' : Holding S) : Prop where
  storage : h'.storage = h.storage
  sound : h'.Sound policy refusals others
  short : total ≤ Storage.maxBits S → ¬ total ≤ Storage.capacity h.storage
  counted : Storage.Allows S policy total → h'.Sound policy (refusals + 1) others

/-- The attempt does to the bits of a vector what `abstract` does to a list, in room for `total`
bits; or it has no effect, because the list stops it or because the room is denied. -/
def Performs (policy : Policy) (refusals : Nat) (others : List Grant) (h : Holding S)
    (attempt : Attempt (Holding S) α) (abstract : Attempt (List Bool) α) (total : Nat) : Prop :=
  attempt.Ends h
    (fun value h' => h'.Sound policy refusals others ∧ abstract h.list = .ok value h'.list ∧
      h.Reserved total h')
    fun failure h' =>
      (h'.Sound policy refusals others ∧ abstract h.list = .error failure h.list ∧
        h'.list = h.list ∧ h.SameRoom h') ∨
      h.Denied policy refusals others total h'

variable {policy : Policy} {refusals : Nat} {others : List Grant} {h : Holding S}

namespace Performs
variable {attempt : Attempt (Holding S) α} {abstract : Attempt (List Bool) α} {total : Nat}

omit [HasBits w] in
theorem map (performs : h.Performs policy refusals others attempt abstract total)
    (change : α → β) :
    h.Performs policy refusals others (change <$> attempt) (change <$> abstract) total := by
  refine Attempt.Ends.map (Attempt.Ends.imp performs (fun _ _ => id) ?_) ?_
  · rintro failure h' (⟨sound, stopped, same⟩ | denied)
    · exact .inl ⟨sound, Attempt.map_error stopped change, same⟩
    · exact .inr denied
  · rintro value h' ⟨sound, same, reserved⟩
    exact ⟨sound, Attempt.map_ok same change, reserved⟩

omit [HasBits w] in
theorem orPanic (performs : h.Performs policy refusals others attempt abstract total) :
    h.Performs policy refusals others attempt.orPanic abstract.orPanic total := by
  refine Attempt.Ends.orPanic (Attempt.Ends.imp performs ?_ fun _ _ => id) ?_
  · rintro value h' ⟨sound, same, reserved⟩
    exact ⟨sound, Attempt.orPanic_ok same, reserved⟩
  · rintro failure h' (⟨sound, stopped, same⟩ | denied)
    · exact .inl ⟨sound, Attempt.orPanic_error stopped, same⟩
    · exact .inr denied

end Performs

variable [LawfulStorage S w]

omit [HasBits w] [LawfulStorage S w] in
theorem Denied.of_refused [HasBits w] [LawfulStorage S w] {total : Nat} {failure : Failure}
    {h' : Holding S} {cause : Option Error}
    (refused : h.Refused policy refusals others cause (Storage.Allows S policy total) failure h')
    (short : total < maxSize → cause = Storage.shortage h total) :
    h.Denied policy refusals others total h' where
  storage := refused.storage
  sound := refused.sound
  short small room := by
    obtain ⟨error, -, known⟩ := refused.cause
    rw [short (Nat.lt_of_le_of_lt small LawfulStorage.maxBits_lt),
      Storage.shortage_eq_none small room] at known
    cases known
  counted := refused.counted

theorem Denied.of_growth {n : Nat} {failure : Failure} {h' : Holding S}
    (refused : h.Refused policy refusals others (BitVector.growth h n)
      (Storage.Allows S policy (BitVector.len h + n)) failure h') :
    h.Denied policy refusals others (BitVector.len h + n) h' :=
  .of_refused refused fun size => if_neg (Nat.not_lt.mpr (Nat.le_of_lt size))

theorem Performs.of_done {attempt : Attempt (Holding S) α} {abstract : Attempt (List Bool) α}
    (sound : h.Sound policy refusals others)
    (ends : attempt.Ends h (fun value h' => h'.Sound policy refusals others ∧
      abstract h.list = .ok value h'.list ∧ h.SameRoom h') fun _ _ => False) :
    h.Performs policy refusals others attempt abstract 0 :=
  ends.imp (fun _ _ ⟨after, same, room⟩ =>
    ⟨after, same, room.reserved sound.storage (Nat.zero_le _)⟩) fun _ _ => False.elim

theorem Sound.inPlace_does {attempt : Attempt (Span w) α} {outcome : Query (α × List Bool)}
    (sound : h.Sound policy refusals others)
    (does : (Container.span h.storage).Does attempt outcome) :
    (inPlace attempt).Ends h
      (fun value h' => Touched policy refusals others h h' ∧ outcome = .ok (value, h'.list))
      fun failure h' =>
        Touched policy refusals others h h' ∧ h'.list = h.list ∧ outcome = .error failure := by
  have ends : attempt.Ends (Container.span h.storage)
      (fun value s' => Span.Within (Container.span h.storage) s' ∧
        outcome = .ok (value, s'.toList))
      fun failure s' => Span.Within (Container.span h.storage) s' ∧
        s'.toList = h.list ∧ outcome = .error failure := by
    refine Attempt.Ends.imp does (fun _ _ => id) ?_
    rintro failure s' ⟨rfl, -, stopped⟩
    exact ⟨Span.Within.refl _, rfl, stopped⟩
  exact sound.inPlace_ends ends

theorem Performs.inPlace {attempt : Attempt (Span w) α}
    {question : List Bool → Query (α × List Bool)} (sound : h.Sound policy refusals others)
    (does : (Container.span h.storage).Does attempt (question h.list)) :
    h.Performs policy refusals others (inPlace attempt) (.rewriting question) 0 := by
  refine (sound.inPlace_does does).imp ?_ ?_
  · rintro value h' ⟨touched, same⟩
    exact ⟨touched.sound, by simp only [Attempt.rewriting, same],
      touched.room.reserved sound.storage (Nat.zero_le _)⟩
  · rintro failure h' ⟨touched, list, stopped⟩
    exact .inl ⟨touched.sound, by simp only [Attempt.rewriting, stopped], list, touched.room⟩

end Holding

variable [LawfulStorage S w] {policy : Policy} {refusals : Nat} {others : List Grant}
  {h : Holding S} {other : Span w}

theorem insertMany_performs (sound : h.Sound policy refusals others) (index n : Nat)
    (value : Bool) :
    h.Performs policy refusals others (BitVector.tryInsertMany index n value)
      (insertAt index (List.replicate n value))
      (if index ≤ h.list.length then h.list.length + n else 0) := by
  rw [BitVector.length_list]
  refine (BitVector.tryInsertMany_ends sound index n value).imp ?_ ?_
  · rintro ⟨⟩ h' ⟨sound', inside, -, list, reserved⟩
    rw [if_pos inside]
    rw [← BitVector.length_list] at inside
    exact ⟨sound', by rw [list]; exact insertAt_inside _ inside, reserved⟩
  · rintro failure h' (⟨outside, rfl, rfl⟩ | ⟨inside, refused⟩)
    · rw [← BitVector.length_list] at outside ⊢
      exact .inl ⟨sound, insertAt_outside _ outside, rfl, .refl h'⟩
    · rw [if_pos inside]
      exact .inr (.of_growth refused)

theorem Growth.attempt_performs (sound : h.Sound policy refusals others) (growth : Growth)
    (held : other.Held) :
    h.Performs policy refusals others (growth.attempt other) (growth.onList other.toList)
      (growth.total h.list other.toList) := by
  cases growth with
  | reserve additional =>
      rw [total, BitVector.length_list]
      refine (BitVector.tryReserve_ends sound additional).imp ?_ fun _ _ refused =>
        .inr (.of_growth refused)
      rintro ⟨⟩ h' ⟨sound', list, -, reserved⟩
      exact ⟨sound', by rw [list]; rfl, reserved⟩
  | resize count value =>
      refine (sound.resize_ends count value).imp ?_ fun _ _ refused =>
        .inr (.of_refused refused fun _ => rfl)
      rintro ⟨⟩ h' ⟨sound', list, -, reserved⟩
      exact ⟨sound', by rw [list]; rfl, reserved⟩
  | push value =>
      rw [total, BitVector.length_list]
      refine (BitVector.tryPush_ends sound value).imp ?_ fun _ _ refused =>
        .inr (.of_refused refused fun _ => rfl)
      rintro ⟨⟩ h' ⟨sound', list, -, reserved⟩
      exact ⟨sound', by rw [list]; rfl, reserved⟩
  | insert index value => exact insertMany_performs sound index 1 value
  | insertMany index n value => exact insertMany_performs sound index n value
  | extendFrom =>
      rw [total, BitVector.length_list, Span.length_toList]
      refine (BitVector.tryExtendFrom_ends sound held).imp ?_ fun _ _ refused =>
        .inr (.of_growth refused)
      rintro ⟨⟩ h' ⟨sound', list, -, reserved⟩
      exact ⟨sound', by rw [list]; rfl, reserved⟩

namespace Edit
variable {bits : List Bool} {length : Nat}

theorem padded_more (more : bits.length ≤ length) :
    padded bits length = Holding.resized bits length false := by
  rw [padded, Nat.max_eq_right more]

theorem padded_less (less : length ≤ bits.length) : padded bits length = bits := by
  rw [padded, Nat.max_eq_left less, Holding.resized_less (Nat.le_refl _), List.take_length]

end Edit

theorem growTo_performs (sound : h.Sound policy refusals others) (bits : Nat) :
    h.Performs policy refusals others (BitVector.growTo bits)
      (modify fun before => Edit.padded before bits) (max h.list.length bits) := by
  rw [BitVector.length_list]
  refine .get_bind ?_
  by_cases more : BitVector.len h < bits
  · rw [if_pos more, Nat.max_eq_right (Nat.le_of_lt more)]
    refine Attempt.Ends.imp ((sound.resize_ends bits false).orPanic fun _ _ refused =>
      .inr (.of_refused refused fun _ => rfl)) ?_ fun _ _ => id
    rintro ⟨⟩ h' ⟨sound', list, -, reserved⟩
    have longer : h.list.length ≤ bits := by
      rw [BitVector.length_list]
      exact Nat.le_of_lt more
    exact ⟨sound', by rw [list, ← Edit.padded_more longer]; rfl, reserved⟩
  · rw [if_neg more, Nat.max_eq_left (Nat.le_of_not_lt more)]
    have enough : bits ≤ h.list.length := by
      rw [BitVector.length_list]
      exact Nat.le_of_not_lt more
    refine ⟨sound, ?_, (Holding.SameRoom.refl h).reserved sound.storage (Nat.le_refl _)⟩
    show EStateM.Result.ok () (Edit.padded h.list bits) = .ok () h.list
    rw [Edit.padded_less enough]

theorem grown_performs {change : Attempt (Span w) Unit} {result : List Bool → List Bool}
    (sound : h.Sound policy refusals others)
    (does : ∀ s : Span w, s.Held → s.Does change (.ok ((), result s.toList))) :
    h.Performs policy refusals others (do BitVector.growTo other.len; inPlace change)
      (modify fun bits => result (Edit.padded bits other.toList.length))
      (max h.list.length other.toList.length) := by
  rw [Span.length_toList]
  refine Attempt.Ends.bind (Attempt.Ends.imp (growTo_performs sound other.len)
    (fun _ _ => id) ?_) ?_
  · rintro failure h' (⟨-, stopped, -⟩ | denied)
    · cases stopped
    · exact .inr denied
  · rintro ⟨⟩ h₁ ⟨sound₁, padded, reserved⟩
    have list : Edit.padded h.list other.len = h₁.list := congrArg (fun
      | .ok _ bits => bits
      | .error _ bits => bits) padded
    refine (sound₁.inPlace_does (does _ (Storage.held sound₁.storage))).imp ?_ ?_
    · rintro ⟨⟩ h' ⟨touched, same⟩
      have result : result h₁.list = h'.list := congrArg Prod.snd (Except.ok.inj same)
      refine ⟨touched.sound, ?_, reserved.trans touched.room⟩
      rw [← result, ← list]
      rfl
    · rintro failure h' ⟨-, -, stopped⟩
      cases stopped

theorem combined_performs {change : Attempt (Span w) Unit} {result : List Bool → List Bool}
    (sound : h.Sound policy refusals others)
    (does : (Container.span h.storage).Does change (.ok ((), result h.list))) :
    h.Performs policy refusals others (inPlace change) (modify result) 0 := by
  have performs : h.Performs policy refusals others (inPlace change)
      (.rewriting fun bits => .ok ((), result bits)) 0 := .inPlace sound does
  exact performs

/-- Every edit does what it does to a list, in the room that it asks for. -/
theorem Edit.attempt_performs (sound : h.Sound policy refusals others) {edit : Edit}
    (single : edit.Single) (held : other.Held) :
    h.Performs policy refusals others (edit.attempt other) (edit.onList other.toList)
      (edit.total h.list other.toList) := by
  cases edit with
  | grow growth => exact (growth.attempt_performs sound held).map _
  | force growth =>
      have forced := (growth.attempt_performs sound held).orPanic
      rw [← growth.forced_eq] at forced
      exact forced.map _
  | reserveTotal bits =>
      refine Holding.Performs.map (Attempt.Ends.imp
        (LawfulStorage.reserve_ends sound bits).traced ?_ fun _ _ stopped =>
          .inr (.of_refused stopped.2 fun _ => rfl)) _
      rintro ⟨⟩ h' ⟨ran, sound', list, -⟩
      exact ⟨sound', by rw [list]; rfl, h', ran, .refl h'⟩
  | extend announced bits => exact single.elim
  | truncate count =>
      refine .map (.of_done sound ((BitVector.truncate_ends sound count).imp ?_ fun _ _ => id)) _
      rintro ⟨⟩ h' ⟨sound', list, room⟩
      exact ⟨sound', by rw [list]; rfl, room⟩
  | clear =>
      refine .map (.of_done sound ((BitVector.clear_ends sound).imp ?_ fun _ _ => id)) _
      rintro ⟨⟩ h' ⟨sound', list, room⟩
      exact ⟨sound', by rw [list]; rfl, room⟩
  | shrinkToFit => exact single.elim
  | pop =>
      refine .map (.of_done sound ((BitVector.pop_ends sound).imp ?_ fun _ _ => id)) _
      rintro value h' ⟨sound', rfl, list, room⟩
      exact ⟨sound', by rw [list]; rfl, room⟩
  | erase index =>
      refine Holding.Performs.map ((BitVector.erase_ends sound index).imp ?_ ?_) _
      · rintro value h' ⟨sound', room, found, list⟩
        exact ⟨sound', by rw [list]; exact Task.eraseAt_inside found,
          room.reserved sound.storage (Nat.zero_le _)⟩
      · rintro failure h' ⟨outside, rfl, rfl⟩
        rw [← BitVector.length_list] at outside ⊢
        exact .inl ⟨sound, Task.eraseAt_outside outside, rfl, .refl h'⟩
  | eraseRange bounds =>
      have ends := BitVector.eraseRange_ends sound bounds
      have small : h.list.length < maxSize := by
        rw [BitVector.length_list]
        exact Nat.lt_of_le_of_lt (LawfulStorage.len_le_maxBits sound.storage)
          LawfulStorage.maxBits_lt
      rw [← BitVector.length_list] at ends
      refine Holding.Performs.map (ends.imp ?_ ?_) _
      · rintro ⟨⟩ h' ⟨sound', room, extent, checked, list⟩
        obtain ⟨rfl, fit⟩ := Bounds.check_ok small checked
        exact ⟨sound', by rw [list]; exact eraseFrom_ok fit,
          room.reserved sound.storage (Nat.zero_le _)⟩
      · rintro failure h' ⟨refused, rfl⟩
        obtain ⟨error, misfit, rfl⟩ := Bounds.check_error small refused
        exact .inl ⟨sound, eraseFrom_error misfit, rfl, .refl h'⟩
  | union => exact (grown_performs sound fun s heldSpan => Span.orWith_does heldSpan held).map _
  | intersection =>
      exact (combined_performs sound (Span.andWith_does (Storage.held sound.storage) held)).map _
  | difference =>
      exact (combined_performs sound (Span.andNotWith_does (Storage.held sound.storage) held)).map _
  | symmetricDifference =>
      exact (grown_performs sound fun s heldSpan => Span.xorWith_does heldSpan held).map _
  | change change =>
      exact .inPlace sound (change.attempt_does (Storage.held sound.storage) held)

end PackedBits
