import PackedBits.BitVector.Edit
import PackedBits.Proofs.Storage.Resize

/-! What every edit of a vector does to its list of bits and to its room, and exactly when it is
refused. An edit that grows tests its position, then its size, then asks for room; what is written
after that cannot fail. All other edits leave the room as it is. -/
namespace PackedBits.BitVector
variable {S : Type} {w : Nat} [HasBits w] [Storage S w] [StorageSpec S w]

/-- Why `n` more bits cannot be had. -/
def growth (h : Holding S) (n : Nat) : Option Error :=
  if maxSize < len h + n then some (.capacityExceeded maxSize (Storage.maxBits S))
  else Storage.shortage h (len h + n)

variable [LawfulStorage S w] {policy : Policy} {refusals : Nat} {others : List Grant}
  {h : Holding S}

theorem length_list (h : Holding S) : h.list.length = len h := Holding.length_list h

theorem span_held (sound : h.Sound policy refusals others) : (span h).Held :=
  Storage.held sound.storage

theorem grownLen_bind {α : Type} {n : Nat} {next : Nat → Attempt (Holding S) α}
    {done : α → Holding S → Prop} {failed : Failure → Holding S → Prop}
    (sound : h.Sound policy refusals others)
    (fits : growth h n = Storage.shortage h (len h + n) →
      (next (len h + n)).Ends h done failed)
    (refused : ∀ failure h', h.Refused policy refusals others (growth h n)
      (Storage.Allows S policy (len h + n)) failure h' → failed failure h') :
    (grownLen (len h) n (Storage.maxBits S) >>= next).Ends h done failed := by
  rw [grownLen]
  by_cases size : len h + n ≤ maxSize
  · rw [if_pos size]
    exact fits (if_neg (Nat.not_lt.mpr size))
  · rw [if_neg size]
    have cause : growth h n = some (.capacityExceeded maxSize (Storage.maxBits S)) :=
      if_pos (Nat.lt_of_not_le size)
    refine refused _ h ⟨⟨_, rfl, cause⟩, rfl, rfl, sound, fun allowed => ?_⟩
    -- A length that is no size cannot be held either.
    have below := LawfulStorage.maxBits_lt (S := S)
    have small := allowed.1
    omega

theorem tryReserve_ends (sound : h.Sound policy refusals others) (additional : Nat) :
    (tryReserve additional).Ends h
      (fun _ h' => h'.Sound policy refusals others ∧ h'.list = h.list ∧
        growth h additional = none ∧ h.Reserved (len h + additional) h')
      (h.Refused policy refusals others (growth h additional)
        (Storage.Allows S policy (len h + additional))) := by
  refine .get_bind (grownLen_bind sound (fun same => ?_) fun _ _ => id)
  rw [same]
  have reserved : (Storage.reserve (len h + additional)).Ends h _ _ :=
    LawfulStorage.reserve_ends sound (len h + additional)
  refine reserved.traced.imp ?_ fun _ _ stopped => stopped.2
  rintro ⟨⟩ h' ⟨ran, sound', list, -, -, free⟩
  exact ⟨sound', list, free, h', ran, .refl h'⟩

theorem resized_push (bits : List Bool) (value : Bool) :
    Holding.resized bits (bits.length + 1) value = bits ++ [value] := by
  rw [Holding.resized, List.take_of_length_le (Nat.le_succ _), Nat.add_sub_cancel_left]
  rfl

theorem resized_append (bits : List Bool) (n : Nat) (value : Bool) :
    Holding.resized bits (bits.length + n) value = bits ++ List.replicate n value := by
  rw [Holding.resized, List.take_of_length_le (Nat.le_add_right ..), Nat.add_sub_cancel_left]

theorem tryPush_ends (sound : h.Sound policy refusals others) (value : Bool) :
    (tryPush value).Ends h
      (fun _ h' => h'.Sound policy refusals others ∧ h'.list = h.list ++ [value] ∧
        Storage.shortage h (len h + 1) = none ∧ h.Reserved (len h + 1) h')
      (h.Refused policy refusals others (Storage.shortage h (len h + 1))
        (Storage.Allows S policy (len h + 1))) := by
  refine .get_bind ((sound.resize_ends (len h + 1) value).imp ?_ fun _ _ => id)
  rintro ⟨⟩ h' ⟨sound', list, free, reserved⟩
  rw [← length_list, resized_push] at list
  exact ⟨sound', list, free, reserved⟩

theorem grow_bind {α : Type} {n : Nat} {next : Nat → Attempt (Holding S) α}
    {done : α → Holding S → Prop} {failed : Failure → Holding S → Prop}
    (sound : h.Sound policy refusals others)
    (rest : ∀ h', h'.Sound policy refusals others → h'.list = h.list ++ List.replicate n false →
      growth h n = none → h.Reserved (len h + n) h' → (next (len h + n)).Ends h' done failed)
    (refused : ∀ failure h', h.Refused policy refusals others (growth h n)
      (Storage.Allows S policy (len h + n)) failure h' → failed failure h') :
    (do
      let total ← grownLen (len h) n (Storage.maxBits S)
      Storage.resize total false
      next total : Attempt (Holding S) α).Ends h done failed := by
  refine grownLen_bind sound (fun same => ?_) refused
  rw [same] at refused rest
  refine ((sound.resize_ends (len h + n) false).imp (fun _ _ => id) refused).bind ?_
  rintro ⟨⟩ h' ⟨sound', list, free, reserved⟩
  rw [← length_list, resized_append] at list
  exact rest h' sound' list free reserved

theorem truncate_ends (sound : h.Sound policy refusals others) (bits : Nat) :
    (truncate bits).Ends h
      (fun _ h' => h'.Sound policy refusals others ∧ h'.list = h.list.take bits ∧ h.SameRoom h')
      fun _ _ => False := by
  refine .get_bind ?_
  by_cases less : bits < len h
  · rw [if_pos less]
    exact sound.drop_ends (Nat.le_of_lt less)
  · rw [if_neg less]
    refine ⟨sound, (List.take_of_length_le ?_).symm, .refl h⟩
    rw [length_list]
    exact Nat.le_of_not_lt less

theorem clear_ends (sound : h.Sound policy refusals others) :
    clear.Ends h
      (fun _ h' => h'.Sound policy refusals others ∧ h'.list = [] ∧ h.SameRoom h')
      fun _ _ => False :=
  .get_bind (sound.drop_ends (Nat.zero_le _))

theorem pop_ends (sound : h.Sound policy refusals others) :
    pop.Ends h
      (fun value h' => h'.Sound policy refusals others ∧ value = h.list.getLast? ∧
        h'.list = h.list.dropLast ∧ h.SameRoom h') fun _ _ => False := by
  refine .get_bind ?_
  by_cases empty : len h = 0
  · rw [if_pos empty]
    have none : h.list = [] := List.eq_nil_of_length_eq_zero (by rw [length_list]; exact empty)
    exact ⟨sound, by rw [none]; rfl, by rw [none]; rfl, .refl h⟩
  · rw [if_neg empty]
    have below : len h - 1 < (span h).len := by
      rw [show (span h).len = len h from LawfulStorage.len_span h.storage]
      omega
    have read := Span.bitAt_eq (span_held sound) below
    refine .ask_answered read ((truncate_ends sound (len h - 1)).bind ?_)
    rintro ⟨⟩ h' ⟨sound', list, room⟩
    refine ⟨sound', ?_, ?_, room⟩
    · rw [List.getLast?_eq_getElem?, length_list]
      exact ((Span.getElem?_toList (span h) (len h - 1)).trans (if_pos below)).symm
    · rw [list, List.dropLast_eq_take, length_list]

/-- A position that is outside is refused before anything else is looked at. -/
def Outside (h : Holding S) (index : Nat) (inside : Prop) (failure : Failure) (h' : Holding S) :
    Prop :=
  ¬ inside ∧ failure = .error (.outOfRange index (len h)) ∧ h' = h

theorem tryInsertMany_ends (sound : h.Sound policy refusals others) (index n : Nat)
    (value : Bool) :
    (tryInsertMany index n value).Ends h
      (fun _ h' => h'.Sound policy refusals others ∧ index ≤ len h ∧ growth h n = none ∧
        h'.list = h.list.take index ++ List.replicate n value ++ h.list.drop index ∧
        h.Reserved (len h + n) h')
      fun failure h' => Outside h index (index ≤ len h) failure h' ∨ index ≤ len h ∧
        h.Refused policy refusals others (growth h n) (Storage.Allows S policy (len h + n))
          failure h' := by
  refine .get_bind ?_
  by_cases outside : len h < index
  · rw [if_pos outside]
    exact .inl ⟨Nat.not_le.mpr outside, rfl, rfl⟩
  · rw [if_neg outside]
    have inside : index ≤ len h := Nat.le_of_not_lt outside
    refine grow_bind sound ?_ fun failure h' refused => .inr ⟨inside, refused⟩
    intro h₁ sound₁ grown free reserved
    have length : len h + n = (span h₁).len := by
      rw [show (span h₁).len = h₁.list.length from (Span.length_toList _).symm, grown,
        List.length_append, List.length_replicate, length_list]
    have inserted := Span.insert_ends (span_held sound₁) value inside length
    refine Attempt.Ends.imp (sound₁.inPlace_done (.get_bind inserted)) ?_ fun _ _ => False.elim
    rintro ⟨⟩ h₂ ⟨touched, list⟩
    refine ⟨touched.sound, inside, free, ?_, reserved.trans touched.room⟩
    have whole : (span h₁).toList = h.list ++ List.replicate n false := grown
    -- The clear bits grown at the end are written over by the move.
    have reach : index ≤ h.list.length := by rwa [length_list]
    rw [whole, ← length_list, List.take_left, List.take_append_of_le_length reach] at list
    exact list

theorem eraseRange_ends (sound : h.Sound policy refusals others) (bounds : Bounds) :
    (eraseRange bounds).Ends h
      (fun _ h' => h'.Sound policy refusals others ∧ h.SameRoom h' ∧
        ∃ extent, bounds.check (len h) = .ok extent ∧
          h'.list = h.list.take extent.start ++ h.list.drop extent.stop)
      fun failure h' => bounds.check (len h) = .error failure ∧ h' = h := by
  refine .get_bind (.ask_bind ?_ fun failure refused => ⟨refused, rfl⟩)
  intro extent checked
  obtain ⟨order, inside⟩ := Bounds.check_within checked
  have size := Extent.start_add_size order
  by_cases nothing : extent.size = 0
  · rw [if_pos nothing]
    refine ⟨sound, .refl h, extent, checked, ?_⟩
    rw [show extent.stop = extent.start by omega, List.take_append_drop]
  · rw [if_neg nothing]
    have length : (span h).len = len h := LawfulStorage.len_span h.storage
    have within : extent.stop + (len h - extent.stop) ≤ (span h).len := by omega
    have moved := Span.copy_ends (span_held sound) order within
    refine Attempt.Ends.bind (Attempt.Ends.imp (sound.inPlace_done (.get_bind moved))
      (fun _ _ => id) fun _ _ => False.elim) ?_
    rintro ⟨⟩ h₁ ⟨touched, list⟩
    -- The bits above have moved down over the gap; what is left of them at the end is dropped.
    refine (truncate_ends touched.sound (len h - extent.size)).imp ?_ fun _ _ => False.elim
    rintro ⟨⟩ h₂ ⟨sound₂, cut, room⟩
    refine ⟨sound₂, touched.room.trans room, extent, checked, ?_⟩
    have moved : h₁.list = splice h.list extent.start (extent.start + (len h - extent.stop))
        ((h.list.drop extent.stop).take (len h - extent.stop)) := list
    have upper : (h.list.drop extent.stop).take (len h - extent.stop) = h.list.drop extent.stop :=
      List.take_of_length_le (Nat.le_of_eq (by rw [List.length_drop, length_list]))
    have count : (h.list.take extent.start ++ h.list.drop extent.stop).length =
        len h - extent.size := by
      rw [List.length_append, List.length_take, List.length_drop, length_list]
      omega
    rw [cut, moved, upper, splice, ← count, List.take_left]

theorem erase_ends (sound : h.Sound policy refusals others) (index : Nat) :
    (erase index).Ends h
      (fun value h' => h'.Sound policy refusals others ∧ h.SameRoom h' ∧
        h.list[index]? = some value ∧ h'.list = h.list.eraseIdx index)
      (Outside h index (index < len h)) := by
  refine .get_bind ?_
  by_cases inside : index < len h
  · rw [if_pos inside]
    have length : (span h).len = len h := LawfulStorage.len_span h.storage
    have below : index < (span h).len := by omega
    have read := Span.bitAt_eq (span_held sound) below
    have small := LawfulStorage.len_le_maxBits sound.storage
    have size := LawfulStorage.maxBits_lt (S := S)
    -- A position inside is a range that fits, so only the position itself can be refused.
    have checked : (Bounds.single index).check (len h) = .ok ⟨index, index + 1⟩ := by
      have stop : min (index + 1) maxSize = index + 1 := Nat.min_eq_left (by
        have inside' : index < Storage.len h.storage := inside
        omega)
      simp only [Bounds.check, Bounds.single, stop]
      rw [if_neg (by omega), if_neg (by omega)]
      rfl
    refine .ask_answered read ?_
    refine ((eraseRange_ends sound (Bounds.single index)).imp (fun _ _ => id) ?_).bind ?_
    · rintro failure h' ⟨refused, -⟩
      rw [checked] at refused
      cases refused
    · rintro ⟨⟩ h' ⟨sound', room, extent, resolved, list⟩
      rw [checked] at resolved
      cases resolved
      refine ⟨sound', room, ?_, ?_⟩
      · exact (Span.getElem?_toList (span h) index).trans (if_pos below)
      · rw [list, List.eraseIdx_eq_take_drop_succ]
  · rw [if_neg inside]
    exact ⟨inside, rfl, rfl⟩

theorem tryExtendFrom_ends (sound : h.Sound policy refusals others) {other : Span w}
    (held : other.Held) :
    (tryExtendFrom other).Ends h
      (fun _ h' => h'.Sound policy refusals others ∧ h'.list = h.list ++ other.toList ∧
        growth h other.len = none ∧ h.Reserved (len h + other.len) h')
      (h.Refused policy refusals others (growth h other.len)
        (Storage.Allows S policy (len h + other.len))) := by
  refine .get_bind (grow_bind sound ?_ fun _ _ => id)
  intro h₁ sound₁ grown free reserved
  have length : len h + other.len = (span h₁).len := by
    rw [show (span h₁).len = h₁.list.length from (Span.length_toList _).symm, grown,
      List.length_append, List.length_replicate, length_list]
  have copied := Span.copy_beside_ends (span_held sound₁) held
    (show 0 + other.len ≤ other.len by omega) (Nat.le_of_eq length)
  simp only [Cursor.forward_zero] at copied
  refine Attempt.Ends.imp (sound₁.inPlace_done copied) ?_ fun _ _ => False.elim
  rintro ⟨⟩ h₂ ⟨touched, list⟩
  refine ⟨touched.sound, ?_, free, reserved.trans touched.room⟩
  have whole : (span h₁).toList = h.list ++ List.replicate other.len false := grown
  have tail := splice_append h.list (List.replicate other.len false) other.toList
  rw [List.length_replicate, length_list] at tail
  rw [whole, List.drop_zero, List.take_of_length_le (by simp), tail] at list
  exact list

theorem inPlace_keeps {α : Type} {attempt : Attempt (Span w) α} (framed : Span.Framed attempt) :
    (inPlace attempt : Attempt (Holding S) α).Keeps (Holding.Sound policy refusals others) := by
  intro h sound
  have ends : attempt.Ends (Container.span h.storage)
      (fun _ s' => Span.Within (Container.span h.storage) s' ∧ True)
      fun failure s' => Span.Within (Container.span h.storage) s' ∧ failure ≠ .wild :=
    (framed _ (Storage.held sound.storage)).imp (fun _ _ within => ⟨within, trivial⟩)
      fun _ _ ⟨tame, within⟩ => ⟨within, tame⟩
  exact (sound.inPlace_ends ends).imp (fun _ _ reached => reached.1.sound)
    fun _ _ ⟨touched, tame⟩ => ⟨tame, touched.sound⟩

omit [HasBits w] [LawfulStorage S w] in
theorem refused_keeps {cause : Option Error} {certain : Prop} {failure : Failure}
    {h' : Holding S} (refused : h.Refused policy refusals others cause certain failure h') :
    failure ≠ .wild ∧ h'.Sound policy refusals others := by
  obtain ⟨error, rfl, -⟩ := refused.cause
  exact ⟨Attempt.error_tame _, refused.sound⟩

omit [HasBits w] [LawfulStorage S w] in
theorem outside_keeps {index : Nat} {inside : Prop} {failure : Failure} {h' : Holding S}
    (sound : h.Sound policy refusals others) (outside : Outside h index inside failure h') :
    failure ≠ .wild ∧ h'.Sound policy refusals others := by
  obtain ⟨-, rfl, rfl⟩ := outside
  exact ⟨Attempt.error_tame _, sound⟩

section Keeps

theorem tryReserve_keeps (additional : Nat) :
    (tryReserve additional : Attempt (Holding S) Unit).Keeps
      (Holding.Sound policy refusals others) := fun _ sound =>
  (tryReserve_ends sound additional).imp (fun _ _ reached => reached.1) fun _ _ => refused_keeps

theorem storage_reserve_keeps (bits : Nat) :
    (Storage.reserve bits : Attempt (Holding S) Unit).Keeps
      (Holding.Sound policy refusals others) := fun _ sound =>
  (LawfulStorage.reserve_ends sound bits).imp (fun _ _ reached => reached.1)
    fun _ _ => refused_keeps

theorem tryResize_keeps (bits : Nat) (value : Bool) :
    (tryResize bits value : Attempt (Holding S) Unit).Keeps
      (Holding.Sound policy refusals others) := fun _ sound =>
  (sound.resize_ends bits value).imp (fun _ _ reached => reached.1) fun _ _ => refused_keeps

theorem tryPush_keeps (value : Bool) :
    (tryPush value : Attempt (Holding S) Unit).Keeps (Holding.Sound policy refusals others) :=
  fun _ sound =>
    (tryPush_ends sound value).imp (fun _ _ reached => reached.1) fun _ _ => refused_keeps

theorem truncate_keeps (bits : Nat) :
    (truncate bits : Attempt (Holding S) Unit).Keeps (Holding.Sound policy refusals others) :=
  fun _ sound => (truncate_ends sound bits).imp (fun _ _ reached => reached.1) fun _ _ => False.elim

theorem clear_keeps :
    (clear : Attempt (Holding S) Unit).Keeps (Holding.Sound policy refusals others) :=
  fun _ sound => (clear_ends sound).imp (fun _ _ reached => reached.1) fun _ _ => False.elim

theorem shrinkToFit_keeps :
    (shrinkToFit : Attempt (Holding S) Unit).Keeps (Holding.Sound policy refusals others) :=
  fun _ sound => (LawfulStorage.shrinkToFit_ends sound).imp (fun _ _ reached => reached.1)
    fun _ _ => False.elim

theorem pop_keeps :
    (pop : Attempt (Holding S) (Option Bool)).Keeps (Holding.Sound policy refusals others) :=
  fun _ sound => (pop_ends sound).imp (fun _ _ reached => reached.1) fun _ _ => False.elim

theorem tryInsertMany_keeps (index n : Nat) (value : Bool) :
    (tryInsertMany index n value : Attempt (Holding S) Unit).Keeps
      (Holding.Sound policy refusals others) := fun _ sound =>
  (tryInsertMany_ends sound index n value).imp (fun _ _ reached => reached.1)
    fun _ _ stopped => stopped.elim (outside_keeps sound) fun refused => refused_keeps refused.2

theorem eraseRange_keeps (bounds : Bounds) :
    (eraseRange bounds : Attempt (Holding S) Unit).Keeps
      (Holding.Sound policy refusals others) := by
  intro h sound
  refine (eraseRange_ends sound bounds).imp (fun _ _ reached => reached.1) ?_
  rintro failure h' ⟨refused, rfl⟩
  refine ⟨?_, sound⟩
  rintro rfl
  exact Bounds.check_tame refused

theorem erase_keeps (index : Nat) :
    (erase index : Attempt (Holding S) Bool).Keeps (Holding.Sound policy refusals others) :=
  fun _ sound => (erase_ends sound index).imp (fun _ _ reached => reached.1)
    fun _ _ => outside_keeps sound

theorem tryExtendFrom_keeps {other : Span w} (held : other.Held) :
    (tryExtendFrom other : Attempt (Holding S) Unit).Keeps
      (Holding.Sound policy refusals others) := fun _ sound =>
  (tryExtendFrom_ends sound held).imp (fun _ _ reached => reached.1) fun _ _ => refused_keeps

theorem extend_keeps (announced : Nat) (bits : List Bool) :
    (extend announced bits : Attempt (Holding S) Unit).Keeps
      (Holding.Sound policy refusals others) :=
  (tryReserve_keeps announced).orPanic.bind fun _ =>
    Attempt.Keeps.forM (fun value => (tryPush_keeps value).orPanic) bits

end Keeps

end PackedBits.BitVector
