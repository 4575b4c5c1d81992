import PackedBits.Proofs.Storage.Lawful

/-! Working in place and changing the length, on any lawful storage. Because the spare bits are
clear, taking in more of them appends clear bits; and because dropped bits are cleared first, they
are clear when they are taken in again. The room a vector has, its capacity and its mode, changes
only where more is reserved. -/
namespace PackedBits
variable {S α : Type} {w : Nat} [HasBits w] [Storage S w] [StorageSpec S w] [LawfulStorage S w]

namespace Storage
variable {s s' : S} {bits : Nat}

theorem held (sound : StorageSpec.Sound s) : (Container.span s).Held := by
  have room := LawfulStorage.room sound
  have len := LawfulStorage.len_le_capacity sound
  rw [Span.Held, LawfulStorage.len_span]
  omega

theorem getElem?_list (s : S) (i : Nat) :
    (Container.span s).toList[i]? =
      if i < Storage.len s then some ((Container.span s).bit i) else none := by
  rw [Span.getElem?_toList, LawfulStorage.len_span]

theorem Relengthened.list_grown (changed : Relengthened s s' bits) (sound : StorageSpec.Sound s)
    (more : Storage.len s ≤ bits) (room : bits ≤ Storage.capacity s) :
    (Container.span s').toList =
      (Container.span s).toList ++ List.replicate (bits - Storage.len s) false := by
  refine List.ext_getElem? fun i => ?_
  rw [getElem?_list, changed.len, List.getElem?_append, Span.length_toList,
    LawfulStorage.len_span, getElem?_list, List.getElem?_replicate]
  by_cases old : i < Storage.len s
  · rw [if_pos (by omega), if_pos old, if_pos old, changed.bit i (by omega)]
  · rw [if_neg old]
    by_cases new : i < bits
    · rw [if_pos new, if_pos (by omega), changed.bit i (by omega),
        LawfulStorage.spare sound i (by omega) (by omega)]
    · rw [if_neg new, if_neg (by omega)]

theorem Relengthened.list_shrunk (changed : Relengthened s s' bits) (sound : StorageSpec.Sound s)
    (less : bits ≤ Storage.len s) :
    (Container.span s').toList = (Container.span s).toList.take bits := by
  have room := LawfulStorage.len_le_capacity sound
  refine List.ext_getElem? fun i => ?_
  rw [getElem?_list, changed.len, List.getElem?_take, getElem?_list]
  by_cases kept : i < bits
  · rw [if_pos kept, if_pos kept, if_pos (by omega), changed.bit i (by omega)]
  · rw [if_neg kept, if_neg kept]

omit [HasBits w] [LawfulStorage S w] in
theorem shortage_eq_none {h : Holding S} {total : Nat} (small : total ≤ Storage.maxBits S)
    (room : total ≤ Storage.capacity h.storage) : shortage h total = none := by
  rw [shortage, if_neg (by omega), if_pos room]

end Storage

namespace Holding

/-- Two states of a vector with the same room: nothing has been asked of the provider or given back
to it, and neither the capacity nor the mode has changed. -/
structure SameRoom (h h' : Holding S) : Prop where
  provider : h'.provider = h.provider
  capacity : Storage.capacity h'.storage = Storage.capacity h.storage
  onHeap : Storage.onHeap h'.storage = Storage.onHeap h.storage

/-- A state with the room that the first has once room for `total` bits in all has been made. -/
def Reserved (h : Holding S) (total : Nat) (h' : Holding S) : Prop :=
  ∃ h₁, Storage.reserve total h = .ok () h₁ ∧ h₁.SameRoom h'

section Room
variable {policy : Policy} {refusals total : Nat} {others : List Grant} {h h₁ h₂ : Holding S}

omit [HasBits w] [StorageSpec S w] [LawfulStorage S w] in
theorem SameRoom.refl (h : Holding S) : h.SameRoom h := ⟨rfl, rfl, rfl⟩

omit [HasBits w] [StorageSpec S w] [LawfulStorage S w] in
theorem SameRoom.trans (first : h.SameRoom h₁) (second : h₁.SameRoom h₂) : h.SameRoom h₂ where
  provider := second.provider.trans first.provider
  capacity := second.capacity.trans first.capacity
  onHeap := second.onHeap.trans first.onHeap

omit [HasBits w] [StorageSpec S w] [LawfulStorage S w] in
theorem Reserved.trans (reserved : h.Reserved total h₁) (same : h₁.SameRoom h₂) :
    h.Reserved total h₂ := by
  obtain ⟨h₃, ran, room⟩ := reserved
  exact ⟨h₃, ran, room.trans same⟩

theorem reserved_inside_iff (small : total ≤ Storage.maxBits S)
    (room : total ≤ Storage.capacity h.storage) : h.Reserved total h₁ ↔ h.SameRoom h₁ := by
  have idle := LawfulStorage.reserve_inside small room
  constructor
  · rintro ⟨h₃, ran, same⟩
    rw [idle] at ran
    cases ran
    exact same
  · intro same
    exact ⟨h, idle, same⟩

theorem SameRoom.reserved (same : h.SameRoom h₁) (sound : StorageSpec.Sound h.storage)
    (fewer : total ≤ Storage.len h.storage) : h.Reserved total h₁ :=
  (reserved_inside_iff (Nat.le_trans fewer (LawfulStorage.len_le_maxBits sound))
    (Nat.le_trans fewer (LawfulStorage.len_le_capacity sound))).mpr same

theorem Reserved.room (reserved : h.Reserved total h₁)
    (sound : h.Sound policy refusals others) :
    total ≤ Storage.capacity h₁.storage ∧ total ≤ Storage.maxBits S := by
  obtain ⟨h₂, ran, same⟩ := reserved
  obtain ⟨-, -, room, small, -⟩ := (LawfulStorage.reserve_ends sound total).at_ok ran
  exact ⟨by rw [same.capacity]; exact room, small⟩

theorem Reserved.capacity_le (reserved : h.Reserved total h₁)
    (sound : h.Sound policy refusals others) :
    Storage.capacity h.storage ≤ Storage.capacity h₁.storage := by
  obtain ⟨room, small⟩ := reserved.room sound
  by_cases inside : total ≤ Storage.capacity h.storage
  · exact Nat.le_of_eq ((reserved_inside_iff small inside).mp reserved).capacity.symm
  · omega

theorem SameRoom.of_relengthened {s : S} {bits : Nat}
    (changed : Storage.Relengthened h.storage s bits) (sound : StorageSpec.Sound h.storage) :
    h.SameRoom { h with storage := s } where
  provider := rfl
  capacity := changed.capacity
  onHeap := by
    rw [LawfulStorage.onHeap sound, LawfulStorage.onHeap changed.sound, changed.block]

end Room

variable {policy : Policy} {refusals : Nat} {others : List Grant} {h h' : Holding S}

theorem length_list (h : Holding S) :
    h.list.length = Storage.len h.storage := by
  rw [list, Span.length_toList, LawfulStorage.len_span]

/-- What an operation in place leaves as it was, and sound. -/
structure Touched (policy : Policy) (refusals : Nat) (others : List Grant) (h h' : Holding S) :
    Prop where
  sound : h'.Sound policy refusals others
  room : h.SameRoom h'
  len : Storage.len h'.storage = Storage.len h.storage

theorem Sound.put {s' : Span w} (sound : h.Sound policy refusals others)
    (within : Span.Within (Container.span h.storage) s') :
    Touched policy refusals others h (Container.putWords h s'.words) ∧
      Container.span (Container.putWords h s'.words).storage = s' := by
  have same := within.eq_words
  rw [same] at within
  have put := LawfulStorage.putWords sound.storage within
  refine ⟨⟨⟨put.sound, ?_⟩, ⟨rfl, put.capacity, put.onHeap sound.storage⟩, ?_⟩,
    put.span.trans same.symm⟩
  · show Books policy refusals
      ((StorageSpec.block (Container.putWords h.storage s'.words)).toList ++ others) h.provider
    rw [put.block]
    exact sound.books
  · have span : (Container.span (Container.putWords h.storage s'.words)).len =
        (Container.span h.storage).len := by rw [put.span]
    rwa [LawfulStorage.len_span, LawfulStorage.len_span] at span

/-- A change in place of a sound vector keeps it sound and draws nothing from the provider. -/
theorem Sound.inPlace_ends {attempt : Attempt (Span w) α} {done : α → Span w → Prop}
    {failed : Failure → Span w → Prop} (sound : h.Sound policy refusals others)
    (ends : attempt.Ends (Container.span h.storage)
      (fun value s' => Span.Within (Container.span h.storage) s' ∧ done value s')
      fun failure s' => Span.Within (Container.span h.storage) s' ∧ failed failure s') :
    (inPlace attempt).Ends h
      (fun value h' => Touched policy refusals others h h' ∧ done value (Container.span h'.storage))
      fun failure h' =>
        Touched policy refusals others h h' ∧ failed failure (Container.span h'.storage) := by
  have ends' : attempt.Ends (Container.span h) _ _ := ends
  refine Attempt.Ends.within h ends' ?_ ?_
  · rintro value s' ⟨within, reached⟩
    obtain ⟨touched, span⟩ := sound.put within
    exact ⟨touched, by rw [span]; exact reached⟩
  · rintro failure s' ⟨within, reached⟩
    obtain ⟨touched, span⟩ := sound.put within
    exact ⟨touched, by rw [span]; exact reached⟩

theorem Sound.inPlace_done {attempt : Attempt (Span w) α} {done : α → Span w → Prop}
    (sound : h.Sound policy refusals others)
    (ends : attempt.Ends (Container.span h.storage)
      (fun value s' => Span.Within (Container.span h.storage) s' ∧ done value s')
      fun _ _ => False) :
    (inPlace attempt).Ends h
      (fun value h' => Touched policy refusals others h h' ∧ done value (Container.span h'.storage))
      fun _ _ => False := by
  have ends' : attempt.Ends (Container.span h.storage) _
      fun _ s' => Span.Within (Container.span h.storage) s' ∧ False :=
    ends.imp (fun _ _ => id) fun _ _ => False.elim
  exact (sound.inPlace_ends ends').imp (fun _ _ => id) fun _ _ never => never.2

theorem Sound.fillBuffer_ends {start stop : Nat} (sound : h.Sound policy refusals others)
    (value : Bool) (order : start ≤ stop) (inside : stop ≤ Storage.len h.storage) :
    (Storage.fillBuffer start stop value : Attempt (Holding S) Unit).Ends h
      (fun _ h' => Touched policy refusals others h h' ∧
        h'.list = splice h.list start stop (List.replicate (stop - start) value))
      fun _ _ => False := by
  have within : start + (stop - start) ≤ (Container.span h.storage).len := by
    rw [LawfulStorage.len_span]
    omega
  have filled := Span.fill_ends (Storage.held sound.storage) value within
  rw [Nat.add_sub_cancel' order] at filled
  have ends : (do
      let s ← get
      Span.change fun m => fill m (s.first + start) (stop - start) value).Ends
      (Container.span h.storage) _ _ := .get_bind filled
  exact sound.inPlace_done ends

omit [HasBits w] [LawfulStorage S w] in
theorem Sound.setLen {bits : Nat} (sound : h.Sound policy refusals others)
    (changed : Storage.Relengthened h.storage (Storage.setLen bits h.storage) bits) :
    Sound policy refusals others { h with storage := Storage.setLen bits h.storage } where
  storage := changed.sound
  books := by
    rw [changed.block]
    exact sound.books

def resized (bits : List Bool) (count : Nat) (value : Bool) : List Bool :=
  bits.take count ++ List.replicate (count - bits.length) value

theorem resized_more {bits : List Bool} {count : Nat} (more : bits.length ≤ count) (value : Bool) :
    resized bits count value = bits ++ List.replicate (count - bits.length) value := by
  rw [resized, List.take_of_length_le more]

theorem resized_less {bits : List Bool} {count : Nat} (less : count ≤ bits.length) (value : Bool) :
    resized bits count value = bits.take count := by
  rw [resized, Nat.sub_eq_zero_of_le less, List.replicate_zero, List.append_nil]

theorem length_resized (bits : List Bool) (count : Nat) (value : Bool) :
    (resized bits count value).length = count := by
  rw [resized, List.length_append, List.length_take, List.length_replicate]
  omega

theorem Sound.drop_ends {bits : Nat} (sound : h.Sound policy refusals others)
    (less : bits ≤ Storage.len h.storage) :
    (do
      Storage.fillBuffer bits (Storage.len h.storage) false
      Holding.modifyStorage (Storage.setLen bits) : Attempt (Holding S) Unit).Ends h
      (fun _ h' => h'.Sound policy refusals others ∧ h'.list = h.list.take bits ∧
        h.SameRoom h') fun _ _ => False := by
  refine (sound.fillBuffer_ends false less (Nat.le_refl _)).bind ?_
  rintro ⟨⟩ h₁ ⟨touched, list⟩
  have less₁ : bits ≤ Storage.len h₁.storage := by
    rw [touched.len]
    exact less
  have sound₁ := touched.sound.storage
  have changed : Storage.Relengthened h₁.storage (Storage.setLen bits h₁.storage) bits := by
    refine LawfulStorage.setLen sound₁ (Nat.le_trans less₁ (LawfulStorage.len_le_capacity sound₁))
      (Nat.le_trans less₁ (LawfulStorage.len_le_maxBits sound₁)) fun k above below => ?_
    rw [touched.len] at below
    -- The bits to be dropped are those that have just been filled.
    have entry := congrArg (·[k]?) list
    simp only [Holding.list, Storage.getElem?_list, touched.len, below, if_true] at entry
    rw [getElem?_splice (by rw [Span.length_toList, LawfulStorage.len_span]; omega),
      if_neg (by omega), List.length_replicate, if_pos (by omega),
      List.getElem?_replicate_of_lt (by omega)] at entry
    exact Option.some.inj entry
  refine ⟨touched.sound.setLen changed, ?_, touched.room.trans (.of_relengthened changed sound₁)⟩
  have shrunk : (Container.span (Storage.setLen bits h₁.storage)).toList = h₁.list.take bits :=
    changed.list_shrunk sound₁ less₁
  rw [list, take_splice (by rw [length_list]; exact less)] at shrunk
  exact shrunk

theorem Sound.lengthened {bits : Nat} (sound : h.Sound policy refusals others)
    (more : Storage.len h.storage ≤ bits) (room : bits ≤ Storage.capacity h.storage)
    (small : bits ≤ Storage.maxBits S) :
    Sound policy refusals others { h with storage := Storage.setLen bits h.storage } ∧
      (Container.span (Storage.setLen bits h.storage)).toList =
        h.list ++ List.replicate (bits - h.list.length) false ∧
      Storage.len (Storage.setLen bits h.storage) = bits ∧
      h.SameRoom { h with storage := Storage.setLen bits h.storage } := by
  have changed : Storage.Relengthened h.storage (Storage.setLen bits h.storage) bits :=
    LawfulStorage.setLen sound.storage room small fun k above below => by omega
  refine ⟨sound.setLen changed, ?_, changed.len, .of_relengthened changed sound.storage⟩
  rw [changed.list_grown sound.storage more room, length_list]
  rfl

/-- What changing the length does, up or down. Growing may be refused for want of room. -/
theorem Sound.resize_ends (sound : h.Sound policy refusals others) (bits : Nat) (value : Bool) :
    (Storage.resize bits value : Attempt (Holding S) Unit).Ends h
      (fun _ h' => h'.Sound policy refusals others ∧ h'.list = resized h.list bits value ∧
        Storage.shortage h bits = none ∧ h.Reserved bits h')
      (h.Refused policy refusals others (Storage.shortage h bits)
        (Storage.Allows S policy bits)) := by
  refine .get_bind ?_
  by_cases more : Storage.len h.storage < bits
  · rw [if_pos more]
    refine ((LawfulStorage.reserve_ends sound bits).traced.imp (fun _ _ => id)
      fun _ _ stopped => stopped.2).bind ?_
    rintro ⟨⟩ h₁ ⟨ran, sound₁, list, room, small, free⟩
    have len : Storage.len h₁.storage = Storage.len h.storage := by
      rw [← length_list, ← length_list, list]
    have longer : h.list.length ≤ bits := by
      rw [length_list]
      exact Nat.le_of_lt more
    obtain ⟨sound₂, grown, len₂, same₂⟩ := sound₁.lengthened (by omega) room small
    rw [list] at grown
    -- The room past the length was clear already, so only ones have to be written into it.
    cases value with
    | false =>
        refine ⟨sound₂, ?_, free, h₁, ran, same₂⟩
        rw [resized_more longer]
        exact grown
    | true =>
        refine (sound₂.fillBuffer_ends true (Nat.le_of_lt more) (Nat.le_of_eq len₂.symm)).imp ?_
          fun _ _ => False.elim
        rintro ⟨⟩ h₃ ⟨touched, ones⟩
        refine ⟨touched.sound, ?_, free, h₁, ran, same₂.trans touched.room⟩
        have same := splice_append h.list (List.replicate (bits - h.list.length) false)
          (List.replicate (bits - h.list.length) true)
        rw [List.length_replicate, Nat.add_sub_cancel' longer, ← grown] at same
        rw [resized_more longer, ← same, ones, length_list]
        rfl
  · rw [if_neg more]
    have room := LawfulStorage.len_le_capacity sound.storage
    have small := LawfulStorage.len_le_maxBits sound.storage
    have inside : Storage.shortage h bits = none :=
      Storage.shortage_eq_none (by omega) (by omega)
    by_cases less : bits < Storage.len h.storage
    · rw [if_pos less]
      refine (sound.drop_ends (Nat.le_of_lt less)).imp ?_ fun _ _ => False.elim
      rintro ⟨⟩ h' ⟨sound', list, same⟩
      refine ⟨sound', ?_, inside, same.reserved sound.storage (Nat.le_of_lt less)⟩
      rw [list, resized_less (by rw [length_list]; exact Nat.le_of_lt less)]
    · rw [if_neg less]
      refine ⟨sound, ?_, inside, (SameRoom.refl h).reserved sound.storage (Nat.le_of_not_lt more)⟩
      have same : bits = h.list.length := by
        rw [length_list]
        omega
      rw [resized_less (Nat.le_of_eq same), same, List.take_length]

theorem resize_inside {bits : Nat} (more : Storage.len h.storage < bits)
    (room : bits ≤ Storage.capacity h.storage) (small : bits ≤ Storage.maxBits S) :
    (Storage.resize bits false : Attempt (Holding S) Unit) h =
      .ok () { h with storage := Storage.setLen bits h.storage } := by
  have reserved := LawfulStorage.reserve_inside small room
  unfold Storage.resize
  rw [Attempt.get_bind_apply, if_pos more, Attempt.bind_apply reserved]
  rfl

end Holding

end PackedBits
