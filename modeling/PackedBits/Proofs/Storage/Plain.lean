import PackedBits.Storage.Plain
import PackedBits.Proofs.Storage.Resize

/-! The plain storage is lawful: its words are the whole block, and it owns one exactly when it has
a capacity. -/
namespace PackedBits.Plain
variable {w : Nat} [HasBits w] {s : Plain w}

structure Sound (s : Plain w) : Prop where
  size : s.words.size = s.capacity
  room : s.len ≤ s.capacity * w
  small : s.len ≤ maxSigned
  spare : ∀ k, s.len ≤ k → bitIn s.words k = false

def block (s : Plain w) : Option Grant :=
  if s.capacity = 0 then none else some ⟨s.address, s.capacity⟩

instance : StorageSpec (Plain w) w where
  Sound := Sound
  block := block
  header := 0
  blockWords := grownCapacity
  admits _ := true

omit [HasBits w] in
theorem empty_sound : Sound (empty : Plain w) where
  size := rfl
  room := Nat.zero_le _
  small := Nat.zero_le _
  spare _ _ := bitIn_of_le _ (by simp [empty])

theorem bitIn_liveWords (sound : Sound s) (k : Nat) : bitIn s.liveWords k = bitIn s.words k := by
  rw [liveWords, bitIn_extract _ _ _ _ (by rw [sound.size]; exact wordsFor_le_iff.mpr sound.room),
    Nat.zero_mul, Nat.zero_add, Nat.sub_zero]
  by_cases inside : k < wordsFor w s.len * w
  · rw [decide_eq_true inside, Bool.true_and]
  · have above := le_wordsFor (w := w) s.len
    rw [decide_eq_false inside, Bool.false_and, sound.spare k (by omega)]

theorem size_liveWords (sound : Sound s) : s.liveWords.size = wordsFor w s.len := by
  rw [liveWords, Array.size_extract, sound.size,
    Nat.min_eq_left (wordsFor_le_iff.mpr sound.room), Nat.sub_zero]

theorem heldWords_eq (s : Plain w) : Storage.heldWords s = s.capacity := by
  show (if s.capacity != 0 then s.capacity * w / w else 0) = s.capacity
  rw [Nat.mul_div_cancel _ width_pos]
  by_cases none : s.capacity = 0 <;> simp [none]

def moved (s : Plain w) (address capacity : Nat) : Plain w :=
  { s with address := address, capacity := capacity, words := freshBlock capacity s.liveWords }

theorem moved_bit (sound : Sound s) (address : Nat) {capacity : Nat}
    (enough : wordsFor w s.len ≤ capacity) (k : Nat) :
    bitIn (s.moved address capacity).words k = bitIn s.words k := by
  rw [moved, bitIn_freshBlock _ _ (by rw [size_liveWords sound]; exact enough),
    bitIn_liveWords sound]

theorem moved_sound (sound : Sound s) (address : Nat) {capacity : Nat}
    (enough : wordsFor w s.len ≤ capacity) : Sound (s.moved address capacity) where
  size := size_freshBlock ..
  room := wordsFor_le_iff.mp enough
  small := sound.small
  spare k past := by rw [moved_bit sound address enough, sound.spare k past]

section
variable {policy : Policy} {refusals : Nat} {others : List Grant} {h : Holding (Plain w)}

omit [HasBits w] in
theorem release_ends {p : Provider} (s : Plain w)
    (books : Books policy refusals ((block s).toList ++ others) p) :
    (release s).Ends p (fun _ p' => Books policy refusals others p') fun _ _ => False := by
  rw [release]
  by_cases none : s.capacity = 0
  · rw [if_neg (not_not_intro none)]
    rwa [block, if_pos none] at books
  · rw [if_pos none]
    rw [block, if_neg none] at books
    exact books.release_ends.imp (fun _ _ reached => reached.2) fun _ _ => id

omit [HasBits w] in
theorem move_eq (capacity : Nat) : (move capacity : Attempt (Holding (Plain w)) Unit) = (do
    let address ← Holding.onProvider (Provider.allocate w capacity)
    let old := (← get).storage
    Holding.modifyStorage fun s => s.moved address capacity
    Holding.onProvider (release old)) := by
  have giveBack (s : Plain w) : (if s.capacity ≠ 0 then
      Holding.onProvider (Provider.release s.address s.capacity) else pure ()) =
        (Holding.onProvider (release s) : Attempt (Holding (Plain w)) Unit) := by
    rw [release]
    split <;> rfl
  simp only [move, giveBack]
  rfl

theorem move_ends (sound : h.Sound policy refusals others) {capacity : Nat}
    (enough : wordsFor w h.storage.len ≤ capacity) (nonempty : capacity ≠ 0) :
    (move capacity).Ends h
      (fun _ => h.Moved policy refusals others ⟨h.provider.requests, w, capacity⟩ capacity)
      (h.Refused policy refusals others
        (Storage.refusal (Plain w) policy ⟨h.provider.requests, w, capacity⟩)
        (Storage.Admitted (Plain w) policy)) := by
  rw [move_eq]
  refine Holding.move_ends sound (Holding.allocate_ends sound.books w capacity fun _ => rfl) ?_
    fun rest p => release_ends h.storage
  intro address _ _
  have bits := moved_bit sound.storage address enough
  exact ⟨moved_sound sound.storage address enough, if_neg nonempty,
    Span.toList_congr rfl fun k _ => bits _, rfl⟩

theorem grow_ends (sound : h.Sound policy refusals others) {total : Nat}
    (full : h.storage.capacity * w < total) (current : Nat) :
    (move (grownCapacity (wordsFor w total) current)).Ends h
      (fun _ => h.Moved policy refusals others
        ⟨h.provider.requests, w, grownCapacity (wordsFor w total) current⟩
        (grownCapacity (wordsFor w total) current))
      (h.Refused policy refusals others
        (Storage.refusal (Plain w) policy
          ⟨h.provider.requests, w, grownCapacity (wordsFor w total) current⟩)
        (Storage.Admitted (Plain w) policy)) := by
  have needed : wordsFor w h.storage.len ≤ wordsFor w total :=
    wordsFor_mono (Nat.le_trans sound.storage.room (Nat.le_of_lt full))
  exact move_ends sound (Nat.le_trans needed (le_grownCapacity ..))
    (Nat.ne_of_gt (grownCapacity_pos ..))

theorem reserve_ends (sound : h.Sound policy refusals others) (total : Nat) :
    (reserve total).Ends h
      (fun _ h' => h'.Sound policy refusals others ∧ h'.list = h.list ∧
        total ≤ Storage.capacity h'.storage ∧ total ≤ Storage.maxBits (Plain w) ∧
        Storage.shortage h total = none)
      (h.Refused policy refusals others (Storage.shortage h total)
        (Storage.Allows (Plain w) policy total)) :=
  Holding.reserve_ends_of_grow (fun s => move (grownCapacity (wordsFor w total) s.capacity)) sound
    fun small full => Holding.grow_ends_of_move sound small full (le_grownCapacity ..)
      (by rw [heldWords_eq]; rfl) (grow_ends sound full _)

theorem shrinkToFit_ends (sound : h.Sound policy refusals others) :
    shrinkToFit.Ends h (fun _ h' => h'.Sound policy refusals others ∧ h'.list = h.list)
      fun _ _ => False := by
  refine .get_bind ?_
  by_cases fits : wordsFor w h.storage.len = h.storage.capacity
  · rw [if_pos fits]
    exact ⟨sound, rfl⟩
  · rw [if_neg fits]
    by_cases nothing : wordsFor w h.storage.len = 0
    · rw [if_pos nothing]
      have giveBack : Holding.onProvider (Provider.release h.storage.address h.storage.capacity) =
          Holding.onProvider (S := Plain w) (release h.storage) := by
        rw [release, if_pos (by omega)]
      rw [giveBack]
      have released := Holding.onProvider_ends (release_ends h.storage sound.books)
      refine (released.imp (fun _ _ => id) fun _ _ never => never.2).bind ?_
      rintro ⟨⟩ h₁ ⟨same, books⟩
      have len : h₁.storage.len = 0 := by
        rw [same]
        exact wordsFor_eq_zero.mp nothing
      refine ⟨⟨⟨rfl, ?_, ?_, fun k _ => bitIn_of_le _ (by simp)⟩, books⟩, ?_⟩
      · exact Nat.le_trans (Nat.le_of_eq len) (Nat.zero_le _)
      · exact Nat.le_trans (Nat.le_of_eq len) (Nat.zero_le _)
      · refine Span.toList_congr (by rw [← same]; rfl) fun k below => ?_
        rw [← same] at below
        exact absurd below (by rw [show (Container.span h₁.storage).len = 0 from len]; omega)
    · rw [if_neg nothing]
      exact Holding.unlessRefused_ends_of_move (move_ends sound (Nat.le_refl _) nothing)

theorem filled_bit {out : Plain w} (soundOut : Sound out) (clear : out.len = 0) (sound : Sound s)
    (room : s.len ≤ out.capacity * w) (k : Nat) :
    bitIn (overwrite out.words 0 s.liveWords) k = bitIn s.words k := by
  have size := size_liveWords sound
  have fits : 0 + s.liveWords.size ≤ out.words.size := by
    rw [Nat.zero_add, size, soundOut.size]
    exact wordsFor_le_iff.mpr room
  rw [bitIn_overwrite _ _ _ fits, Nat.zero_mul, Nat.sub_zero, Nat.zero_add, size]
  by_cases inside : k < wordsFor w s.len * w
  · rw [if_pos ⟨Nat.zero_le k, inside⟩, bitIn_liveWords sound]
  · have above := le_wordsFor (w := w) s.len
    rw [if_neg (fun both => inside both.2), soundOut.spare k (by omega), sound.spare k (by omega)]

theorem duplicate_ends {blocks : List Grant} {p : Provider} (sound : Sound s)
    (books : Books policy refusals blocks p) :
    (duplicate s).Ends p
      (fun s' p' => Sound s' ∧ (Container.span s').toList = (Container.span s).toList ∧
        Books policy refusals ((block s').toList ++ blocks) p')
      (Declined policy refusals blocks (Storage.Admitted (Plain w) policy)) := by
  have start : Holding.Sound policy refusals blocks ⟨(empty : Plain w), p⟩ := ⟨empty_sound, books⟩
  have built : (Holding.build empty (reserve s.len)).Ends p
      (fun (out : Plain w) p' => Sound out ∧ out.len = 0 ∧ s.len ≤ out.capacity * w ∧
        Books policy refusals ((block out).toList ++ blocks) p')
      (Declined policy refusals blocks (Storage.Admitted (Plain w) policy)) := by
    refine Holding.build_ends ((reserve_ends start s.len).imp ?_ ?_)
    · rintro ⟨⟩ h' ⟨sound', list, room, -, -⟩
      exact ⟨sound'.storage, Span.len_congr list, room, sound'.books⟩
    · rintro failure ⟨s', p'⟩ stopped
      obtain rfl : s' = empty := stopped.storage
      obtain ⟨error, rfl, -⟩ := stopped.cause
      exact ⟨Attempt.error_tame _, stopped.sound.books,
        fun admitted => (stopped.counted ⟨sound.small, admitted⟩).books⟩
  refine built.bind ?_
  rintro out p' ⟨soundOut, clear, room, books'⟩
  have bit := filled_bit soundOut clear sound room
  refine ⟨⟨?_, room, sound.small, ?_⟩, ?_, books'⟩
  · rw [size_overwrite]
    exact soundOut.size
  · intro k past
    rw [bit, sound.spare k past]
  · exact Span.toList_congr rfl fun k _ => bit _

end

instance : LawfulStorage (Plain w) w where
  maxBits_lt := (by decide : maxSigned < maxSize)
  len_span _ := rfl
  room {s} sound := by
    show 0 + s.capacity * w ≤ s.words.size * w
    exact Nat.le_of_eq (by rw [sound.size, Nat.zero_add])
  len_le_capacity sound := sound.room
  len_le_maxBits sound := sound.small
  spare sound k past _ := sound.spare _ (Nat.le_trans past (Nat.le_add_left ..))
  onHeap {s} _ := by
    show (s.capacity != 0) = (block s).isSome
    by_cases none : s.capacity = 0 <;> simp [block, none]
  block_words {s grant} sound owned := by
    change block s = some grant at owned
    by_cases none : s.capacity = 0
    · rw [block, if_pos none] at owned
      cases owned
    · rw [block, if_neg none] at owned
      cases owned
      exact (Nat.mul_div_cancel _ width_pos).symm
  words_size sound := size_liveWords sound
  words_bit {s} sound k := by
    show bitIn s.liveWords k = (decide (k < s.len) && bitIn s.words (0 + k))
    rw [bitIn_liveWords sound, Nat.zero_add]
    by_cases below : k < s.len
    · rw [decide_eq_true below, Bool.true_and]
    · rw [decide_eq_false below, Bool.false_and, sound.spare k (Nat.le_of_not_lt below)]
  putWords {s words} sound within := by
    have size := within.size.trans sound.size
    refine ⟨⟨size, sound.room, sound.small, fun k past => ?_⟩, rfl, rfl, rfl⟩
    have kept := within.kept k (by
      have above : s.len ≤ k := past
      show ¬ (0 ≤ k ∧ k < 0 + s.len)
      omega)
    exact kept.trans (sound.spare k past)
  setLen {s bits} sound room small clear := by
    refine ⟨⟨sound.size, room, small, fun k past => ?_⟩, fun _ _ => rfl, rfl, rfl, rfl⟩
    rcases Nat.lt_or_ge k s.len with below | above
    · have dropped : bitIn s.words (0 + k) = false := clear k past below
      rwa [Nat.zero_add] at dropped
    · exact sound.spare k above
  empty_sound := empty_sound
  empty_len := rfl
  empty_block := rfl
  reserve_ends := reserve_ends
  reserve_inside {_ total} small room := Holding.reserve_inside
    (fun s => move (grownCapacity (wordsFor w total) s.capacity)) small room
  shrinkToFit_ends := shrinkToFit_ends
  duplicate_ends := duplicate_ends
  release_ends _ books := release_ends _ books

end PackedBits.Plain
