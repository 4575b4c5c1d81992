import PackedBits.BitVector.Sets
import PackedBits.Text.Digits
import PackedBits.Proofs.BitVector.Edit

/-! Making vectors. A vector that is finished owns its block, and one that is not has given it back;
either way the blocks of others are still on the books. A part of a span and a copy of a vector
have the bits that they were made from. -/
namespace PackedBits.BitVector
variable {S α : Type} {w : Nat} [HasBits w] [Storage S w] [StorageSpec S w]

abbrev Preserves (attempt : Attempt (Holding S) α) : Prop :=
  ∀ {policy : Policy} {refusals : Nat} {others : List Grant},
    attempt.Keeps (Holding.Sound policy refusals others)

/-- A vector of its own, with its block on the books beside those that were there. -/
structure Made (policy : Policy) (refusals : Nat) (blocks : List Grant) (s : S) (p : Provider) :
    Prop where
  sound : StorageSpec.Sound s
  books : Books policy refusals ((StorageSpec.block s).toList ++ blocks) p

/-- An attempt that makes a sound vector or leaves the blocks on the books as they were. -/
def Makes (attempt : Attempt Provider S) : Prop :=
  ∀ (policy : Policy) (refusals : Nat) (blocks : List Grant) (p : Provider),
    Books policy refusals blocks p →
    attempt.Ends p (Made policy refusals blocks) (Declined policy refusals blocks False)

variable {policy : Policy} {refusals : Nat} {blocks : List Grant} {p : Provider}

omit [HasBits w] in
theorem Made.holding {s : S} (made : Made policy refusals blocks s p) :
    Holding.Sound policy refusals blocks ⟨s, p⟩ := ⟨made.sound, made.books⟩

variable [LawfulStorage S w]

theorem onOwned_ends (done : S → Prop) {s : S} {attempt : Attempt (Holding S) Unit}
    {certain : Failure → Prop}
    (ends : attempt.Ends ⟨s, p⟩
      (fun _ h' => h'.Sound policy refusals blocks ∧ done h'.storage)
      fun failure h' => failure ≠ .wild ∧ h'.Sound policy refusals blocks ∧
        (certain failure → h'.Sound policy (refusals + 1) blocks)) :
    (onOwned s attempt).Ends p (fun s' p' => Made policy refusals blocks s' p' ∧ done s')
      fun failure p' => Declined policy refusals blocks (certain failure) failure p' := by
  unfold Attempt.Ends onOwned
  obtain ⟨value, h', ran, sound, reached⟩ | ⟨failure, h', ran, tame, sound, counted⟩ := ends.ran
  · rw [ran]
    exact ⟨⟨sound.storage, sound.books⟩, reached⟩
  · -- Releasing keeps either count, the one that is sure and the one that may be.
    have released (count : Nat) (listed : h'.Sound policy count blocks) :
        (Storage.release h'.storage).Ends h'.provider (fun _ p' => Books policy count blocks p')
          fun _ _ => False := LawfulStorage.release_ends listed.storage listed.books
    obtain ⟨⟨⟩, p', gone, books⟩ := (released refusals sound).succeeds
    simp only [ran, gone]
    exact ⟨tame, books, fun sure => (released (refusals + 1) (counted sure)).at_ok gone⟩

theorem empty_sound (books : Books policy refusals blocks p) :
    Holding.Sound policy refusals blocks ⟨(Storage.empty : S), p⟩ where
  storage := LawfulStorage.empty_sound
  books := by
    rw [LawfulStorage.empty_block]
    exact books

theorem onOwned_makes {s : S} {attempt : Attempt (Holding S) Unit} (preserves : Preserves attempt)
    (made : Made policy refusals blocks s p) :
    (onOwned s attempt).Ends p (Made policy refusals blocks)
      (Declined policy refusals blocks False) := by
  have kept : attempt.Ends ⟨s, p⟩
      (fun _ h' => h'.Sound policy refusals blocks ∧ True)
      fun failure h' => failure ≠ .wild ∧ h'.Sound policy refusals blocks ∧
        (False → h'.Sound policy (refusals + 1) blocks) :=
    (preserves _ made.holding).imp (fun _ _ sound => ⟨sound, trivial⟩)
      fun _ _ ⟨tame, sound⟩ => ⟨tame, sound, False.elim⟩
  exact (onOwned_ends (fun _ => True) kept).imp (fun _ _ reached => reached.1) fun _ _ => id

theorem build_makes {attempt : Attempt (Holding S) Unit} (preserves : Preserves attempt) :
    Makes (build attempt) := fun _ _ _ _ books =>
  onOwned_makes preserves ⟨LawfulStorage.empty_sound, (empty_sound books).books⟩

omit [HasBits w] [LawfulStorage S w] in
theorem Makes.orPanic {attempt : Attempt Provider S} (makes : Makes attempt) :
    Makes attempt.orPanic := fun policy refusals blocks p books =>
  (makes policy refusals blocks p books).orPanic fun _ _ declined =>
    ⟨Attempt.panicked_tame declined.tame, declined.books, False.elim⟩

theorem withCapacity_makes (bits : Nat) : Makes (withCapacity bits : Attempt Provider S) :=
  build_makes (tryReserve_keeps bits).orPanic

theorem tryWithLen_makes (bits : Nat) (value : Bool) :
    Makes (tryWithLen bits value : Attempt Provider S) := build_makes (tryResize_keeps bits value)

theorem withLen_makes (bits : Nat) (value : Bool) :
    Makes (withLen bits value : Attempt Provider S) := (tryWithLen_makes bits value).orPanic

theorem ofBits_makes (announced : Nat) (bits : List Bool) :
    Makes (ofBits announced bits : Attempt Provider S) := build_makes (extend_keeps announced bits)

omit [HasBits w] [LawfulStorage S w] in
theorem fail_makes (error : Error) : Makes (Attempt.fail error : Attempt Provider S) :=
  fun _ _ _ _ books => ⟨Attempt.error_tame _, books, False.elim⟩

theorem fill_from_ends {other : Span w} {h : Holding S} {start n : Nat} (held : other.Held)
    (sound : h.Sound policy refusals blocks) (room : h.list = List.replicate n false)
    (available : start + n ≤ other.len) :
    (inPlace (Span.writeBeside other fun m p q =>
      (copy m (q + start) n p).map fun (m, _) => (m, ())) : Attempt (Holding S) Unit).Ends h
      (fun _ h' => h'.Sound policy refusals blocks ∧
        h'.list = (other.toList.drop start).take n ∧ h.SameRoom h') fun _ _ => False := by
  have length : (span h).len = n := by
    rw [show (span h).len = h.list.length from (Span.length_toList _).symm, room,
      List.length_replicate]
  refine (sound.inPlace_done (Span.copy_over_ends (span_held sound) held available length)).imp ?_
    fun _ _ => id
  exact fun _ _ ⟨touched, list⟩ => ⟨touched.sound, list, touched.room⟩

theorem empty_list (p : Provider) : (⟨Storage.empty, p⟩ : Holding S).list = [] :=
  List.eq_nil_of_length_eq_zero (by rw [length_list]; exact LawfulStorage.empty_len)

theorem resize_empty_ends (books : Books policy refusals blocks p) (n : Nat) :
    (tryResize n false : Attempt (Holding S) Unit).Ends ⟨Storage.empty, p⟩
      (fun _ h' => h'.Sound policy refusals blocks ∧ h'.list = List.replicate n false)
      fun failure h' => failure ≠ .wild ∧ h'.Sound policy refusals blocks ∧
        (Storage.Allows S policy n → h'.Sound policy (refusals + 1) blocks) := by
  refine ((empty_sound books).resize_ends n false).imp ?_ ?_
  · rintro ⟨⟩ h' ⟨sound, list, -⟩
    refine ⟨sound, list.trans ?_⟩
    rw [empty_list, Holding.resized, List.take_nil, List.nil_append]
    rfl
  · intro failure h' refused
    exact ⟨(refused_keeps refused).1, refused.sound, refused.counted⟩

theorem build_copied_ends {other : Span w} {start n : Nat} {resize : Attempt (Holding S) Unit}
    (held : other.Held) (available : start + n ≤ other.len)
    (resized : resize.Ends ⟨Storage.empty, p⟩
      (fun _ h' => h'.Sound policy refusals blocks ∧ h'.list = List.replicate n false)
      fun failure h' => failure ≠ .wild ∧ h'.Sound policy refusals blocks ∧
        (Storage.Allows S policy n → h'.Sound policy (refusals + 1) blocks)) :
    (build do
      resize
      inPlace (Span.writeBeside other fun m p q =>
        (copy m (q + start) n p).map fun (m, _) => (m, ())) : Attempt Provider S).Ends p
      (fun s' p' => Made policy refusals blocks s' p' ∧
        (Container.span s').toList = (other.toList.drop start).take n)
      (Declined policy refusals blocks (Storage.Allows S policy n)) := by
  refine onOwned_ends (fun s' => (Container.span s').toList = (other.toList.drop start).take n)
    (resized.bind ?_)
  rintro ⟨⟩ h' ⟨sound, clear⟩
  exact (fill_from_ends held sound clear available).imp
    (fun _ _ ⟨filled, list, _⟩ => ⟨filled, list⟩) fun _ _ => False.elim

theorem ofWords_makes (words : Array (BitVec w)) (bits : Nat) :
    Makes (ofWords words bits : Attempt Provider S) := by
  intro policy refusals blocks p books
  rw [ofWords]
  by_cases short : min (words.size * w) maxSize < bits
  · rw [if_pos short]
    exact fail_makes _ policy refusals blocks p books
  · rw [if_neg short]
    have held : (⟨words, 0, bits⟩ : Span w).Held := by
      rw [Span.Held]
      show 0 + bits ≤ words.size * w
      omega
    have made := build_copied_ends held (show 0 + bits ≤ bits by omega)
      (resize_empty_ends (S := S) books bits)
    simp only [Cursor.forward_zero] at made
    exact made.imp (fun _ _ reached => reached.1) fun _ _ declined =>
      declined.weaken False.elim

theorem slice_ends {s : Span w} (held : s.Held) (books : Books policy refusals blocks p)
    (bounds : Bounds) :
    (slice s bounds : Attempt Provider S).Ends p
      (fun out p' => Made policy refusals blocks out p' ∧ ∃ extent,
        bounds.resolve s.len = .ok extent ∧
        (Container.span out).toList = (s.toList.drop extent.start).take extent.size)
      fun failure p' => (bounds.resolve s.len = .error failure ∧ p' = p) ∨
        ∃ extent, bounds.resolve s.len = .ok extent ∧
          Declined policy refusals blocks (Storage.Allows S policy extent.size) failure p' := by
  refine .ask_bind ?_ fun failure stopped => .inl ⟨stopped, rfl⟩
  intro extent resolved
  obtain ⟨order, inside⟩ := Bounds.resolve_within resolved
  have available : extent.start + extent.size ≤ s.len := by
    rw [Extent.size]
    omega
  refine Attempt.Ends.imp (build_copied_ends held available
    ((resize_empty_ends books extent.size).orPanic fun _ _ refused =>
      ⟨Attempt.panicked_tame refused.1, refused.2⟩)) ?_ fun _ _ declined =>
        .inr ⟨extent, resolved, declined⟩
  rintro out p' ⟨made, list⟩
  exact ⟨made, extent, resolved, list⟩

theorem slice_makes {s : Span w} (held : s.Held) (bounds : Bounds) :
    Makes (slice s bounds : Attempt Provider S) := by
  intro policy refusals blocks p books
  refine (slice_ends held books bounds).imp (fun _ _ reached => reached.1) ?_
  rintro failure p' (⟨stopped, rfl⟩ | ⟨extent, -, declined⟩)
  · obtain ⟨panic, rfl⟩ := Bounds.resolve_panics stopped
    exact ⟨Attempt.panic_tame _, books, False.elim⟩
  · exact declined.weaken False.elim

theorem tryClone_ends {s : S} (sound : StorageSpec.Sound s)
    (books : Books policy refusals blocks p) :
    (tryClone s).Ends p
      (fun s' p' => Made policy refusals blocks s' p' ∧
        (Container.span s').toList = (Container.span s).toList)
      (Declined policy refusals blocks (Storage.Admitted S policy)) :=
  (LawfulStorage.duplicate_ends sound books).imp
    (fun _ _ ⟨copied, list, books'⟩ => ⟨⟨copied, books'⟩, list⟩) fun _ _ => id

theorem clone_ends {s : S} (sound : StorageSpec.Sound s) (books : Books policy refusals blocks p) :
    (clone s).Ends p
      (fun s' p' => Made policy refusals blocks s' p' ∧
        (Container.span s').toList = (Container.span s).toList)
      (Declined policy refusals blocks (Storage.Admitted S policy)) :=
  (tryClone_ends sound books).orPanic fun _ _ declined =>
    ⟨Attempt.panicked_tame declined.tame, declined.books, declined.counted⟩

theorem tryClone_makes {s : S} (sound : StorageSpec.Sound s) : Makes (tryClone s) :=
  fun _ _ _ _ books => (tryClone_ends sound books).imp (fun _ _ reached => reached.1)
    fun _ _ declined => declined.weaken False.elim

theorem clone_makes {s : S} (sound : StorageSpec.Sound s) : Makes (clone s) :=
  (tryClone_makes sound).orPanic

theorem splitOff_ends {h : Holding S} (sound : h.Sound policy refusals blocks) (position : Nat) :
    (splitOff position).Ends h
      (fun tail h' => StorageSpec.Sound tail ∧
        h'.Sound policy refusals ((StorageSpec.block tail).toList ++ blocks) ∧
        ∃ extent, (Bounds.startingAt position).resolve (len h) = .ok extent ∧
          (Container.span tail).toList = (h.list.drop extent.start).take extent.size ∧
          h'.list = h.list.take position ∧
          Storage.onHeap h'.storage = Storage.onHeap h.storage)
      fun failure h' => ((Bounds.startingAt position).resolve (len h) = .error failure ∧ h' = h) ∨
        ∃ extent, (Bounds.startingAt position).resolve (len h) = .ok extent ∧ failure ≠ .wild ∧
          h'.Sound policy refusals blocks ∧ h'.storage = h.storage ∧
          (Storage.Allows S policy extent.size → h'.Sound policy (refusals + 1) blocks) := by
  have length : (span h).len = len h := LawfulStorage.len_span h.storage
  have sliced := slice_ends (S := S) (span_held sound) sound.books (Bounds.startingAt position)
  rw [length] at sliced
  refine .get_bind (((Holding.onProvider_ends sliced).imp (fun _ _ => id) ?_).bind ?_)
  · rintro failure ⟨s', p'⟩ ⟨same, stopped⟩
    obtain rfl : s' = h.storage := same
    rcases stopped with ⟨stopped, rfl⟩ | ⟨extent, resolved, declined⟩
    · exact .inl ⟨stopped, rfl⟩
    · exact .inr ⟨extent, resolved, declined.tame, ⟨sound.storage, declined.books⟩, rfl,
        fun allowed => ⟨sound.storage, declined.counted allowed⟩⟩
  · rintro tail ⟨s', p'⟩ ⟨same, made, extent, resolved, upper⟩
    obtain rfl : s' = h.storage := same
    -- The block of the upper part belongs to others before the lower part is cut.
    have besides : Holding.Sound policy refusals ((StorageSpec.block tail).toList ++ blocks)
        ⟨h.storage, p'⟩ :=
      ⟨sound.storage, made.books.perm (List.perm_append_comm_assoc ..)⟩
    refine Attempt.Ends.bind ((truncate_ends besides position).imp (fun _ _ => id)
      fun _ _ => False.elim) ?_
    rintro ⟨⟩ h' ⟨sound', lower, room⟩
    exact ⟨made.sound, sound', extent, resolved, upper, lower, room.onHeap⟩

end PackedBits.BitVector
