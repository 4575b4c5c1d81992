import PackedBits.Proofs.BitVector.Build

/-! Vectors as sets, copies of vectors, and vectors read from text. Each is put together from edits
that keep a vector sound, so it keeps one sound itself, and a copy that is given up has returned its
block. -/
namespace PackedBits.Text
variable {w : Nat} [HasBits w]

theorem storeFrom_framed (top : Nat) (bytes : List UInt8) :
    Span.Framed (storeFrom (w := w) top bytes) := by
  induction bytes generalizing top with
  | nil => exact Span.Framed.pure ()
  | cons byte rest ih =>
      unfold storeFrom
      by_cases one : byte = '1'.toUInt8
      · rw [if_pos one]
        exact (Span.set_framed (top - 1) true).bind fun _ => ih (top - 1)
      · rw [if_neg one]
        by_cases zero : byte = '0'.toUInt8
        · rw [if_pos zero]
          exact ih (top - 1)
        · rw [if_neg zero]
          exact ih top

theorem store_framed (digits : String) : Span.Framed (store (w := w) digits) :=
  fun s held => .get_bind (storeFrom_framed s.len digits.toByteArray.data.toList s held)

theorem storeWith_framed (on off : Char) (length position : Nat) (chars : List Char) :
    Span.Framed (storeWith (w := w) on off length position chars) := by
  induction chars generalizing position with
  | nil => exact Span.Framed.pure ()
  | cons char rest ih =>
      unfold storeWith
      by_cases set : char = on
      · rw [if_pos set]
        exact (Span.set_framed (length - 1 - position) true).bind fun _ => ih (position + 1)
      · rw [if_neg set]
        by_cases unknown : char ≠ off
        · rw [if_pos unknown]
          exact (Span.Framed.fail _).bind fun _ => ih (position + 1)
        · rw [if_neg unknown]
          exact (Span.Framed.pure ()).bind fun _ => ih (position + 1)

end PackedBits.Text

namespace PackedBits.BitVector
variable {S α : Type} {w : Nat} [HasBits w] [Storage S w] [StorageSpec S w] [LawfulStorage S w]

theorem parse_makes (text : String) : Makes (Text.parse text : Attempt Provider S) := by
  unfold Text.parse
  cases Text.scan text with
  | error error => exact fail_makes error
  | ok checked =>
      exact build_makes ((tryResize_keeps checked.2 false).bind fun _ =>
        inPlace_keeps (Text.store_framed checked.1))

theorem parseWith_makes (text : String) (on off : Char) :
    Makes (Text.parseWith text on off : Attempt Provider S) :=
  build_makes ((tryResize_keeps text.length false).bind fun _ =>
    inPlace_keeps (Text.storeWith_framed on off text.length 0 text.toList))

theorem growTo_keeps (bits : Nat) : Preserves (growTo bits : Attempt (Holding S) Unit) := by
  intro policy refusals others
  refine .get_bind fun h sound => ?_
  by_cases more : len h < bits
  · rw [if_pos more]
    exact (tryResize_keeps bits false).orPanic h sound
  · rw [if_neg more]
    exact sound

variable {other : Span w}

theorem unionWith_keeps (held : other.Held) :
    Preserves (unionWith other : Attempt (Holding S) Unit) :=
  (growTo_keeps other.len).bind fun _ => inPlace_keeps (Span.orWith_framed held)

theorem intersectionWith_keeps (held : other.Held) :
    Preserves (intersectionWith other : Attempt (Holding S) Unit) :=
  inPlace_keeps (Span.andWith_framed held)

theorem differenceWith_keeps (held : other.Held) :
    Preserves (differenceWith other : Attempt (Holding S) Unit) :=
  inPlace_keeps (Span.andNotWith_framed held)

theorem symmetricDifferenceWith_keeps (held : other.Held) :
    Preserves (symmetricDifferenceWith other : Attempt (Holding S) Unit) :=
  (growTo_keeps other.len).bind fun _ => inPlace_keeps (Span.xorWith_framed held)

variable {policy : Policy} {refusals : Nat} {blocks : List Grant} {h : Holding S}

theorem besideCopy_ends (done failed : S → Prop) {s : S}
    {change : Span w → Attempt (Holding S) Unit} (sound : StorageSpec.Sound s)
    (before : h.Sound policy refusals blocks)
    (changed : ∀ (copy : Span w) (others : List Grant) (p : Provider), copy.Held →
      copy.toList = (Container.span s).toList →
      Holding.Sound policy refusals others ⟨h.storage, p⟩ →
      (change copy).Ends ⟨h.storage, p⟩
        (fun _ h' => h'.Sound policy refusals others ∧ done h'.storage)
        fun failure h' =>
          failure ≠ .wild ∧ h'.Sound policy refusals others ∧ failed h'.storage)
    (unchanged : failed h.storage) :
    (besideCopy s change).Ends h
      (fun _ h' => h'.Sound policy refusals blocks ∧ done h'.storage)
      fun failure h' =>
        failure ≠ .wild ∧ h'.Sound policy refusals blocks ∧ failed h'.storage := by
  have cloned := Holding.onProvider_ends (clone_ends sound before.books)
  refine (cloned.imp (fun _ _ => id) ?_).bind ?_
  · rintro failure ⟨s', p'⟩ ⟨same, declined⟩
    obtain rfl : s' = h.storage := same
    exact ⟨declined.tame, ⟨before.storage, declined.books⟩, unchanged⟩
  · rintro copy ⟨s', p'⟩ ⟨same, made, list⟩
    obtain rfl : s' = h.storage := same
    have besides : Holding.Sound policy refusals ((StorageSpec.block copy).toList ++ blocks)
        ⟨h.storage, p'⟩ :=
      ⟨before.storage, made.books.perm (List.perm_append_comm_assoc ..)⟩
    -- Whatever state the change has led to, the block of the copy is there to be released.
    have released (h' : Holding S)
        (sound' : h'.Sound policy refusals ((StorageSpec.block copy).toList ++ blocks)) :
        (Holding.onProvider (Storage.release copy) : Attempt (Holding S) Unit).Ends h'
          (fun _ after => after.Sound policy refusals blocks ∧ after.storage = h'.storage)
          fun _ _ => False := by
      have gone := LawfulStorage.release_ends made.sound
        (sound'.books.perm (List.perm_append_comm_assoc ..))
      refine (Holding.onProvider_ends gone).imp ?_ fun _ _ never => never.2
      rintro ⟨⟩ ⟨s', p'⟩ ⟨same, books⟩
      obtain rfl : s' = h'.storage := same
      exact ⟨⟨sound'.storage, books⟩, rfl⟩
    refine (changed _ _ p' (Storage.held made.sound) list besides).finally ?_ ?_
    · rintro _ h' ⟨sound', reached⟩
      refine (released h' sound').imp ?_ fun _ _ => False.elim
      rintro ⟨⟩ after ⟨kept, same⟩
      exact ⟨kept, by rw [same]; exact reached⟩
    · rintro failure h' ⟨tame, sound', reached⟩
      refine (released h' sound').imp ?_ fun _ _ => False.elim
      rintro ⟨⟩ after ⟨kept, same⟩
      exact ⟨tame, kept, by rw [same]; exact reached⟩

theorem besideCopy_keeps {s : S} {change : Span w → Attempt (Holding S) Unit}
    (sound : StorageSpec.Sound s)
    (preserves : ∀ copy : Span w, copy.Held → Preserves (change copy)) :
    Preserves (besideCopy s change) := by
  intro policy refusals others h before
  have ends := besideCopy_ends (fun _ => True) (fun _ => True) sound before
    (fun copy others p held _ besides => (preserves copy held _ besides).imp
      (fun _ _ sound' => ⟨sound', trivial⟩) fun _ _ ⟨tame, sound'⟩ => ⟨tame, sound', trivial⟩)
    trivial
  exact ends.imp (fun _ _ reached => reached.1) fun _ _ ⟨tame, sound', _⟩ => ⟨tame, sound'⟩

theorem copied_makes {s : S} {change : Attempt (Holding S) Unit} (sound : StorageSpec.Sound s)
    (preserves : Preserves change) : Makes (copied s change) := by
  intro policy refusals blocks p books
  have cloned := clone_makes sound policy refusals blocks p books
  refine (cloned.imp (fun _ _ => id) fun _ _ => id).bind ?_
  intro copy p' made
  exact onOwned_makes preserves made

end PackedBits.BitVector
