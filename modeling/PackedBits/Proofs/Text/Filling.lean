import PackedBits.FixedSet
import PackedBits.Proofs.BitVector.Sets

/-! Filling new containers. A vector that is filled in place after room was made for it is refused
as clear bits would be, and comes to be where they would be; a filling that stops gives the block
back. A new set has clear bits only. -/
namespace PackedBits

namespace BitVector
variable {S : Type} {w : Nat} [HasBits w] [Storage S w]

/-- Making a vector of listed bits: it succeeds exactly if as many clear bits can be made, and is
refused just as these are. -/
structure MakesBits (attempt : Attempt Provider S) (bits : List Bool) (p : Provider) : Prop where
  done {clear : S} {p' : Provider} :
    (tryWithLen bits.length false : Attempt Provider S) p = .ok clear p' →
    ∃ s, attempt p = .ok s p' ∧ (Container.span s).toList = bits
  refused {failure : Failure} {p' : Provider} :
    (tryWithLen bits.length false : Attempt Provider S) p = .error failure p' →
    attempt p = .error failure p'

omit [HasBits w] in
theorem build_bind (first rest : Attempt (Holding S) Unit) :
    (build (do first; rest) : Attempt Provider S) = build first >>= fun s => onOwned s rest := by
  funext p
  cases ran : first ⟨Storage.empty, p⟩ with
  | ok value h =>
      have made : (build first : Attempt Provider S) p = .ok h.storage h.provider := by
        simp only [build, onOwned, ran]
      have went : (do first; rest) (⟨Storage.empty, p⟩ : Holding S) = rest h :=
        Attempt.bind_apply ran
      rw [Attempt.bind_apply made, build, onOwned, onOwned, went]
  | error failure h =>
      have stopped : (do first; rest) (⟨Storage.empty, p⟩ : Holding S) = .error failure h :=
        Attempt.bind_stops ran
      cases released : Storage.release h.storage h.provider with
      | ok value p' =>
          have failed : (build first : Attempt Provider S) p = .error failure p' := by
            simp only [build, onOwned, ran, released]
          rw [Attempt.bind_stops failed]
          simp only [build, onOwned, stopped, released]
      | error other p' =>
          have failed : (build first : Attempt Provider S) p = .error other p' := by
            simp only [build, onOwned, ran, released]
          rw [Attempt.bind_stops failed]
          simp only [build, onOwned, stopped, released]

section
variable {bits : List Bool} {n : Nat} {s s' : S} {p p' p'' : Provider}

theorem MakesBits.list_eq {attempt : Attempt Provider S} (makes : MakesBits attempt bits p)
    (ran : attempt p = .ok s p') : (Container.span s).toList = bits := by
  cases room : (tryWithLen bits.length false : Attempt Provider S) p with
  | ok clear p'' =>
      obtain ⟨made, same, list⟩ := makes.done room
      cases ran.symm.trans same
      exact list
  | error failure p'' => cases ran.symm.trans (makes.refused room)

theorem tryWithLen_of_done {rest : Attempt (Holding S) Unit}
    (ran : (build (do tryResize n false; rest) : Attempt Provider S) p = .ok s p') :
    ∃ s' p'', (tryWithLen n false : Attempt Provider S) p = .ok s' p'' := by
  rw [build_bind] at ran
  cases began : (build (tryResize n false) : Attempt Provider S) p with
  | ok s' p'' => exact ⟨s', p'', began⟩
  | error failure p'' =>
      rw [Attempt.bind_stops began] at ran
      cases ran

end

variable [StorageSpec S w] {policy : Policy} {refusals : Nat} {blocks : List Grant}
  {p p' : Provider}

omit [HasBits w] in
theorem Makes.made {attempt : Attempt Provider S} {s : S} (makes : Makes attempt)
    (books : Books policy refusals blocks p) (ran : attempt p = .ok s p') :
    Made policy refusals blocks s p' :=
  (makes policy refusals blocks p books).at_ok ran

theorem tryWithLen_done [LawfulStorage S w] {n : Nat} {s : S}
    (books : Books policy refusals blocks p)
    (ran : (tryWithLen n false : Attempt Provider S) p = .ok s p') :
    Made policy refusals blocks s p' ∧ (Container.span s).toList = List.replicate n false := by
  have ends : (tryWithLen n false : Attempt Provider S).Ends p _ _ :=
    onOwned_ends (fun s => (Container.span s).toList = List.replicate n false)
      (resize_empty_ends books n)
  exact ends.at_ok ran

variable [LawfulStorage S w] {change : Attempt (Span w) Unit}

theorem makesBits_of_done {bits : List Bool} (books : Books policy refusals blocks p)
    (fills : ∀ s : Span w, s.Held → s.toList = List.replicate bits.length false →
      change.Ends s (fun _ s' => Span.Within s s' ∧ s'.toList = bits) fun _ _ => False) :
    MakesBits (build (do tryResize bits.length false; inPlace change) : Attempt Provider S)
      bits p := by
  rw [build_bind]
  refine ⟨fun {s p'} ran => ?_, fun {failure p'} ran => Attempt.bind_stops ran⟩
  obtain ⟨made, clear⟩ := tryWithLen_done books ran
  have began : (build (tryResize bits.length false) : Attempt Provider S) p = .ok s p' := ran
  obtain ⟨_, h', changed, touched, list⟩ :=
    (made.holding.inPlace_done (fills _ (Storage.held made.sound) clear)).succeeds
  rw [Attempt.bind_apply began, onOwned, changed]
  exact ⟨h'.storage, congrArg (EStateM.Result.ok h'.storage) touched.room.provider, list⟩

theorem fails_of_stopped {n : Nat} {s : S} {failure : Failure}
    (books : Books policy refusals blocks p)
    (ran : (tryWithLen n false : Attempt Provider S) p = .ok s p')
    (stops : ∀ s : Span w, s.Held → s.toList = List.replicate n false →
      change.Ends s (fun _ _ => False) fun stopped s' => Span.Within s s' ∧ stopped = failure) :
    ∃ p'', (build (do tryResize n false; inPlace change) : Attempt Provider S) p =
      .error failure p'' := by
  obtain ⟨made, clear⟩ := tryWithLen_done books ran
  have stopped : change.Ends (Container.span s)
      (fun _ s' => Span.Within (Container.span s) s' ∧ False)
      fun stopped s' => Span.Within (Container.span s) s' ∧ stopped = failure :=
    (stops _ (Storage.held made.sound) clear).imp (fun _ _ => False.elim) fun _ _ => id
  have began : (build (tryResize n false) : Attempt Provider S) p = .ok s p' := ran
  rw [build_bind, Attempt.bind_apply began, onOwned]
  obtain ⟨_, _, -, -, never⟩ | ⟨_, h', changed, touched, rfl⟩ :=
    (made.holding.inPlace_ends stopped).ran
  · exact never.elim
  · obtain ⟨_, p'', released, -⟩ :=
      (LawfulStorage.release_ends touched.sound.storage touched.sound.books).succeeds
    exact ⟨p'', by simp only [changed, released]⟩

end BitVector

namespace FixedSet
variable {w n : Nat} [HasBits w]

theorem empty_held : (Container.span (empty : FixedSet w n)).Held := Span.held_zeroed n

omit [HasBits w] in
theorem empty_list :
    (Container.span (empty : FixedSet w n)).toList = List.replicate n false := Span.toList_zeroed n

theorem after_done {change : Attempt (Span w) Unit} {set : FixedSet w n} {bits : List Bool}
    (fills : change.Ends (Container.span set)
      (fun _ s' => Span.Within (Container.span set) s' ∧ s'.toList = bits) fun _ _ => False) :
    ∃ filled, set.after change = .ok filled ∧
      Span.Within (Container.span set) (Container.span filled) ∧
      (Container.span filled).toList = bits := by
  obtain ⟨value, s', ran, within, list⟩ := fills.succeeds
  have filled : inPlace change set = .ok value ⟨s'.words⟩ := Attempt.within_ok ran
  have same : Container.span (⟨s'.words⟩ : FixedSet w n) = s' := by
    obtain ⟨words, start', len'⟩ := s'
    obtain rfl : start' = 0 := within.start
    obtain rfl : len' = n := within.len
    rfl
  exact ⟨⟨s'.words⟩, by rw [after, filled], by rw [same]; exact within, by rw [same, list]⟩

end FixedSet

end PackedBits
