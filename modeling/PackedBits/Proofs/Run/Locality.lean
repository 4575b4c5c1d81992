import PackedBits.View
import PackedBits.FixedSet
import PackedBits.Proofs.Walk.References
import PackedBits.Proofs.Backend
import PackedBits.Proofs.Run.Change

/-! Changes in place are local. Whatever container holds the bits, in whatever words and from
whatever place in them, a change reads and writes these bits only: what it makes of them and what
it answers is a function of lists, and everything else of the container stays as it was, the words
of a second one included. A change that panics has changed nothing at all. -/
namespace PackedBits

/-- A container whose bits may be changed in place, with what makes its words hold them. -/
inductive Host : Nat → Type where
  /-- The bits of any words from any position on. -/
  | slice {w : Nat} (span : Span w) (held : span.Held) : Host w
  | view {w : Nat} (view : View w) (fits : view.len ≤ view.words.size * w) : Host w
  | set {w : Nat} (n : Nat) (set : FixedSet w n) (size : set.words.size = wordsFor w n) : Host w
  | vector (b : Backend) (storage : b.Carrier) (sound : StorageSpec.Sound storage) : Host b.width

namespace Host

def Carrier : {w : Nat} → Host w → Type
  | w, .slice .. => Span w
  | w, .view .. => View w
  | w, .set n .. => FixedSet w n
  | _, .vector b .. => b.Carrier

variable {w : Nat}

def value : (host : Host w) → host.Carrier
  | .slice span _ => span
  | .view viewed _ => viewed
  | .set _ fixed _ => fixed
  | .vector _ storage _ => storage

variable [HasBits w]

instance instContainer : (host : Host w) → Container host.Carrier w
  | .slice .. => inferInstanceAs (Container (Span w) w)
  | .view .. => inferInstanceAs (Container (View w) w)
  | .set n .. => inferInstanceAs (Container (FixedSet w n) w)
  | .vector b .. => inferInstanceAs (Container b.Carrier b.width)

def span (host : Host w) : Span w := Container.span host.value

def bits (host : Host w) : List Bool := host.span.toList

theorem held (host : Host w) : host.span.Held := by
  cases host with
  | slice span held => exact held
  | view viewed fits =>
      show 0 + viewed.len ≤ viewed.words.size * w
      omega
  | set n fixed size =>
      show 0 + n ≤ fixed.words.size * w
      rw [Nat.zero_add, size]
      exact le_wordsFor n
  | vector b storage sound =>
      have held : (Container.span storage).Held := Storage.held sound
      exact held

theorem putWords_self (host : Host w) :
    Container.putWords host.value host.span.words = host.value := by
  cases host with
  | slice span held => rfl
  | view viewed fits => rfl
  | set n fixed size => rfl
  | vector b storage sound =>
      cases b with
      | plain width positive => rfl
      | smallBuffer => exact SmallBuffer.putWords_self storage
      | tagged => exact Tagged.putWords_self storage

theorem putWords_putWords (host : Host w) {s : Span w} (within : Span.Within host.span s)
    (words : Array (BitVec w)) :
    Container.putWords (Container.putWords host.value s.words) words =
      Container.putWords host.value words := by
  rw [within.eq_words] at within
  cases host with
  | slice span held => rfl
  | view viewed fits => rfl
  | set n fixed size => rfl
  | vector b storage sound =>
      have mode := (LawfulStorage.putWords sound within).onHeap sound
      cases b with
      | plain width positive => rfl
      | smallBuffer => exact SmallBuffer.putWords_putWords mode words
      | tagged => exact Tagged.putWords_putWords mode words

theorem span_putWords (host : Host w) {words : Array (BitVec w)}
    (within : Span.Within host.span { host.span with words := words }) :
    Container.span (Container.putWords host.value words) = { host.span with words := words } := by
  cases host with
  | slice span held => rfl
  | view viewed fits => rfl
  | set n fixed size => rfl
  | vector b storage sound => exact (LawfulStorage.putWords sound within).span

/-- What a change in place may have made of a container: it has other words, which differ from the
old ones only where its bits are. -/
structure Rewritten (host : Host w) (after : host.Carrier) : Prop where
  words : after = Container.putWords host.value (Container.span after).words
  within : Span.Within host.span (Container.span after)

theorem rewritten_putWords (host : Host w) {s : Span w} (within : Span.Within host.span s) :
    host.Rewritten (Container.putWords host.value s.words) ∧
      Container.span (Container.putWords host.value s.words) = s := by
  have same := within.eq_words
  rw [same] at within
  have put := (host.span_putWords within).trans same.symm
  rw [← same] at within
  exact ⟨⟨by rw [put], put.symm ▸ within⟩, put⟩

/-- In place, the attempt turns the bits of the container into those of the outcome and leaves all
else of it alone, or panics as the outcome does and has changed nothing. -/
def Does {α : Type} (host : Host w) (attempt : Attempt (Span w) α)
    (outcome : Query (α × List Bool)) : Prop :=
  (inPlace attempt).Ends host.value
    (fun value after =>
      host.Rewritten after ∧ outcome = .ok (value, (Container.span after).toList))
    fun failure after =>
      after = host.value ∧ (∃ panic, failure = .panic panic) ∧ outcome = .error failure

theorem does_of_span {α : Type} {host : Host w} {attempt : Attempt (Span w) α}
    {outcome : Query (α × List Bool)} (does : host.span.Does attempt outcome) :
    host.Does attempt outcome := by
  refine Attempt.Ends.within host.value does ?_ ?_
  · rintro value s ⟨within, same⟩
    obtain ⟨rewritten, put⟩ := host.rewritten_putWords within
    exact ⟨rewritten, by rw [put]; exact same⟩
  · rintro failure s ⟨rfl, panics, same⟩
    exact ⟨host.putWords_self, panics, same⟩

section
variable {α β : Type} {host : Host w} {attempt : Attempt (Span w) α}

omit [HasBits w] in
/-- The outcome settles what an attempt in place makes of a container. -/
theorem inPlace_congr {attempt' : Attempt (Span w) α} {outcome : Query (α × List Bool)}
    (does : host.span.Does attempt outcome) (does' : host.span.Does attempt' outcome) :
    inPlace attempt host.value = inPlace attempt' host.value := by
  have same : attempt (Container.span host.value) = attempt' (Container.span host.value) :=
    does.unique does'
  simp only [inPlace, Attempt.within, same]

theorem inPlace_unchanged {value : α} (does : host.span.Does attempt (.ok (value, host.bits))) :
    inPlace attempt host.value = .ok value host.value := by
  have returned : inPlace (Pure.pure value) host.value =
      .ok value (Container.putWords host.value host.span.words) := Attempt.within_ok rfl
  rw [inPlace_congr does (Span.Does.returned host.span value), returned, host.putWords_self]

theorem inPlace_bind {next : α → Attempt (Span w) β} {value : α} {bits : List Bool}
    (does : host.span.Does attempt (.ok (value, bits))) :
    (inPlace attempt >>= fun answer => inPlace (next answer)) host.value =
      inPlace (attempt >>= next) host.value := by
  obtain ⟨answer, s, ran, within, -, -⟩ := does.done.succeeds
  have put := (host.rewritten_putWords within).2
  have first : inPlace attempt host.value =
      .ok answer (Container.putWords host.value s.words) := Attempt.within_ok ran
  have through : (attempt >>= next) (Container.span host.value) = next answer s :=
    Attempt.bind_apply ran
  rw [Attempt.bind_apply first]
  simp only [inPlace, Attempt.within, put, through]
  -- Of the words put back by the first attempt nothing is left.
  cases next answer s <;> simp only [host.putWords_putWords within]

/-- A change after which another one has the old bits again is undone by it, the words around the
bits included. -/
theorem undone {back : Attempt (Span w) β} {value : α} {value' : β} {bits : List Bool}
    (there : host.span.Does attempt (.ok (value, bits)))
    (here : ∀ s : Span w, s.Held → s.toList = bits → s.Does back (.ok (value', host.bits))) :
    (inPlace attempt >>= fun _ => inPlace back) host.value = .ok value' host.value := by
  rw [inPlace_bind there]
  exact inPlace_unchanged (there.andThen fun s within list => here s (within.held host.held) list)

end

def exchange (host other : Host w) : Attempt (host.Carrier × other.Carrier) Unit :=
  Span.swapBits.within (fun both => (Container.span both.1, Container.span both.2))
    fun both spans =>
      (Container.putWords both.1 spans.1.words, Container.putWords both.2 spans.2.words)

/-- Exchanging rewrites the bits of both containers and nothing else, or panics and has changed
neither. -/
def Exchanges (host other : Host w) : Prop :=
  (exchange host other).Ends (host.value, other.value)
    (fun _ after => host.Rewritten after.1 ∧ other.Rewritten after.2 ∧
      OnList.exchange host.bits other.bits =
        .ok ((Container.span after.1).toList, (Container.span after.2).toList))
    fun failure after => after = (host.value, other.value) ∧ (∃ panic, failure = .panic panic) ∧
      OnList.exchange host.bits other.bits = .error failure

theorem exchanges (host other : Host w) : host.Exchanges other := by
  have swapped : Span.swapBits.Ends (Container.span host.value, Container.span other.value) _ _ :=
    Span.swapBits_does host.held other.held
  refine Attempt.Ends.within (host.value, other.value) swapped ?_ ?_
  · rintro value ⟨s, t⟩ ⟨within, within', same⟩
    obtain ⟨rewritten, put⟩ := host.rewritten_putWords within
    obtain ⟨rewritten', put'⟩ := other.rewritten_putWords within'
    exact ⟨rewritten, rewritten', by rw [put, put']; exact same⟩
  · rintro failure after ⟨rfl, panics, same⟩
    exact ⟨by rw [Prod.mk.injEq]; exact ⟨host.putWords_self, other.putWords_self⟩, panics, same⟩

/-- Combining goes on in a memory that has the words of both containers, and those of the second
one are as they were afterwards. -/
def SparesOperand (host other : Host w) : Prop :=
  ∀ op : BitOp, ∃ m stop,
    transform (host.span.beside other.span) op (host.span.firstIn 0)
      (min host.span.len other.span.len) (other.span.firstIn 1) (host.span.firstIn 0) =
        some (m, stop) ∧ m.words 1 = other.span.words

theorem sparesOperand (host other : Host w) : host.SparesOperand other := by
  intro op
  obtain ⟨m, combined, written⟩ := Span.combine_overwritten host.held other.held op
  have words : (host.span.beside other.span).words 0 = host.span.words := rfl
  have holds := (Span.holds_words words host.held).lower (Nat.min_le_left _ other.span.len)
  refine ⟨m, _, combined, (written.altered holds).words_eq ?_⟩
  rintro position ⟨here, -⟩
  cases here

/-- The references that a walk hands out are those to different bits of the container, each as it is
when asked for alone. -/
def LendsBits (host : Host w) : Prop :=
  ∀ sides : List Bool, (RefWalk.handOut sides).Ends host.span.walkRefs
    (fun refs _ => ∃ places : List Nat, places.Nodup ∧
      refs.map .ok = places.map host.span.bitRef) fun _ _ => False

theorem lendsBits (host : Host w) : host.LendsBits := by
  intro sides
  rw [RefWalk.walkRefs_eq]
  refine (RefWalk.handOut_ends sides (Nat.zero_le _)).imp ?_ fun _ _ => id
  rintro refs walk ⟨places, distinct, inside, rfl⟩
  refine ⟨places, distinct, ?_⟩
  rw [List.map_map]
  refine List.map_congr_left fun i member => ?_
  rcases host.span.bitRef_cases i with ⟨-, answer⟩ | ⟨above, -⟩
  · exact answer.symm
  · exact absurd (inside i member).2 (Nat.not_lt.mpr above)

def result {α : Type} (host : Host w) (attempt : Attempt (Span w) α) : Query α × List Bool :=
  match inPlace attempt host.value with
  | .ok value after => (.ok value, (Container.span after).toList)
  | .error failure after => (.error failure, (Container.span after).toList)

def resultOf {α : Type} (bits : List Bool) : Query (α × List Bool) → Query α × List Bool
  | .ok (value, bits) => (.ok value, bits)
  | .error failure => (.error failure, bits)

omit [HasBits w] in
theorem Does.result_eq {α : Type} {host : Host w} {attempt : Attempt (Span w) α}
    {outcome : Query (α × List Bool)} (does : host.Does attempt outcome) :
    host.result attempt = resultOf host.bits outcome := by
  rw [result]
  unfold Host.Does Attempt.Ends at does
  split <;> rename_i run <;> rw [run] at does
  · rw [does.2, resultOf]
  · rw [does.2.2, does.1, resultOf]
    rfl

/-- What it means that changes in place of one container, beside another one, are local. -/
structure Local (host other : Host w) : Prop where
  change (change : Change) :
    host.Does (change.attempt other.span) (change.onList other.bits host.bits)
  retain {τ : Type} (keep : Nat → τ → Bool × τ) (state : τ) :
    host.Does (Span.retain keep state) (.ok (OnList.retain keep 0 host.bits state))
  exchange : host.Exchanges other
  operand : host.SparesOperand other
  references : host.LendsBits
  /-- Neither the width of the words nor the kind of the container nor any bit around the bits
  makes a difference. -/
  alike {w' : Nat} [HasBits w'] {host' other' : Host w'} (bits : host'.bits = host.bits)
    (bitsOther : other'.bits = other.bits) (change : Change) :
    host'.result (change.attempt other'.span) = host.result (change.attempt other.span)

end Host

theorem changes_in_place_are_local {w : Nat} [HasBits w] (host other : Host w) :
    host.Local other := by
  have changed {w : Nat} [HasBits w] (host other : Host w) (change : Change) :
      host.Does (change.attempt other.span) (change.onList other.bits host.bits) :=
    Host.does_of_span (change.attempt_does host.held other.held)
  refine ⟨changed host other, ?_, host.exchanges other, host.sparesOperand other,
    host.lendsBits, ?_⟩
  · intro τ keep state
    exact Host.does_of_span (Span.retain_does keep host.held state)
  · intro w' _ host' other' bits bitsOther change
    rw [(changed host' other' change).result_eq, (changed host other change).result_eq, bits,
      bitsOther]

/-- Seven bits across two bytes, beside a shorter view; a set of wide words changes alike. -/
theorem bits_across_two_words_change_locally :
    let host : Host 8 := .slice ⟨#[0xA5#8, 0x5A#8], 5, 7⟩ (show 5 + 7 ≤ 2 * 8 by decide)
    let other : Host 8 := .view ⟨#[0x0F#8], 6⟩ (by decide)
    let wide : Host 64 := .set 7 ⟨#[0x55#64]⟩ rfl
    let otherWide : Host 64 := .slice ⟨#[0#64, 0xF0#64], 68, 6⟩ (show 68 + 6 ≤ 2 * 64 by decide)
    host.Does (Change.andWith.attempt other.span)
      (.ok (.done, [true, false, true, false, false, false, false])) ∧
    ∀ change : Change,
      wide.result (change.attempt otherWide.span) = host.result (change.attempt other.span) := by
  intro host other wide otherWide
  have bits : host.bits = [true, false, true, false, true, false, true] := by decide
  have bitsOther : other.bits = [true, true, true, true, false, false] := by decide
  have here := changes_in_place_are_local host other
  constructor
  · have meaning : Change.andWith.onList other.bits host.bits =
        .ok (.done, [true, false, true, false, false, false, false]) := by
      rw [bits, bitsOther]
      rfl
    rw [← meaning]
    exact here.change .andWith
  · have bitsWide : wide.bits = host.bits := by
      rw [bits]
      decide
    have bitsOtherWide : otherWide.bits = other.bits := by
      rw [bitsOther]
      decide
    exact here.alike bitsWide bitsOtherWide

end PackedBits
