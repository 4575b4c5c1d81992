import PackedBits.Walk.Bits
import PackedBits.Walk.Select
import PackedBits.Proofs.Run.Locality
import PackedBits.Proofs.Walk.Ahead
import PackedBits.Proofs.Walk.Ones

/-! What a selection yields and what its hint says of it. A selection has ahead, for each set position
that is left, the item that its source has there, and ends with the first position that the source
does not reach. The upper bound of its hint always holds. The lower one is the smaller of the two
numbers of items left and positions left, which says nothing of where the positions are: it holds
exactly if the source reaches as many of them. -/
namespace PackedBits

theorem ascending_le {entries : List Nat} {bound n entry : Nat}
    (ascending : entries.Pairwise (· < ·)) (above : ∀ entry ∈ entries, bound ≤ entry)
    (found : entries[n]? = some entry) : bound + n ≤ entry := by
  induction entries generalizing bound n with
  | nil => cases found
  | cons first later ih =>
      obtain ⟨least, ascending⟩ := List.pairwise_cons.mp ascending
      have start := above first List.mem_cons_self
      cases n with
      | zero =>
          obtain rfl : first = entry := Option.some.inj found
          exact start
      | succ n =>
          have beyond : ∀ entry ∈ later, bound + 1 ≤ entry := fun entry member =>
            Nat.lt_of_le_of_lt start (least entry member)
          have reached := ih ascending beyond found
          omega

namespace Selection
variable {w : Nat} {ι α : Type} [Walk ι α] {good : ι → Prop} {places : List Nat} {source : ι}
  {selection : Selection w ι}

/-- Where a selection from a source may be: some of the set positions are left, and what its source
has ahead of them is what the source had there from the start. -/
structure Reached (good : ι → Prop) (places : List Nat) (source : ι)
    (selection : Selection w ι) : Prop where
  ones : selection.ones.Sound
  lawful : good selection.source
  left : selection.ones.rest <:+ places
  behind : ∀ place ∈ selection.ones.rest, selection.index ≤ place
  same : ∀ place ∈ selection.ones.rest,
    Walk.ahead (place - selection.index) selection.source = Walk.ahead place source

theorem select_reached {s : Span w} (held : s.Held) (start : good source) :
    Reached good s.places source (s.select source) where
  ones := OnesWalk.ones_sound held
  lawful := start
  left := List.suffix_refl _
  behind _ _ := Nat.zero_le _
  same _ _ := rfl

theorem reached_over {ones : OnesWalk w} {index : Nat} {source' : ι} (sound : ones.Sound)
    (ended : ones.rest = []) (start : good source') :
    Reached good places source ⟨ones, index, source'⟩ where
  ones := sound
  lawful := start
  left := by
    rw [ended]
    exact List.nil_suffix
  behind place member := by
    rw [ended] at member
    cases member
  same place member := by
    rw [ended] at member
    cases member

variable [HasBits w]

omit [HasBits w] in
theorem onOnes_ok {β : Type} {attempt : Attempt (OnesWalk w) β} {value : β} {ones : OnesWalk w}
    (ran : attempt selection.ones = .ok value ones) :
    onOnes attempt selection = .ok value { selection with ones := ones } := Attempt.within_ok ran

omit [HasBits w] in
theorem onSource_ok {β : Type} {attempt : Attempt ι β} {value : β} {source : ι}
    (ran : attempt selection.source = .ok value source) :
    onSource attempt selection = .ok value { selection with source := source } :=
  Attempt.within_ok ran

theorem next_none {ones : OnesWalk w} (ran : OnesWalk.next selection.ones = .ok none ones) :
    next selection = .ok none ⟨ones.exhaust, selection.index, selection.source⟩ := by
  rw [next, Attempt.bind_apply (onOnes_ok ran)]
  rfl

theorem next_item {ones : OnesWalk w} {place : Nat} {item : α} {source' : ι}
    (ran : OnesWalk.next selection.ones = .ok (some place) ones)
    (jumped : Walk.nth (place - selection.index) selection.source = .ok (some item) source') :
    next selection = .ok (some item) ⟨ones, place + 1, source'⟩ := by
  have moved : onSource (Walk.nth (place - selection.index)) { selection with ones := ones } = _ :=
    onSource_ok jumped
  rw [next, Attempt.bind_apply (onOnes_ok ran)]
  show (onSource (Walk.nth (place - selection.index)) >>= _) _ = _
  rw [Attempt.bind_apply moved]
  rfl

theorem next_missing {ones : OnesWalk w} {place : Nat} {source' : ι}
    (ran : OnesWalk.next selection.ones = .ok (some place) ones)
    (jumped : (Walk.nth (place - selection.index) : Attempt ι (Option α)) selection.source =
      .ok none source') :
    next selection = .ok none ⟨ones.exhaust, selection.index, source'⟩ := by
  have moved : onSource (Walk.nth (place - selection.index)) { selection with ones := ones } = _ :=
    onSource_ok jumped
  rw [next, Attempt.bind_apply (onOnes_ok ran)]
  show (onSource (Walk.nth (place - selection.index)) >>= _) _ = _
  rw [Attempt.bind_apply moved]
  rfl

theorem next_fails {ones : OnesWalk w} {place : Nat} {failure : Failure} {source' : ι}
    (ran : OnesWalk.next selection.ones = .ok (some place) ones)
    (jumped : (Walk.nth (place - selection.index) : Attempt ι (Option α)) selection.source =
      .error failure source') :
    next selection = .error failure ⟨ones, selection.index, source'⟩ := by
  have moved : (onSource (Walk.nth (place - selection.index)) : Attempt (Selection w ι) (Option α))
      { selection with ones := ones } = _ := Attempt.within_error jumped
  rw [next, Attempt.bind_apply (onOnes_ok ran)]
  show (onSource (Walk.nth (place - selection.index)) >>= _) _ = _
  rw [Attempt.bind_stops moved]

theorem Reached.next_cases (lawful : Walk.Lawful good)
    (reached : Reached good places source selection) :
    (∃ selection', next selection = .ok none selection' ∧
      Reached good places source selection' ∧
      ∀ place ∈ selection.ones.rest.head?, Walk.ahead place source = none) ∨
      ∃ place item selection', selection.ones.rest = place :: selection'.ones.rest ∧
        Walk.ahead place source = some item ∧ next selection = .ok (some item) selection' ∧
        Reached good places source selection' := by
  obtain ⟨ended, ones, ran, sound, -⟩ | ⟨place, later, ones, split, ran, sound, rfl⟩ :=
    reached.ones.next_cases
  · refine .inl ⟨_, next_none ran, reached_over sound.exhaust (OnesWalk.rest_exhaust _)
      reached.lawful, ?_⟩
    rw [ended]
    exact nofun
  · have member : place ∈ selection.ones.rest := by
      rw [split]
      exact List.mem_cons_self
    obtain ⟨source', jumped, still, beyond⟩ :=
      lawful.nth (place - selection.index) reached.lawful
    rw [reached.same place member] at jumped beyond
    cases there : Walk.ahead place source with
    | none =>
        rw [there] at jumped
        refine .inl ⟨_, next_missing ran jumped, reached_over sound.exhaust
          (OnesWalk.rest_exhaust _) still, ?_⟩
        rw [split]
        rintro _ ⟨⟩
        exact there
    | some item =>
        rw [there] at jumped beyond
        have ascending := selection.ones.rest_ascending
        rw [split, List.pairwise_cons] at ascending
        refine .inr ⟨place, item, ⟨ones, place + 1, source'⟩, split, there, next_item ran jumped,
          sound, still, ?_, ascending.1, ?_⟩
        · have suffix : ones.rest <:+ selection.ones.rest := by
            rw [split]
            exact List.suffix_cons _ _
          exact suffix.trans reached.left
        · intro other later
          have order := ascending.1 other later
          have behind := reached.behind place member
          have known : other ∈ selection.ones.rest := by
            rw [split]
            exact List.mem_cons_of_mem _ later
          have distance : place - selection.index + 1 + (other - (place + 1)) =
              other - selection.index := by omega
          rw [beyond rfl, distance]
          exact reached.same other known

theorem Reached.ahead_eq (lawful : Walk.Lawful good)
    (reached : Reached good places source selection) (n : Nat) :
    Walk.ahead n selection =
      selection.ones.rest[n]?.bind fun place => Walk.ahead place source := by
  induction n generalizing selection with
  | zero =>
      obtain ⟨selection', ran, -, missing⟩ | ⟨place, item, selection', split, there, ran, -⟩ :=
        reached.next_cases lawful
      · rw [Walk.ahead_none ran]
        cases first : selection.ones.rest[0]? with
        | none => rfl
        | some place => exact (missing place (List.head?_eq_getElem? ▸ first)).symm
      · rw [Walk.ahead_zero ran, split]
        exact there.symm
  | succ n ih =>
      obtain ⟨selection', ran, -, missing⟩ | ⟨place, item, selection', split, -, ran, still⟩ :=
        reached.next_cases lawful
      · rw [Walk.ahead_none ran]
        cases found : selection.ones.rest[n + 1]? with
        | none => rfl
        | some place =>
            -- The position is above the first one left, which the source does not reach.
            obtain ⟨below, rfl⟩ := List.getElem?_eq_some_iff.mp found
            have ascending := List.pairwise_iff_getElem.mp selection.ones.rest_ascending
            have order := ascending 0 (n + 1) (Nat.zero_lt_of_lt below) below (Nat.succ_pos n)
            have first := missing selection.ones.rest[0] (by
              rw [List.head?_eq_getElem?]
              exact List.getElem?_eq_getElem _)
            exact (Walk.ahead_none_mono first (Nat.le_of_lt order)).symm
      · rw [Walk.ahead_succ ran, ih still, split]
        rfl

theorem hint_eq {bounds : SizeHint} {source' : ι} (sound : selection.ones.Sound)
    (asked : (Walk.hint : Attempt ι SizeHint) selection.source = .ok bounds source') :
    ∃ ones, Selection.hint selection = .ok ⟨min bounds.lower selection.ones.rest.length,
        bounds.upper.map (min · selection.ones.rest.length)⟩ ⟨ones, selection.index, source'⟩ ∧
      ones.Sound ∧ ones.rest = selection.ones.rest := by
  obtain ⟨ones, counted, sound', same⟩ := sound.length_spec
  have total : onOnes OnesWalk.length { selection with source := source' } = _ := onOnes_ok counted
  refine ⟨ones, ?_, sound', same⟩
  rw [Selection.hint, Attempt.bind_apply (onSource_ok asked), Attempt.bind_apply total]
  rfl

theorem Reached.hint_spec (lawful : Walk.Lawful good)
    (reached : Reached good places source selection) :
    ∃ hint selection', Selection.hint selection = .ok hint selection' ∧
      Reached good places source selection' ∧ hint.lower ≤ selection.ones.rest.length ∧
      ∀ limit ∈ hint.upper, Walk.AtMost limit selection := by
  obtain ⟨bounds, source', asked, still, unchanged, -, upper⟩ := lawful.hint reached.lawful
  obtain ⟨ones, hinted, sound, same⟩ := hint_eq reached.ones asked
  refine ⟨_, _, hinted, ⟨sound, still, ?_, ?_, ?_⟩, Nat.min_le_right _ _, ?_⟩
  · exact same.symm ▸ reached.left
  · exact same.symm ▸ reached.behind
  · intro place member
    have known : place ∈ selection.ones.rest := same ▸ member
    rw [unchanged, reached.same place known]
  · intro limit bounded
    obtain ⟨most, given, rfl⟩ := Option.map_eq_some_iff.mp bounded
    rw [Walk.AtMost, reached.ahead_eq lawful]
    cases found : selection.ones.rest[min most selection.ones.rest.length]? with
    | none => rfl
    | some place =>
        -- A position is left at the bound, so the bound is that of the source.
        obtain ⟨below, -⟩ := List.getElem?_eq_some_iff.mp found
        have bound : min most selection.ones.rest.length = most := by omega
        have far := ascending_le selection.ones.rest_ascending reached.behind found
        have known : place ∈ selection.ones.rest := List.mem_of_getElem? found
        have missing : Walk.ahead (place - selection.index) selection.source = none :=
          Walk.ahead_none_mono (upper most given) (by omega)
        exact (reached.same place known).symm.trans missing

theorem Reached.atLeast_iff (lawful : Walk.Lawful good)
    (reached : Reached good places source selection) {n : Nat}
    (within : n ≤ selection.ones.rest.length) :
    Walk.AtLeast n selection ↔
      ∀ place ∈ selection.ones.rest.take n, (Walk.ahead place source).isSome := by
  constructor
  · intro enough place member
    obtain ⟨k, below, rfl⟩ := List.getElem_of_mem member
    rw [List.length_take] at below
    have there := enough k (by omega)
    rw [reached.ahead_eq lawful, List.getElem?_eq_getElem (by omega)] at there
    rwa [List.getElem_take]
  · intro reaches k below
    have inside : k < selection.ones.rest.length := by omega
    rw [reached.ahead_eq lawful, List.getElem?_eq_getElem inside]
    exact reaches _ (List.mem_take_iff_getElem.mpr ⟨k, by omega, rfl⟩)

theorem call_keeps (lawful : Walk.Lawful good) (asked : Walk.Call) :
    (Walk.call asked : Attempt (Selection w ι) (Walk.Reply α)).Keeps
      (Reached good places source) := by
  have step : (next : Attempt (Selection w ι) (Option α)).Keeps (Reached good places source) := by
    intro selection reached
    obtain ⟨_, ran, still, -⟩ | ⟨_, _, _, -, -, ran, still⟩ := reached.next_cases lawful
    · exact .of_ok ran still
    · exact .of_ok ran still
  cases asked with
  | next => exact step.bind fun _ => .pure _
  | nth n => exact (Walk.skipping_keeps step n).bind fun _ => .pure _
  | take n => exact (Walk.taking_keeps step n).bind fun _ => .pure _
  | hint =>
      refine Attempt.Keeps.bind ?_ fun _ => .pure _
      intro selection reached
      obtain ⟨_, _, ran, still, -⟩ := reached.hint_spec lawful
      exact .of_ok ran still

/-- What a selection yields and what its hint says, while these set positions are left. -/
structure Told (source : ι) (rest : List Nat) (selection : Selection w ι) (hint : SizeHint) :
    Prop where
  ahead (n : Nat) : Walk.ahead n selection = rest[n]?.bind fun place => Walk.ahead place source
  hinted : ∃ after, Walk.hint selection = .ok hint after
  upper : ∀ limit ∈ hint.upper, Walk.AtMost limit selection
  lower : Walk.AtLeast hint.lower selection ↔
    ∀ place ∈ rest.take hint.lower, (Walk.ahead place source).isSome

end Selection

/-- A selection from any container out of any lawful source, wherever calls have led it. -/
theorem selections_are_bounded_above {w : Nat} [HasBits w] (host : Host w) {ι α : Type} [Walk ι α]
    {good : ι → Prop} (lawful : Walk.Lawful good) (source : ι) (start : good source)
    (calls : List Walk.Call) :
    ∃ rest hint, rest <:+ host.span.places ∧
      Selection.Told source rest (Walk.after calls (host.span.select source)) hint := by
  have reached : Selection.Reached good host.span.places source
      (Walk.after calls (host.span.select source)) :=
    Walk.after_holds (Selection.call_keeps lawful) calls
      (Selection.select_reached host.held start)
  obtain ⟨hint, after, asked, -, within, upper⟩ := reached.hint_spec lawful
  exact ⟨_, hint, reached.left, reached.ahead_eq lawful, ⟨after, asked⟩, upper,
    reached.atLeast_iff lawful within⟩

/-- Three items for the set positions zero, two and five: the last one is not reached. -/
theorem selections_are_bounded_above_over_three_items :
    let mask : Host 8 := .view ⟨#[0x25#8], 8⟩ (by decide)
    let source : Items Nat := ⟨[100, 101, 102]⟩
    let selection := Walk.after [.next, .hint] (mask.span.select source)
    (∃ rest hint, rest <:+ [0, 2, 5] ∧ Selection.Told source rest selection hint) ∧
      Walk.AtLeast 1 selection ∧ Walk.AtMost 1 selection := by
  intro mask source selection
  have places : mask.span.places = [0, 2, 5] := by decide
  have bounded := selections_are_bounded_above mask Items.lawful source trivial [.next, .hint]
  rw [places] at bounded
  refine ⟨bounded, ?_, ?_⟩
  · intro n below
    obtain rfl : n = 0 := Nat.lt_one_iff.mp below
    decide +kernel
  · show Walk.ahead 1 selection = none
    decide +kernel

/-- The lower bound may not hold: one position is left and there are three items, but the position
is behind all of them. -/
theorem Selection.lower_bound_overstates :
    let mask : Host 8 := .view ⟨#[0x20#8], 8⟩ (by decide)
    let source : Items Nat := ⟨[100, 101, 102]⟩
    let selection := mask.span.select source
    Walk.Lawful (fun _ : Items Nat => True) ∧
      (∃ after, Walk.hint selection = .ok ⟨1, some 1⟩ after) ∧ ¬ Walk.AtLeast 1 selection := by
  intro mask source selection
  have left : selection.ones.rest.length = 1 := by decide
  have sound : selection.ones.Sound := OnesWalk.ones_sound mask.held
  have asked : (Walk.hint : Attempt (Items Nat) SizeHint) selection.source =
      .ok ⟨3, some 3⟩ source := rfl
  obtain ⟨_, hinted, -⟩ := Selection.hint_eq sound asked
  rw [left] at hinted
  refine ⟨Items.lawful, ⟨_, hinted⟩, fun enough => ?_⟩
  have missing : Walk.ahead 0 selection = none := by decide +kernel
  have there := enough 0 Nat.one_pos
  rw [missing] at there
  cases there

end PackedBits
