import PackedBits.Bounds

/-! Which range arguments fit. A pair of bounds names two positions, which may lie one past the
largest size; it fits a length when they are in order and the second is inside. Both ways of
resolving it accept exactly the pairs that fit, and yield the positions named, between which lie
the positions inside the bounds. -/
namespace PackedBits

def Bound.StartsBy (k : Nat) : Bound → Prop
  | .included value => value ≤ k
  | .excluded value => value < k
  | .unbounded => True

def Bound.EndsAfter (len k : Nat) : Bound → Prop
  | .included value => k ≤ value
  | .excluded value => k < value
  | .unbounded => k < len

theorem Extent.start_add_size {extent : Extent} (order : extent.start ≤ extent.stop) :
    extent.start + extent.size = extent.stop := Nat.add_sub_cancel' order

namespace Bounds

def first (bounds : Bounds) : Nat :=
  match bounds.lower with
  | .included value => value
  | .excluded value => value + 1
  | .unbounded => 0

def past (bounds : Bounds) (len : Nat) : Nat :=
  match bounds.upper with
  | .included value => value + 1
  | .excluded value => value
  | .unbounded => len

/-- The first position inside the bounds comes after the largest size. -/
def startOverflows (bounds : Bounds) : Bool :=
  match bounds.lower with
  | .excluded value => maxSize ≤ value
  | _ => false

def endOverflows (bounds : Bounds) : Bool :=
  match bounds.upper with
  | .included value => maxSize ≤ value
  | _ => false

/-- The first position inside the bounds, or the largest size for one after it. -/
def start (bounds : Bounds) : Nat := if bounds.startOverflows then maxSize else bounds.first

def stop (bounds : Bounds) (len : Nat) : Nat :=
  if bounds.endOverflows then maxSize else bounds.past len

/-- The error that answers bounds that do not fit, the end being looked at first. -/
def misfit (bounds : Bounds) (len : Nat) : Option Error :=
  if len < bounds.past len then some (.outOfRange (bounds.stop len) len)
  else if bounds.past len < bounds.first then some (.outOfRange bounds.start len)
  else none

/-- The panic that answers bounds that do not fit, or that no sizes can name. -/
def panic (bounds : Bounds) (len : Nat) : Option Panic :=
  if bounds.startOverflows then some .startOverflow
  else if bounds.endOverflows then some .endOverflow
  else if bounds.past len < bounds.first then
    some (.reversedRange bounds.first (bounds.past len))
  else if len < bounds.past len then some (.rangeEnd (bounds.past len) len)
  else none

def Fits (bounds : Bounds) (len : Nat) : Prop :=
  bounds.first ≤ bounds.past len ∧ bounds.past len ≤ len

instance (bounds : Bounds) (len : Nat) : Decidable (bounds.Fits len) :=
  inferInstanceAs (Decidable (_ ∧ _))

variable {bounds : Bounds} {len : Nat} {extent : Extent}

theorem lt_first (overflows : bounds.startOverflows) : maxSize < bounds.first := by
  obtain ⟨lower, upper⟩ := bounds
  cases lower with
  | included value => cases overflows
  | excluded value => exact Nat.lt_succ_of_le (of_decide_eq_true overflows)
  | unbounded => cases overflows

theorem lt_past (overflows : bounds.endOverflows) : maxSize < bounds.past len := by
  obtain ⟨lower, upper⟩ := bounds
  cases upper with
  | included value => exact Nat.lt_succ_of_le (of_decide_eq_true overflows)
  | excluded value => cases overflows
  | unbounded => cases overflows

theorem fits_of_panic_none (none : bounds.panic len = none) : bounds.Fits len := by
  unfold panic at none
  split at none
  · cases none
  · split at none
    · cases none
    · split at none
      · cases none
      · split at none
        · cases none
        · exact ⟨Nat.le_of_not_lt ‹_›, Nat.le_of_not_lt ‹_›⟩

theorem panic_of_fits (small : len ≤ maxSize) (fits : bounds.Fits len) :
    bounds.panic len = none := by
  obtain ⟨order, inside⟩ := fits
  have starts : ¬ bounds.startOverflows := fun overflows => by
    have := lt_first overflows
    omega
  have ends : ¬ bounds.endOverflows := fun overflows => by
    have : maxSize < bounds.past len := lt_past overflows
    omega
  rw [panic, if_neg starts, if_neg ends, if_neg (Nat.not_lt.mpr order),
    if_neg (Nat.not_lt.mpr inside)]

theorem resolve_eq (bounds : Bounds) (len : Nat) :
    bounds.resolve len =
      if bounds.startOverflows then .error (.panic .startOverflow)
      else if bounds.endOverflows then .error (.panic .endOverflow)
      else if bounds.past len < bounds.first then
        .error (.panic (.reversedRange bounds.first (bounds.past len)))
      else if len < bounds.past len then .error (.panic (.rangeEnd (bounds.past len) len))
      else .ok ⟨bounds.first, bounds.past len⟩ := by
  have after (value : Nat) (panic : Panic) (next : Nat → Query Extent) :
      (if value < maxSize then pure (value + 1) >>= next else throw (.panic panic) >>= next) =
        if maxSize ≤ value then .error (.panic panic) else next (value + 1) := by
    by_cases named : value < maxSize
    · rw [if_pos named, if_neg (Nat.not_le.mpr named)]
      rfl
    · rw [if_neg named, if_pos (Nat.le_of_not_lt named)]
      rfl
  obtain ⟨lower, upper⟩ := bounds
  cases lower <;> cases upper <;> simp only [resolve, after] <;>
    simp only [startOverflows, endOverflows, first, past, decide_eq_true_eq] <;> rfl

/-- Bounds resolve to the positions they name, unless there is a panic for them. -/
theorem resolve_cases (bounds : Bounds) (len : Nat) :
    (bounds.panic len = none ∧ bounds.resolve len = .ok ⟨bounds.first, bounds.past len⟩) ∨
      ∃ panic, bounds.panic len = some panic ∧ bounds.resolve len = .error (.panic panic) := by
  rw [resolve_eq, panic]
  split
  · exact .inr ⟨_, rfl, rfl⟩
  · split
    · exact .inr ⟨_, rfl, rfl⟩
    · split
      · exact .inr ⟨_, rfl, rfl⟩
      · split
        · exact .inr ⟨_, rfl, rfl⟩
        · exact .inl ⟨rfl, rfl⟩

theorem resolve_of_panic_none (none : bounds.panic len = none) :
    bounds.resolve len = .ok ⟨bounds.first, bounds.past len⟩ := by
  rcases resolve_cases bounds len with ⟨-, resolved⟩ | ⟨panic, stops, -⟩
  · exact resolved
  · rw [none] at stops
    cases stops

/-- In a length that is a size, bounds that fit resolve: only ends past every size overflow. -/
theorem resolve_fits (small : len ≤ maxSize) (fits : bounds.Fits len) :
    bounds.resolve len = .ok ⟨bounds.first, bounds.past len⟩ :=
  resolve_of_panic_none (panic_of_fits small fits)

theorem resolve_ok (resolved : bounds.resolve len = .ok extent) :
    extent = ⟨bounds.first, bounds.past len⟩ ∧ bounds.Fits len ∧ bounds.panic len = none := by
  rcases resolve_cases bounds len with ⟨none, named⟩ | ⟨panic, -, stopped⟩
  · rw [named] at resolved
    cases resolved
    exact ⟨rfl, fits_of_panic_none none, none⟩
  · rw [stopped] at resolved
    cases resolved

theorem resolve_within (resolved : bounds.resolve len = .ok extent) :
    extent.start ≤ extent.stop ∧ extent.stop ≤ len := by
  obtain ⟨rfl, fits, -⟩ := resolve_ok resolved
  exact fits

theorem resolve_error {failure : Failure} (stopped : bounds.resolve len = .error failure) :
    ∃ panic, bounds.panic len = some panic ∧ failure = .panic panic := by
  rcases resolve_cases bounds len with ⟨-, named⟩ | ⟨panic, stops, same⟩
  · rw [named] at stopped
    cases stopped
  · rw [same] at stopped
    cases stopped
    exact ⟨panic, stops, rfl⟩

theorem resolve_panics {failure : Failure} (stopped : bounds.resolve len = .error failure) :
    ∃ panic, failure = .panic panic := by
  obtain ⟨panic, -, same⟩ := resolve_error stopped
  exact ⟨panic, same⟩

theorem resolve_startingAt {start : Nat} (within : start ≤ len) :
    (startingAt start).resolve len = .ok ⟨start, len⟩ := by
  simp [startingAt, resolve, Nat.not_lt.mpr within]
  rfl

theorem resolve_below {stop : Nat} (within : stop ≤ len) :
    (below stop).resolve len = .ok ⟨0, stop⟩ := by
  simp [below, resolve, Nat.not_lt.mpr within]
  rfl

theorem resolve_all (len : Nat) : all.resolve len = .ok ⟨0, len⟩ := by
  simp [all, resolve]
  rfl

theorem start_cases (bounds : Bounds) :
    bounds.start = bounds.first ∨ bounds.start = maxSize ∧ maxSize < bounds.first := by
  unfold start
  split
  case isTrue overflows => exact .inr ⟨rfl, lt_first overflows⟩
  case isFalse => exact .inl rfl

theorem stop_cases (bounds : Bounds) (len : Nat) :
    bounds.stop len = bounds.past len ∨
      bounds.stop len = maxSize ∧ maxSize < bounds.past len := by
  unfold stop
  split
  case isTrue overflows => exact .inr ⟨rfl, lt_past overflows⟩
  case isFalse => exact .inl rfl

theorem check_eq (bounds : Bounds) (len : Nat) :
    bounds.check len =
      if len < bounds.stop len then .error (.error (.outOfRange (bounds.stop len) len))
      else if bounds.stop len < bounds.start then .error (.error (.outOfRange bounds.start len))
      else .ok ⟨bounds.start, bounds.stop len⟩ := by
  have capped (value : Nat) :
      min (value + 1) maxSize = if maxSize ≤ value then maxSize else value + 1 := by
    split <;> omega
  obtain ⟨lower, upper⟩ := bounds
  cases lower <;> cases upper <;> simp only [check, capped] <;>
    simp only [start, stop, startOverflows, endOverflows, first, past, decide_eq_true_eq] <;> rfl

/-- Checking answers misfits with errors and takes the positions named otherwise. -/
theorem check_cases (bounds : Bounds) (small : len < maxSize) :
    (bounds.misfit len = none ∧ bounds.check len = .ok ⟨bounds.first, bounds.past len⟩) ∨
      ∃ error, bounds.misfit len = some error ∧ bounds.check len = .error (.error error) := by
  rw [check_eq, misfit]
  have starts := bounds.start_cases
  have stops := bounds.stop_cases len
  by_cases outside : len < bounds.past len
  · rw [if_pos outside, if_pos (by omega)]
    exact .inr ⟨_, rfl, rfl⟩
  -- An end inside the length is a size.
  · have stop : bounds.stop len = bounds.past len := by omega
    rw [if_neg outside, stop, if_neg outside]
    by_cases reversed : bounds.past len < bounds.first
    · rw [if_pos reversed, if_pos (by omega)]
      exact .inr ⟨_, rfl, rfl⟩
    · have start : bounds.start = bounds.first := by omega
      rw [if_neg reversed, start, if_neg reversed]
      exact .inl ⟨rfl, rfl⟩

theorem check_ok (small : len < maxSize) (checked : bounds.check len = .ok extent) :
    extent = ⟨bounds.first, bounds.past len⟩ ∧ bounds.misfit len = none := by
  rcases check_cases bounds small with ⟨fit, named⟩ | ⟨error, -, refused⟩
  · rw [named] at checked
    cases checked
    exact ⟨rfl, fit⟩
  · rw [refused] at checked
    cases checked

theorem check_error {failure : Failure} (small : len < maxSize)
    (refused : bounds.check len = .error failure) :
    ∃ error, bounds.misfit len = some error ∧ failure = .error error := by
  rcases check_cases bounds small with ⟨-, named⟩ | ⟨error, misfit, same⟩
  · rw [named] at refused
    cases refused
  · rw [same] at refused
    cases refused
    exact ⟨error, misfit, rfl⟩

theorem check_within (checked : bounds.check len = .ok extent) :
    extent.start ≤ extent.stop ∧ extent.stop ≤ len := by
  rw [check_eq] at checked
  split at checked
  · cases checked
  · split at checked
    · cases checked
    · cases checked
      exact ⟨Nat.le_of_not_lt ‹_›, Nat.le_of_not_lt ‹_›⟩

theorem check_tame : bounds.check len ≠ .error .wild := by
  rw [check_eq]
  split
  · exact nofun
  · split <;> exact nofun

def Contains (bounds : Bounds) (len k : Nat) : Prop :=
  bounds.lower.StartsBy k ∧ bounds.upper.EndsAfter len k

theorem first_le_iff {k : Nat} : bounds.first ≤ k ↔ bounds.lower.StartsBy k := by
  unfold first
  cases bounds.lower with
  | included value => rfl
  | excluded value => exact Nat.succ_le_iff
  | unbounded => simp [Bound.StartsBy]

theorem lt_past_iff {k : Nat} : k < bounds.past len ↔ bounds.upper.EndsAfter len k := by
  unfold past
  cases bounds.upper with
  | included value => exact Nat.lt_succ_iff
  | excluded value => rfl
  | unbounded => rfl

theorem resolve_ok_iff (small : len ≤ maxSize) :
    bounds.resolve len = .ok extent ↔
      extent = ⟨bounds.first, bounds.past len⟩ ∧ bounds.Fits len := by
  constructor
  · intro resolved
    obtain ⟨named, fits, -⟩ := resolve_ok resolved
    exact ⟨named, fits⟩
  · rintro ⟨rfl, fits⟩
    exact resolve_fits small fits

theorem misfit_cases (bounds : Bounds) (len : Nat) :
    (bounds.Fits len ∧ bounds.misfit len = none) ∨
      ¬ bounds.Fits len ∧ ∃ index, bounds.misfit len = some (.outOfRange index len) := by
  unfold Fits misfit
  split
  · exact .inr ⟨by omega, _, rfl⟩
  · split
    · exact .inr ⟨by omega, _, rfl⟩
    · exact .inl ⟨by omega, rfl⟩

theorem misfit_of_fits (fits : bounds.Fits len) : bounds.misfit len = none :=
  ((misfit_cases bounds len).resolve_right fun stray => stray.1 fits).2

theorem check_stray (small : len < maxSize) (stray : ¬ bounds.Fits len) :
    ∃ index, bounds.check len = .error (.error (.outOfRange index len)) := by
  obtain ⟨index, misfit⟩ := ((misfit_cases bounds len).resolve_left fun fit => stray fit.1).2
  rcases check_cases bounds small with ⟨none, -⟩ | ⟨error, found, refused⟩
  · rw [misfit] at none
    cases none
  · rw [misfit] at found
    cases found
    exact ⟨index, refused⟩

theorem check_fits (small : len < maxSize) (fits : bounds.Fits len) :
    bounds.check len = .ok ⟨bounds.first, bounds.past len⟩ := by
  rcases check_cases bounds small with ⟨-, checked⟩ | ⟨error, found, -⟩
  · exact checked
  · rw [misfit_of_fits fits] at found
    cases found

theorem check_ok_iff (small : len < maxSize) :
    bounds.check len = .ok extent ↔
      extent = ⟨bounds.first, bounds.past len⟩ ∧ bounds.Fits len := by
  by_cases fits : bounds.Fits len
  · simp [check_fits small fits, fits, eq_comm]
  · obtain ⟨index, refused⟩ := check_stray small fits
    simp [refused, fits]

/-- A pair of bounds is resolved in both ways or in neither. Both yield the positions that the bounds
name in unbounded arithmetic, from the first one inside them up to the first one past them, exactly
if these are in order and inside the length. Otherwise the one is refused with a position out of
range and the other panics. -/
theorem ranges_are_resolved_alike (bounds : Bounds) (len : Nat) (small : len ≤ maxSigned) :
    (∀ extent, bounds.check len = .ok extent ↔ bounds.resolve len = .ok extent) ∧
    (∀ extent, bounds.resolve len = .ok extent ↔
      extent = ⟨bounds.first, bounds.past len⟩ ∧
        bounds.first ≤ bounds.past len ∧ bounds.past len ≤ len) ∧
    (∀ k, bounds.first ≤ k ∧ k < bounds.past len ↔ bounds.Contains len k) ∧
    (¬ (bounds.first ≤ bounds.past len ∧ bounds.past len ≤ len) →
      (∃ index, bounds.check len = .error (.error (.outOfRange index len))) ∧
      ∃ panic, bounds.resolve len = .error (.panic panic)) := by
  have below : len < maxSize := Nat.lt_of_le_of_lt small (by decide)
  have sizes : len ≤ maxSize := Nat.le_of_lt below
  refine ⟨fun extent => ?_, fun extent => resolve_ok_iff sizes,
    fun k => and_congr first_le_iff lt_past_iff, fun stray => ⟨?_, ?_⟩⟩
  · rw [check_ok_iff below, resolve_ok_iff sizes]
  · exact check_stray below stray
  · rcases resolve_cases bounds len with ⟨none, -⟩ | ⟨panic, -, stopped⟩
    · exact absurd (fits_of_panic_none none) stray
    · exact ⟨panic, stopped⟩

/-- Four bits up to the end of seven, and none behind the largest size. -/
theorem ranges_are_resolved_alike_at_the_largest_size :
    7 ≤ maxSigned ∧ check ⟨.excluded 2, .included 6⟩ 7 = .ok ⟨3, 7⟩ ∧
      (∃ index, check ⟨.excluded maxSize, .included maxSize⟩ 7 =
        .error (.error (.outOfRange index 7))) ∧
      ∃ panic, resolve ⟨.excluded maxSize, .included maxSize⟩ 7 = .error (.panic panic) := by
  have small : 7 ≤ maxSigned := by decide
  obtain ⟨alike, resolved, -, -⟩ := ranges_are_resolved_alike ⟨.excluded 2, .included 6⟩ 7 small
  obtain ⟨-, -, -, stray⟩ :=
    ranges_are_resolved_alike ⟨.excluded maxSize, .included maxSize⟩ 7 small
  have fits : resolve ⟨.excluded 2, .included 6⟩ 7 = .ok ⟨3, 7⟩ :=
    (resolved _).mpr ⟨rfl, by decide, by decide⟩
  exact ⟨small, (alike _).mpr fits, stray (by decide)⟩

end Bounds

end PackedBits
