import PackedBits.Proofs.Attempt
import PackedBits.Walk.Basic

/-! Two-way walks as queues. A walk that hands out the items of a list from either end has a queue
of items before it: stepping takes the item at one end, jumping discards some first, and to ask for
the number of items takes none. What every call answers and leaves follows from these few laws.
Copies of a walk are queues of their own, so a history of calls on any number of them has the answers
that the same history on lists has. -/
namespace PackedBits

namespace Queue
variable {α : Type}

def serve : TwoWayWalk.Call → List α → Walk.Reply α × List α
  | .front .next, items => (.item items.head?, items.tail)
  | .front (.nth n), items => (.item items[n]?, items.drop (n + 1))
  | .front (.take n), items => (.items (items.take n), items.drop n)
  | .front .hint, items => (.hint (SizeHint.exact items.length), items)
  | .nextBack, items => (.item items.getLast?, items.dropLast)
  | .nthBack n, items => (.item items.reverse[n]?, items.take (items.length - (n + 1)))
  | .takeBack n, items => (.items (items.reverse.take n), items.take (items.length - n))
  | .length, items => (.size items.length, items)
  | .count, items => (.size items.length, items)
  | .last, items => (.item items.getLast?, items)
  | .rest, items => (.items items, items)
  | .restBack, items => (.items items.reverse, items)

def call (asked : TwoWayWalk.Call) : Attempt (List α) (Walk.Reply α) := fun items =>
  .ok (serve asked items).1 (serve asked items).2

theorem front_append_rest (items : List α) : items.head?.toList ++ items.tail = items := by
  cases items <;> rfl

theorem rest_append_back (items : List α) : items.dropLast ++ items.getLast?.toList = items := by
  cases last : items.getLast? with
  | none =>
      rw [List.getLast?_eq_none_iff.mp last]
      rfl
  | some item =>
      obtain ⟨front, rfl⟩ := List.getLast?_eq_some_iff.mp last
      rw [List.dropLast_concat]
      rfl

end Queue

section
variable {ι α β γ : Type}

/-- From good states an attempt answers what is served for the items of the state, and leaves a good
state with the items that are left. -/
def Answers (good : ι → Prop) (items : ι → List α) (attempt : Attempt ι β)
    (serve : List α → β × List α) : Prop :=
  ∀ walk, good walk → ∃ walk', attempt walk = .ok (serve (items walk)).1 walk' ∧ good walk' ∧
    items walk' = (serve (items walk)).2

variable {good : ι → Prop} {items : ι → List α}

namespace Answers
variable {attempt : Attempt ι β} {serve : List α → β × List α}

theorem congr {serve' : List α → β × List α} (answers : Answers good items attempt serve)
    (same : ∀ list, serve list = serve' list) : Answers good items attempt serve' :=
  funext same ▸ answers

theorem bind {next : β → Attempt ι γ} {last : β → List α → γ × List α}
    (answers : Answers good items attempt serve)
    (rest : ∀ value, Answers good items (next value) (last value)) :
    Answers good items (attempt >>= next) fun list => last (serve list).1 (serve list).2 := by
  intro walk start
  obtain ⟨walk₁, ran, middle, left⟩ := answers walk start
  obtain ⟨walk₂, ran', stop, left'⟩ := rest (serve (items walk)).1 walk₁ middle
  rw [left] at ran' left'
  exact ⟨walk₂, (Attempt.bind_apply ran).trans ran', stop, left'⟩

theorem pure (value : β) : Answers good items (Pure.pure value) fun list => (value, list) :=
  fun walk start => ⟨walk, rfl, start, rfl⟩

theorem returning (answers : Answers good items attempt serve) (change : β → γ) :
    Answers good items (attempt >>= fun value => Pure.pure (change value)) fun list =>
      (change (serve list).1, (serve list).2) :=
  answers.bind fun value => pure (change value)

theorem aside (answers : Answers good items attempt serve) :
    Answers good items (Walk.aside attempt) fun list => ((serve list).1, list) := by
  intro walk start
  obtain ⟨walk', ran, -⟩ := answers walk start
  refine ⟨walk, ?_, start, rfl⟩
  rw [Walk.aside, ran]

theorem reversed
    (answers : Answers good (fun walk => (items walk).reverse) attempt serve) :
    Answers good items attempt fun list =>
      ((serve list.reverse).1, (serve list.reverse).2.reverse) := by
  intro walk start
  obtain ⟨walk', ran, stop, left⟩ := answers walk start
  have back : (items walk').reverse = (serve (items walk).reverse).2 := left
  refine ⟨walk', ran, stop, ?_⟩
  show items walk' = (serve (items walk).reverse).2.reverse
  rw [← back, List.reverse_reverse]

end Answers

section
variable {next : Attempt ι (Option α)}
  (step : Answers good items next fun list => (list.head?, list.tail))
include step

theorem skipping_answers (n : Nat) :
    Answers good items (Walk.skipping next n) fun list => (list[n]?, list.drop (n + 1)) := by
  induction n with
  | zero => exact step.congr fun list => by rw [List.head?_eq_getElem?, List.drop_one]
  | succ n ih =>
      intro walk start
      obtain ⟨walk₁, ran, middle, left⟩ := step walk start
      rw [Walk.skipping, Attempt.bind_apply ran]
      cases split : items walk with
      | nil =>
          rw [split] at left
          exact ⟨walk₁, rfl, middle, left⟩
      | cons item rest =>
          rw [split] at left
          obtain ⟨walk₂, ran', stop, left'⟩ := ih walk₁ middle
          rw [left] at ran' left'
          exact ⟨walk₂, ran', stop, left'⟩

theorem taking_answers (n : Nat) :
    Answers good items (Walk.taking next n) fun list => (list.take n, list.drop n) := by
  induction n with
  | zero => exact .pure _
  | succ n ih =>
      intro walk start
      obtain ⟨walk₁, ran, middle, left⟩ := step walk start
      rw [Walk.taking, Attempt.bind_apply ran]
      cases split : items walk with
      | nil =>
          rw [split] at left
          exact ⟨walk₁, rfl, middle, left⟩
      | cons item rest =>
          rw [split] at left
          obtain ⟨walk₂, ran', stop, left'⟩ := ih.returning (item :: ·) walk₁ middle
          rw [left] at ran' left'
          exact ⟨walk₂, ran', stop, left'⟩

end

namespace TwoWayWalk
variable [TwoWayWalk ι α]

/-- The laws of a queue: what the two ends hand out and the number of items. -/
structure IsQueue (good : ι → Prop) (items : ι → List α) : Prop where
  next : Answers good items Walk.next fun list => (list.head?, list.tail)
  nth (n : Nat) : Answers good items (Walk.nth n) fun list => (list[n]?, list.drop (n + 1))
  hint : Answers good items Walk.hint fun list => (SizeHint.exact list.length, list)
  nextBack : Answers good items nextBack fun list => (list.getLast?, list.dropLast)
  nthBack (n : Nat) : Answers good items (nthBack n) fun list =>
    (list.reverse[n]?, list.take (list.length - (n + 1)))
  length : Answers good items length fun list => (list.length, list)

theorem back_step (stepBack : Answers good items (nextBack : Attempt ι (Option α)) fun list =>
      (list.getLast?, list.dropLast)) :
    Answers good (fun walk => (items walk).reverse) (nextBack : Attempt ι (Option α)) fun list =>
      (list.head?, list.tail) := by
  intro walk start
  obtain ⟨walk', ran, stop, left⟩ := stepBack walk start
  refine ⟨walk', ran.trans ?_, stop, ?_⟩
  · show EStateM.Result.ok (items walk).getLast? walk' = .ok (items walk).reverse.head? walk'
    rw [List.head?_reverse]
  · show (items walk').reverse = (items walk).reverse.tail
    rw [List.tail_reverse]
    exact congrArg List.reverse left

theorem skipping_back (stepBack : Answers good items (nextBack : Attempt ι (Option α)) fun list =>
      (list.getLast?, list.dropLast)) (n : Nat) :
    Answers good items (Walk.skipping nextBack n : Attempt ι (Option α)) fun list =>
      (list.reverse[n]?, list.take (list.length - (n + 1))) :=
  (skipping_answers (back_step stepBack) n).reversed.congr fun list => by
    rw [List.drop_reverse, List.reverse_reverse]

namespace IsQueue

theorem takeBack (queue : IsQueue good items) (n : Nat) :
    Answers good items (takeBack n : Attempt ι (List α)) fun list =>
      (list.reverse.take n, list.take (list.length - n)) :=
  (taking_answers (back_step queue.nextBack) n).reversed.congr fun list => by
    rw [List.drop_reverse, List.reverse_reverse]

theorem drain (queue : IsQueue good items) :
    Answers good items (drain : Attempt ι (List α)) fun list => (list, []) :=
  (queue.length.bind fun n => taking_answers queue.next n).congr fun list => by
    rw [List.take_length, List.drop_length]

theorem drainBack (queue : IsQueue good items) :
    Answers good items (drainBack : Attempt ι (List α)) fun list => (list.reverse, []) :=
  (queue.length.bind fun n => queue.takeBack n).congr fun list => by
    rw [← List.length_reverse, List.take_length, List.length_reverse, Nat.sub_self, List.take_zero]

theorem call (queue : IsQueue good items) (asked : Call) :
    Answers good items (TwoWayWalk.call asked) (Queue.serve asked) := by
  cases asked with
  | front asked =>
      cases asked with
      | next => exact queue.next.returning Walk.Reply.item
      | nth n => exact (queue.nth n).returning Walk.Reply.item
      | take n => exact (taking_answers queue.next n).returning Walk.Reply.items
      | hint => exact queue.hint.returning Walk.Reply.hint
  | nextBack => exact queue.nextBack.returning Walk.Reply.item
  | nthBack n => exact (queue.nthBack n).returning Walk.Reply.item
  | takeBack n => exact (queue.takeBack n).returning Walk.Reply.items
  | length => exact queue.length.returning Walk.Reply.size
  | count => exact queue.drain.aside.returning fun list => Walk.Reply.size list.length
  | last => exact queue.drain.aside.returning fun list => Walk.Reply.item list.getLast?
  | rest => exact queue.drain.aside.returning Walk.Reply.items
  | restBack => exact queue.drainBack.aside.returning Walk.Reply.items

end IsQueue

end TwoWayWalk

end

inductive End where
  | front
  | back
deriving DecidableEq, Repr

namespace TwoWayWalk
variable {ι α : Type} [TwoWayWalk ι α]

/-- Steps from the ends named, one after the other, and the items that came from each end. -/
def yields : List End → Attempt ι (List α × List α)
  | [] => return ([], [])
  | .front :: ends => do
      let item ← Walk.next
      let later ← yields ends
      return (item.toList ++ later.1, later.2)
  | .back :: ends => do
      let item ← nextBack
      let later ← yields ends
      return (later.1, item.toList ++ later.2)

variable {good : ι → Prop} {items : ι → List α}

/-- Whichever ends are stepped from, every item is handed out once, in order from the front and in
reverse from the back, and a step has none to hand out only when none is left. -/
theorem IsQueue.yields_spec (queue : IsQueue good items) (ends : List End) (walk : ι)
    (start : good walk) :
    ∃ front back walk', yields ends walk = .ok (front, back) walk' ∧ good walk' ∧
      front ++ items walk' ++ back.reverse = items walk ∧
      front.length + back.length = min ends.length (items walk).length := by
  induction ends generalizing walk with
  | nil => exact ⟨[], [], walk, rfl, start, by simp, by simp⟩
  | cons side ends ih =>
      cases side with
      | front =>
          obtain ⟨walk₁, ran, middle, left⟩ := queue.next walk start
          obtain ⟨front, back, walk', ran', stop, whole, total⟩ := ih walk₁ middle
          refine ⟨(items walk).head?.toList ++ front, back, walk', ?_, stop, ?_, ?_⟩
          · rw [yields, Attempt.bind_apply ran, Attempt.bind_apply ran']
            rfl
          · rw [List.append_assoc, List.append_assoc, ← List.append_assoc front, whole, left]
            exact Queue.front_append_rest (items walk)
          · have parts := congrArg List.length (Queue.front_append_rest (items walk))
            rw [List.length_append, List.length_tail] at parts
            rw [left, List.length_tail] at total
            rw [List.length_append, List.length_cons]
            omega
      | back =>
          obtain ⟨walk₁, ran, middle, left⟩ := queue.nextBack walk start
          obtain ⟨front, back, walk', ran', stop, whole, total⟩ := ih walk₁ middle
          refine ⟨front, (items walk).getLast?.toList ++ back, walk', ?_, stop, ?_, ?_⟩
          · rw [yields, Attempt.bind_apply ran, Attempt.bind_apply ran']
            rfl
          · have single : (items walk).getLast?.toList.reverse = (items walk).getLast?.toList := by
              cases (items walk).getLast? <;> rfl
            rw [List.reverse_append, single, ← List.append_assoc, whole, left]
            exact Queue.rest_append_back (items walk)
          · have parts := congrArg List.length (Queue.rest_append_back (items walk))
            rw [List.length_append, List.length_dropLast] at parts
            rw [left, List.length_dropLast] at total
            rw [List.length_append, List.length_cons]
            omega

inductive Turn where
  | ask (copy : Nat) (asked : Call)
  | clone (copy : Nat)
deriving DecidableEq, Repr

namespace Turn
variable {σ ρ : Type}

/-- Takes a turn. A new copy comes behind the others; a copy that does not exist gives no reply. -/
def take (ask : Call → Attempt σ ρ) : Turn → Attempt (List σ) (Option ρ)
  | .ask copy asked => fun states =>
      match states[copy]? with
      | none => .ok none states
      | some state =>
          match ask asked state with
          | .ok reply state => .ok (some reply) (states.set copy state)
          | .error failure state => .error failure (states.set copy state)
  | .clone copy => fun states => .ok none (states ++ states[copy]?.toList)

def play (ask : Call → Attempt σ ρ) : List Turn → Attempt (List σ) (List (Option ρ))
  | [] => return []
  | turn :: turns => do
      let reply ← turn.take ask
      return reply :: (← play ask turns)

end Turn

namespace IsQueue

theorem take_follows (queue : IsQueue good items) (turn : Turn) {walks : List ι}
    (start : ∀ walk ∈ walks, good walk) :
    ∃ reply walks', turn.take TwoWayWalk.call walks = .ok reply walks' ∧
      (∀ walk ∈ walks', good walk) ∧
      turn.take Queue.call (walks.map items) = .ok reply (walks'.map items) := by
  cases turn with
  | ask copy asked =>
      cases found : walks[copy]? with
      | none =>
          refine ⟨none, walks, ?_, start, ?_⟩
          · simp only [Turn.take, found]
          · simp only [Turn.take, List.getElem?_map, found, Option.map_none]
      | some walk =>
          have good_walk := start walk (List.mem_of_getElem? found)
          obtain ⟨walk', ran, stop, left⟩ := queue.call asked walk good_walk
          refine ⟨some (Queue.serve asked (items walk)).1, walks.set copy walk', ?_, ?_, ?_⟩
          · simp only [Turn.take, found, ran]
          · intro other member
            rcases List.mem_or_eq_of_mem_set member with old | rfl
            · exact start other old
            · exact stop
          · simp only [Turn.take, List.getElem?_map, found, Option.map_some, Queue.call,
              List.map_set, left]
  | clone copy =>
      refine ⟨none, walks ++ walks[copy]?.toList, rfl, ?_, ?_⟩
      · intro walk member
        rcases List.mem_append.mp member with old | copied
        · exact start walk old
        · exact start walk (List.mem_of_getElem? (Option.mem_toList.mp copied))
      · simp only [Turn.take, List.getElem?_map, List.map_append]
        cases walks[copy]? <;> rfl

/-- Whatever is done with the copies of a walk, the replies are those that the lists of their items
would give. -/
theorem play_follows (queue : IsQueue good items) (turns : List Turn) {walks : List ι}
    (start : ∀ walk ∈ walks, good walk) :
    ∃ replies walks', Turn.play TwoWayWalk.call turns walks = .ok replies walks' ∧
      (∀ walk ∈ walks', good walk) ∧
      Turn.play Queue.call turns (walks.map items) = .ok replies (walks'.map items) := by
  induction turns generalizing walks with
  | nil => exact ⟨[], walks, rfl, start, rfl⟩
  | cons turn turns ih =>
      obtain ⟨reply, walks₁, taken, middle, followed⟩ := queue.take_follows turn start
      obtain ⟨replies, walks', played, stop, followed'⟩ := ih middle
      refine ⟨reply :: replies, walks', ?_, stop, ?_⟩
      · rw [Turn.play, Attempt.bind_apply taken, Attempt.bind_apply played]
        rfl
      · rw [Turn.play, Attempt.bind_apply followed, Attempt.bind_apply followed']
        rfl

end IsQueue

end TwoWayWalk

end PackedBits
