import PackedBits.Proofs.Walk.Queue

/-! Histories of calls on one walk. What a walk is asked for one call after the other is answered as
by the queue of its items. What comes out of a queue at the front, what is left in it and what has
come out at the back stand in the order of the items, so nothing comes out twice and nothing once
the ends have met. A queue of places answers with places, and one of what is found there with what
is found. -/
namespace PackedBits

namespace Walk.Reply
variable {α β : Type}

def map (change : α → β) : Reply α → Reply β
  | item found => .item (found.map change)
  | items found => .items (found.map change)
  | hint bounds => .hint bounds
  | size n => .size n

def taken : Reply α → List α
  | item found => found.toList
  | items found => found
  | hint _ => []
  | size _ => []

end Walk.Reply

namespace Queue
variable {α β : Type}

/-- What a queue answers to some calls, and the items that are left. -/
def serveAll : List TwoWayWalk.Call → List α → List (Walk.Reply α) × List α
  | [], items => ([], items)
  | asked :: calls, items =>
      let (reply, items) := serve asked items
      let (replies, items) := serveAll calls items
      (reply :: replies, items)

/-- The items that a reply brings for good, from the front and from the back; what a copy has been
asked for is still there. -/
def handed : TwoWayWalk.Call → Walk.Reply α → List α × List α
  | .front _, reply => (reply.taken, [])
  | .nextBack, reply => ([], reply.taken)
  | .nthBack _, reply => ([], reply.taken)
  | .takeBack _, reply => ([], reply.taken)
  | _, _ => ([], [])

/-- The items that have come from the front and those that have come from the back, each in the
order in which they came. -/
def handedAll : List TwoWayWalk.Call → List (Walk.Reply α) → List α × List α
  | asked :: calls, reply :: replies =>
      ((handed asked reply).1 ++ (handedAll calls replies).1,
        (handed asked reply).2 ++ (handedAll calls replies).2)
  | _, _ => ([], [])

theorem serve_map (change : α → β) (asked : TwoWayWalk.Call) (items : List α) :
    serve asked (items.map change) =
      ((serve asked items).1.map change, (serve asked items).2.map change) := by
  cases asked with
  | front asked => cases asked <;> simp [serve, Walk.Reply.map]
  | nextBack => simp [serve, Walk.Reply.map, List.map_dropLast]
  | nthBack n => simp [serve, Walk.Reply.map, ← List.map_reverse]
  | _ => simp [serve, Walk.Reply.map]

theorem serveAll_map (change : α → β) (calls : List TwoWayWalk.Call) (items : List α) :
    serveAll calls (items.map change) =
      ((serveAll calls items).1.map (.map change), (serveAll calls items).2.map change) := by
  induction calls generalizing items with
  | nil => rfl
  | cons asked calls ih =>
      show ((serve asked (items.map change)).1 ::
          (serveAll calls (serve asked (items.map change)).2).1,
        (serveAll calls (serve asked (items.map change)).2).2) = _
      rw [serve_map, ih]
      rfl

theorem whole_sublist (items : List α) : ([] ++ items ++ []).Sublist items := by
  simp only [List.nil_append, List.append_nil, List.Sublist.refl]

theorem front_sublist (items : List α) : (items.head?.toList ++ items.tail).Sublist items := by
  simp only [front_append_rest, List.Sublist.refl]

theorem split_sublist (items : List α) (n : Nat) :
    (items.take n ++ items.drop n).Sublist items := by
  simp only [List.take_append_drop, List.Sublist.refl]

theorem nth_sublist (items : List α) (n : Nat) :
    (items[n]?.toList ++ items.drop (n + 1)).Sublist items := by
  have rest := front_append_rest (items.drop n)
  rw [List.head?_drop, List.tail_drop] at rest
  rw [rest]
  exact List.drop_sublist n items

theorem back_sublist {items taken left : List α}
    (front : (taken ++ left.reverse).Sublist items.reverse) :
    (left ++ taken.reverse).Sublist items := by
  have back := front.reverse
  rwa [List.reverse_append, List.reverse_reverse, List.reverse_reverse] at back

/-- What a call brings from the front, what it leaves and what it brings from the back stand in this
order among the items. -/
theorem serve_sublist (asked : TwoWayWalk.Call) (items : List α) :
    ((handed asked (serve asked items).1).1 ++ (serve asked items).2 ++
      (handed asked (serve asked items).1).2.reverse).Sublist items := by
  have whole := whole_sublist items
  cases asked with
  | front asked =>
      show ((serve (.front asked) items).1.taken ++ (serve (.front asked) items).2 ++ []).Sublist
        items
      rw [List.append_nil]
      cases asked with
      | next => exact front_sublist items
      | nth n => exact nth_sublist items n
      | take n => exact split_sublist items n
      | hint => exact List.Sublist.refl items
  | nextBack =>
      show (items.dropLast ++ items.getLast?.toList.reverse).Sublist items
      refine back_sublist ?_
      rw [← List.head?_reverse, ← List.tail_reverse]
      exact front_sublist items.reverse
  | nthBack n =>
      show (items.take (items.length - (n + 1)) ++ items.reverse[n]?.toList.reverse).Sublist items
      refine back_sublist ?_
      rw [← List.drop_reverse]
      exact nth_sublist items.reverse n
  | takeBack n =>
      show (items.take (items.length - n) ++ (items.reverse.take n).reverse).Sublist items
      refine back_sublist ?_
      rw [← List.drop_reverse]
      exact split_sublist items.reverse n
  | length => exact whole
  | count => exact whole
  | last => exact whole
  | rest => exact whole
  | restBack => exact whole

theorem serveAll_cons (asked : TwoWayWalk.Call) (calls : List TwoWayWalk.Call) (items : List α) :
    serveAll (asked :: calls) items =
      ((serve asked items).1 :: (serveAll calls (serve asked items).2).1,
        (serveAll calls (serve asked items).2).2) := rfl

theorem serveAll_sublist (calls : List TwoWayWalk.Call) (items : List α) :
    ((handedAll calls (serveAll calls items).1).1 ++ (serveAll calls items).2 ++
      (handedAll calls (serveAll calls items).1).2.reverse).Sublist items := by
  induction calls generalizing items with
  | nil => exact whole_sublist items
  | cons asked calls ih =>
      have later := ih (serve asked items).2
      have outside := (later.append_left (handed asked (serve asked items).1).1).append_right
        (handed asked (serve asked items).1).2.reverse
      rw [serveAll_cons, handedAll, List.reverse_append]
      simp only [List.append_assoc] at outside ⊢
      exact outside.trans (by simpa only [List.append_assoc] using serve_sublist asked items)

theorem handedAll_met {calls : List TwoWayWalk.Call} {items : List α}
    (met : (serveAll calls items).2 = []) (later : List TwoWayWalk.Call) :
    handedAll (calls ++ later) (serveAll (calls ++ later) items).1 =
      handedAll calls (serveAll calls items).1 := by
  induction calls generalizing items with
  | nil =>
      have none : items = [] := met
      subst none
      -- Whatever comes out of an empty queue is among its items.
      have outside := serveAll_sublist later ([] : List α)
      rw [List.sublist_nil, List.append_eq_nil_iff, List.append_eq_nil_iff,
        List.reverse_eq_nil_iff] at outside
      exact Prod.ext outside.1.1 outside.2
  | cons asked calls ih =>
      have rest : (serveAll calls (serve asked items).2).2 = [] := met
      rw [List.cons_append, serveAll_cons, serveAll_cons, handedAll, handedAll, ih rest]

end Queue

namespace TwoWayWalk
variable {ι α : Type} [TwoWayWalk ι α] {good : ι → Prop} {items : ι → List α}

def converse : List Call → Attempt ι (List (Walk.Reply α))
  | [] => return []
  | asked :: calls => do
      let reply ← call asked
      return reply :: (← converse calls)

/-- A history of calls is answered as by the queue of the items. -/
theorem IsQueue.converse (queue : IsQueue good items) (calls : List Call) :
    Answers good items (converse calls) (Queue.serveAll calls) := by
  induction calls with
  | nil => exact .pure _
  | cons asked calls ih => exact (queue.call asked).bind fun reply => ih.returning (reply :: ·)

end TwoWayWalk

end PackedBits
