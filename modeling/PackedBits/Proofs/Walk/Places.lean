import PackedBits.Proofs.Run.Locality
import PackedBits.Proofs.Walk.Ones
import PackedBits.Proofs.Walk.Queue

/-! The walk over the set positions of a container is a queue of them. What it hands out at either
end is the outermost set position left there, and its length is their number, whether it was counted
before and kept up since or is counted now. Copies carry the same count on and go on by
themselves. -/
namespace PackedBits

theorem Span.mem_places {w : Nat} {s : Span w} {place : Nat} :
    place ∈ s.places ↔ s.toList[place]? = some true := by
  rw [places, List.mem_filter, List.mem_range'_1, getElem?_toList, Nat.zero_add]
  by_cases below : place < s.len
  · rw [if_pos below, Option.some.injEq, and_iff_right ⟨Nat.zero_le place, below⟩]
  · rw [if_neg below]
    exact ⟨fun inside => absurd inside.1.2 below, nofun⟩

theorem Span.places_ascending {w : Nat} (s : Span w) : s.places.Pairwise (· < ·) :=
  List.Pairwise.filter _ List.pairwise_lt_range'

namespace OnesWalk
variable {w : Nat} [HasBits w]

theorem next_answers : Answers Sound rest (next : Attempt (OnesWalk w) (Option Nat)) fun list =>
    (list.head?, list.tail) := by
  intro walk sound
  obtain ⟨ended, walk', ran, sound', left⟩ | ⟨place, later, walk', split, ran, sound', left⟩ :=
    sound.next_cases
  · rw [ended]
    exact ⟨walk', ran, sound', left⟩
  · rw [split]
    exact ⟨walk', ran, sound', left⟩

theorem nextBack_answers : Answers Sound rest (nextBack : Attempt (OnesWalk w) (Option Nat))
    fun list => (list.getLast?, list.dropLast) := by
  intro walk sound
  obtain ⟨ended, walk', ran, sound', left⟩ | ⟨earlier, place, walk', split, ran, sound', left⟩ :=
    sound.nextBack_cases
  · rw [ended]
    exact ⟨walk', ran, sound', left⟩
  · rw [split]
    refine ⟨walk', ran.trans ?_, sound', left.trans List.dropLast_concat.symm⟩
    show EStateM.Result.ok (some place) walk' = .ok (earlier ++ [place]).getLast? walk'
    rw [List.getLast?_concat]

theorem length_answers : Answers Sound rest (length : Attempt (OnesWalk w) Nat) fun list =>
    (list.length, list) :=
  fun _ sound => sound.length_spec

theorem queue : TwoWayWalk.IsQueue (Sound (w := w)) rest where
  next := next_answers
  nth := skipping_answers next_answers
  hint := length_answers.returning SizeHint.exact
  nextBack := nextBack_answers
  nthBack := TwoWayWalk.skipping_back nextBack_answers
  length := length_answers

end OnesWalk

/-- Whatever is asked of a walk over the set positions of a container and of its copies, in any
order, the replies are those of queues that begin as the list of these positions. -/
theorem set_positions_are_handed_out_from_both_ends {w : Nat} [HasBits w] (host : Host w)
    (turns : List TwoWayWalk.Turn) :
    host.span.places.Pairwise (· < ·) ∧
    (∀ place, place ∈ host.span.places ↔ host.bits[place]? = some true) ∧
    ∃ replies walks,
      TwoWayWalk.Turn.play TwoWayWalk.call turns [host.span.ones] = .ok replies walks ∧
      TwoWayWalk.Turn.play Queue.call turns [host.span.places] =
        .ok replies (walks.map OnesWalk.rest) ∧
      ∀ walk ∈ walks, (∀ left ∈ walk.left, left = walk.rest.length) ∧
        ∀ ends, ∃ front back walk', TwoWayWalk.yields ends walk = .ok (front, back) walk' ∧
          front ++ walk'.rest ++ back.reverse = walk.rest ∧
          front.length + back.length = min ends.length walk.rest.length := by
  refine ⟨host.span.places_ascending, fun place => Span.mem_places, ?_⟩
  have start : ∀ walk ∈ [host.span.ones], walk.Sound := by
    intro walk member
    rw [List.mem_singleton.mp member]
    exact OnesWalk.ones_sound host.held
  obtain ⟨replies, walks, played, sound, followed⟩ := OnesWalk.queue.play_follows turns start
  refine ⟨replies, walks, played, followed, fun walk member => ⟨(sound walk member).counted, ?_⟩⟩
  intro ends
  obtain ⟨front, back, walk', ran, -, whole, total⟩ :=
    OnesWalk.queue.yields_spec ends walk (sound walk member)
  exact ⟨front, back, walk', ran, whole, total⟩

/-- Four set positions over three bytes, counted before the walk is copied: one copy is stepped at
both ends, the other one is jumped past its end. -/
theorem set_positions_are_handed_out_over_three_bytes :
    let host : Host 8 := .view ⟨#[0x81#8, 0x00#8, 0x09#8], 20⟩ (by decide)
    let turns : List TwoWayWalk.Turn :=
      [.ask 0 .length, .clone 0, .ask 0 (.front .next), .ask 1 (.nthBack 1), .ask 0 .nextBack,
        .ask 1 (.front .next), .ask 0 .length, .ask 1 (.front .hint), .ask 1 (.front (.nth 1)),
        .ask 1 .nextBack, .ask 0 (.front .next)]
    ∃ walks, TwoWayWalk.Turn.play TwoWayWalk.call turns [host.span.ones] = .ok
      [some (.size 4), none, some (.item (some 0)), some (.item (some 16)), some (.item (some 19)),
        some (.item (some 0)), some (.size 2), some (.hint ⟨1, some 1⟩), some (.item none),
        some (.item none), some (.item (some 7))] walks := by
  intro host turns
  have places : host.span.places = [0, 7, 16, 19] := by decide
  obtain ⟨-, -, replies, walks, played, followed, -⟩ :=
    set_positions_are_handed_out_from_both_ends host turns
  rw [places] at followed
  obtain ⟨rfl, -⟩ := EStateM.Result.ok.inj followed
  exact ⟨walks, played⟩

end PackedBits
