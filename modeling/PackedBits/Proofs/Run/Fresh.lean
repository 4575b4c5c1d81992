import PackedBits.Proofs.Run.Mode

/-! Where a new vector is. Making a vector starts from an empty one, which is inline, so a vector is
made on the heap exactly if the making asks for more than the inline bits. A part of other bits asks
for its own length. -/
namespace PackedBits

variable {S : Type} {w : Nat} [HasBits w] [Storage S w]

/-- The number of bits that making a vector asks room for. -/
def Making.total (making : Making w) : Nat :=
  match making with
  | .empty => 0
  | .withCapacity bits => bits
  | .withLen bits _ => bits
  | .tryWithLen bits _ => bits
  | .ofWords _ bits => bits
  | .ofBits announced bits => max announced bits.length
  | .parse text =>
      match Text.scan text with
      | .ok (_, digits) => digits
      | .error _ => 0
  | .parseWith text _ _ => text.length

/-- A vector that is made is on the heap exactly if `total` bits do not fit inline. -/
def BitVector.Lands (total : Nat) (attempt : Attempt Provider S) : Prop :=
  ∀ (policy : Policy) (refusals : Nat) (blocks : List Grant) (p : Provider),
    Books policy refusals blocks p →
    attempt.Ends p (fun s _ => Storage.onHeap s = decide (inlineBits < total)) fun _ _ => True

variable [StorageSpec S w]

def BitVector.Settles (total : Nat) (attempt : Attempt (Holding S) Unit) : Prop :=
  ∀ (policy : Policy) (refusals : Nat) (blocks : List Grant) (p : Provider),
    Books policy refusals blocks p → attempt.Ends ⟨Storage.empty, p⟩
      (fun _ h' => h'.Sound policy refusals blocks ∧
        Storage.onHeap h'.storage = decide (inlineBits < total)) fun _ _ => True

namespace BitVector
variable {policy : Policy} {refusals total : Nat} {blocks : List Grant} {p : Provider}

omit [HasBits w] [StorageSpec S w] in
theorem Lands.orPanic {attempt : Attempt Provider S} (lands : Lands total attempt) :
    Lands total attempt.orPanic := fun _ _ _ _ books =>
  (lands _ _ _ _ books).orPanic fun _ _ => id

omit [HasBits w] [StorageSpec S w] in
theorem fail_lands (error : Error) : Lands total (Attempt.fail error : Attempt Provider S) :=
  fun _ _ _ _ _ => trivial

omit [HasBits w] in
theorem build_lands {attempt : Attempt (Holding S) Unit} (settles : Settles total attempt) :
    Lands total (build attempt) := by
  intro policy refusals blocks p books
  obtain ⟨value, h', ran, -, landed⟩ | ⟨failure, h', ran, -⟩ := (settles _ _ _ _ books).ran
  · have built : build attempt p = .ok h'.storage h'.provider := by
      rw [build, onOwned, ran]
    exact .of_ok built landed
  · unfold Attempt.Ends build onOwned
    rw [ran]
    split <;> rename_i ended <;> simp only at ended
    · split at ended <;> cases ended
    · trivial

variable [LawfulStorage S w] [InlineStorage S w]

theorem reserved_empty (books : Books policy refusals blocks p) {h' : Holding S}
    (reserved : Holding.Reserved ⟨Storage.empty, p⟩ total h') :
    Storage.onHeap h'.storage = decide (inlineBits < total) := by
  rw [reserved.onHeap_eq (empty_sound books), InlineStorage.empty_inline, Bool.false_or]

theorem tryResize_settles (bits : Nat) (value : Bool) :
    Settles bits (tryResize bits value : Attempt (Holding S) Unit) := by
  intro policy refusals blocks p books
  refine ((empty_sound books).resize_ends bits value).imp ?_ fun _ _ _ => trivial
  rintro ⟨⟩ h' ⟨sound, -, -, reserved⟩
  exact ⟨sound, reserved_empty books reserved⟩

theorem reserve_settles (bits : Nat) :
    Settles bits (reserve bits : Attempt (Holding S) Unit) := by
  intro policy refusals blocks p books
  refine Attempt.Ends.orPanic ((tryReserve_ends (empty_sound books) bits).imp ?_
    fun _ _ _ => trivial) fun _ _ => id
  rintro ⟨⟩ h' ⟨sound, -, -, reserved⟩
  have none : len (⟨Storage.empty, p⟩ : Holding S) = 0 := LawfulStorage.empty_len
  rw [none, Nat.zero_add] at reserved
  exact ⟨sound, reserved_empty books reserved⟩

theorem extend_settles (announced : Nat) (bits : List Bool) :
    Settles (max announced bits.length) (extend announced bits : Attempt (Holding S) Unit) := by
  intro policy refusals blocks p books
  refine (extend_moves announced bits [] (empty_sound books)).imp ?_ fun _ _ _ => trivial
  rintro ⟨⟩ h' ⟨sound, leads⟩
  have none : (Container.span (Storage.empty : S)).toList = [] := empty_list p
  refine ⟨sound, ?_⟩
  rw [leads.heap, InlineStorage.empty_inline, none, Edit.heapAfter_of_inline, Edit.total,
    List.length_nil, Nat.zero_add]

omit [InlineStorage S w] in
theorem Settles.bind_inPlace {attempt : Attempt (Holding S) Unit} {change : Attempt (Span w) Unit}
    (settles : Settles total attempt) (framed : Span.Framed change) :
    Settles total (do attempt; inPlace change) := by
  intro policy refusals blocks p books
  refine (settles _ _ _ _ books).bind ?_
  rintro ⟨⟩ h' ⟨sound, mode⟩
  have ends : change.Ends (Container.span h'.storage)
      (fun _ s' => Span.Within (Container.span h'.storage) s' ∧ True)
      fun _ s' => Span.Within (Container.span h'.storage) s' ∧ True :=
    (framed _ (Storage.held sound.storage)).imp (fun _ _ within => ⟨within, trivial⟩)
      fun _ _ ⟨_, within⟩ => ⟨within, trivial⟩
  refine (sound.inPlace_ends ends).imp ?_ fun _ _ _ => trivial
  rintro ⟨⟩ h'' ⟨touched, -⟩
  exact ⟨touched.sound, touched.room.onHeap.trans mode⟩

theorem copied_lands {other : Span w} {start n : Nat} {resize : Attempt (Holding S) Unit}
    (held : other.Held) (available : start + n ≤ other.len)
    (panics : resize = tryResize n false ∨ resize = (tryResize n false).orPanic) :
    Lands n (build do
      resize
      inPlace (Span.writeBeside other fun m p q =>
        (copy m (q + start) n p).map fun (m, _) => (m, ())) : Attempt Provider S) := by
  refine build_lands fun policy refusals blocks p books => ?_
  have resized : resize.Ends ⟨Storage.empty, p⟩
      (fun _ h' => h'.list = List.replicate n false ∧ h'.Sound policy refusals blocks ∧
        Storage.onHeap h'.storage = decide (inlineBits < n)) fun _ _ => True := by
    have ends := (resize_empty_ends books n).and (tryResize_settles (S := S) n false _ _ _ _ books)
    have plain := ends.imp (fun _ _ ⟨⟨_, clear⟩, mode⟩ => And.intro clear mode)
      fun _ _ _ => trivial
    rcases panics with rfl | rfl
    · exact plain
    · exact plain.orPanic fun _ _ => id
  refine resized.bind ?_
  rintro ⟨⟩ h' ⟨clear, sound, mode⟩
  refine (fill_from_ends held sound clear available).imp ?_ fun _ _ => False.elim
  rintro ⟨⟩ h'' ⟨sound', -, room⟩
  exact ⟨sound', room.onHeap.trans mode⟩

theorem ofWords_lands (words : Array (BitVec w)) (bits : Nat) :
    Lands bits (ofWords words bits : Attempt Provider S) := by
  rw [ofWords]
  by_cases short : min (words.size * w) maxSize < bits
  · rw [if_pos short]
    exact fail_lands _
  · rw [if_neg short]
    have held : (⟨words, 0, bits⟩ : Span w).Held := by
      rw [Span.Held]
      show 0 + bits ≤ words.size * w
      omega
    have made := copied_lands (S := S) held (show 0 + bits ≤ bits by omega) (.inl rfl)
    simp only [Cursor.forward_zero] at made
    exact made

theorem parse_lands (text : String) :
    Lands (Making.total (.parse text : Making w)) (Text.parse text : Attempt Provider S) := by
  unfold Text.parse
  cases checked : Text.scan text with
  | error error => exact fail_lands error
  | ok found =>
      rw [Making.total, checked]
      exact build_lands ((tryResize_settles found.2 false).bind_inPlace
        (Text.store_framed found.1))

theorem making_lands (making : Making w) :
    Lands making.total (making.attempt : Attempt Provider S) := by
  cases making with
  | empty =>
      exact build_lands fun _ _ _ _ books => ⟨empty_sound books, InlineStorage.empty_inline⟩
  | withCapacity bits => exact build_lands (reserve_settles bits)
  | withLen bits value => exact (build_lands (tryResize_settles bits value)).orPanic
  | tryWithLen bits value => exact build_lands (tryResize_settles bits value)
  | ofWords words bits => exact ofWords_lands words bits
  | ofBits announced bits => exact build_lands (extend_settles announced bits)
  | parse text => exact parse_lands text
  | parseWith text on off =>
      exact build_lands ((tryResize_settles text.length false).bind_inPlace
        (Text.storeWith_framed on off text.length 0 text.toList))

theorem slice_onHeap {s : Span w} (held : s.Held) (books : Books policy refusals blocks p)
    (bounds : Bounds) :
    (slice s bounds : Attempt Provider S).Ends p
      (fun out _ => Storage.onHeap out = decide (inlineBits < Storage.len out))
      fun _ _ => True := by
  refine .ask_bind ?_ fun _ _ => trivial
  intro extent resolved
  obtain ⟨order, inside⟩ := Bounds.resolve_within resolved
  have available : extent.start + extent.size ≤ s.len := by
    rw [Extent.size]
    omega
  have copied := (copied_lands (S := S) held available (.inr rfl) _ _ _ _ books).and
    (build_copied_ends held available ((resize_empty_ends books extent.size).orPanic
      fun _ _ refused => ⟨Attempt.panicked_tame refused.1, refused.2⟩))
  refine copied.imp ?_ fun _ _ _ => trivial
  rintro out p' ⟨mode, made, list⟩
  have len : Storage.len out = extent.size := by
    rw [← LawfulStorage.len_span, ← Span.length_toList, list, List.length_take, List.length_drop,
      Span.length_toList]
    omega
  rw [mode, len]

theorem splitOff_tail {h : Holding S} (sound : h.Sound policy refusals blocks) (position : Nat) :
    (splitOff position).Ends h
      (fun tail _ => Storage.onHeap tail = decide (inlineBits < Storage.len tail))
      fun _ _ => True := by
  have sliced := slice_onHeap (S := S) (span_held sound) sound.books (Bounds.startingAt position)
  refine .get_bind (((Holding.onProvider_ends sliced).imp (fun _ _ => id) fun _ _ _ =>
    trivial).bind ?_)
  rintro tail h' ⟨-, mode⟩
  exact (Attempt.Ends.any (truncate position) h').bind fun _ _ _ => mode

end BitVector

namespace Pool
variable {pool : Pool S} {name : String} {done : S → Prop}

section
omit [HasBits w] [StorageSpec S w]

theorem assign_vector (name : String) (s : S) :
    (assign name s).Ends pool (fun _ pool' => pool'.vector name = s) fun _ _ => True := by
  have placed : (pool.put name s).vector name = s := (vector_put ..).trans (if_pos rfl)
  have dropped : (assign name s).Ends pool _ _ :=
    .get_bind (onProvider_leaves (Storage.release (pool.vector name)) name (pool.put name s))
  exact dropped.imp (fun _ _ same => same.trans placed) fun _ _ _ => trivial

theorem make_vector {attempt : Attempt Provider S}
    (ends : attempt.Ends pool.provider (fun s _ => done s) fun _ _ => True) :
    (make name attempt).Ends pool (fun _ pool' => done (pool'.vector name)) fun _ _ => True := by
  refine ((onProvider_ends ends).imp (fun _ _ => id) fun _ _ _ => trivial).bind ?_
  rintro s pool' ⟨p, reached, rfl⟩
  exact (assign_vector name s).imp (fun _ _ same => same ▸ reached) fun _ _ => id

end

variable [LawfulStorage S w] [InlineStorage S w] {policy : Policy} {refusals : Nat}
  {others : List Grant}

theorem splitOff_target (sound : pool.Sound policy refusals others) (target : String)
    (position : Nat) :
    (splitOff name target position).Ends pool
      (fun _ pool' => Storage.onHeap (pool'.vector target) =
        decide (inlineBits < Storage.len (pool'.vector target))) fun _ _ => True := by
  refine ((work_ends (BitVector.splitOff_tail (sound.holding name) position)).imp (fun _ _ => id)
    fun _ _ _ => trivial).bind ?_
  rintro tail pool' ⟨h, mode, rfl⟩
  exact (assign_vector target tail).imp (fun _ _ same => same ▸ mode) fun _ _ => id

end Pool

end PackedBits
