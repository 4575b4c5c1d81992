import PackedBits.Proofs.Backend
import PackedBits.Proofs.BitVector.Sets
import PackedBits.Proofs.Run.Edit
import PackedBits.Proofs.Run.Locality
import PackedBits.Proofs.Run.Refinement

/-! Set operations bit by bit. A set operation combines two lists place by place, where a list is
clear past its end. In place a container keeps its length. A vector grows to the longer of the two
where the result may have set bits there, and a copy or a vector used up becomes what the vector
would have become in place. An operation that cannot have the room it needs has changed nothing. -/
namespace PackedBits

namespace BitOp

def reach (op : BitOp) (length other : Nat) : Nat :=
  match op with
  | .and => length
  | .or => max length other
  | .xor => max length other
  | .andNot => length

theorem onBits_false {op : BitOp} (keeps : op ≠ .and) (bit : Bool) : op.onBits bit false = bit := by
  cases op with
  | and => exact absurd rfl keeps
  | or => exact Bool.or_false bit
  | xor => exact Bool.xor_false bit
  | andNot => exact Bool.and_true bit

end BitOp

namespace OnList
variable {op : BitOp} {bits other : List Bool} {length : Nat}

/-- Two lists combined place by place up to a length; past its end a list is clear. -/
def pointwise (op : BitOp) (length : Nat) (bits other : List Bool) : List Bool :=
  (List.range length).map fun i => op.onBits (bits.getD i false) (other.getD i false)

theorem zipWith_append_eq_pointwise {rest : List Bool}
    (size : rest.length = bits.length - other.length)
    (alone : ∀ i (below : other.length + i < bits.length),
      rest[i]? = some (op.onBits bits[other.length + i] false)) :
    List.zipWith op.onBits bits other ++ rest = pointwise op bits.length bits other := by
  have front : (List.zipWith op.onBits bits other).length = min bits.length other.length :=
    List.length_zipWith
  refine (map_range_eq (by rw [List.length_append, front, size]; omega) fun i below => ?_).symm
  have here : bits.getD i false = bits[i] := by
    rw [List.getD_eq_getElem?_getD, List.getElem?_eq_getElem below, Option.getD_some]
  rw [here]
  by_cases paired : i < other.length
  · have partner : other.getD i false = other[i] := by
      rw [List.getD_eq_getElem?_getD, List.getElem?_eq_getElem paired, Option.getD_some]
    rw [List.getElem?_append_left (by omega), List.getElem?_zipWith,
      List.getElem?_eq_getElem below, List.getElem?_eq_getElem paired, partner]
  · have missing : other.getD i false = false := by
      rw [List.getD_eq_getElem?_getD, List.getElem?_eq_none (Nat.le_of_not_lt paired)]
      rfl
    have place : i - min bits.length other.length = i - other.length := by omega
    have sum : other.length + (i - other.length) = i := by omega
    rw [List.getElem?_append_right (by omega), front, place, missing,
      alone (i - other.length) (by omega)]
    simp only [sum]

theorem combine_eq_pointwise (keeps : op ≠ .and) :
    combine op other bits = pointwise op bits.length bits other := by
  refine zipWith_append_eq_pointwise List.length_drop fun i below => ?_
  rw [List.getElem?_drop, List.getElem?_eq_getElem below,
    BitOp.onBits_false keeps]

theorem andWith_eq_pointwise (bits other : List Bool) :
    andWith other bits = pointwise .and bits.length bits other := by
  refine zipWith_append_eq_pointwise (by rw [List.length_map, List.length_drop]) fun i below => ?_
  rw [List.getElem?_map, List.getElem?_drop, List.getElem?_eq_getElem below]
  exact congrArg some (Bool.and_false _).symm

theorem getD_padded (bits : List Bool) (length i : Nat) :
    (Edit.padded bits length).getD i false = bits.getD i false := by
  rw [Edit.padded, Holding.resized_more (Nat.le_max_left ..), List.getD_eq_getElem?_getD,
    List.getD_eq_getElem?_getD]
  by_cases inside : i < bits.length
  · rw [List.getElem?_append_left inside]
  · have missing : bits[i]? = none := List.getElem?_eq_none (Nat.le_of_not_lt inside)
    rw [List.getElem?_append_right (Nat.le_of_not_lt inside), List.getElem?_replicate, missing]
    split <;> rfl

theorem pointwise_padded (op : BitOp) (bits other : List Bool) (padding : Nat) :
    pointwise op length (Edit.padded bits padding) other = pointwise op length bits other :=
  List.map_congr_left fun i _ => by rw [getD_padded]

end OnList

namespace Span
variable {w : Nat} [HasBits w] {s other : Span w}

def assign (op : BitOp) (other : Span w) : Attempt (Span w) Unit :=
  match op with
  | .and => andWith other
  | .or => orWith other
  | .xor => xorWith other
  | .andNot => andNotWith other

theorem assign_does (held : s.Held) (heldOther : other.Held) (op : BitOp) :
    s.Does (assign op other) (.ok ((), OnList.pointwise op s.len s.toList other.toList)) := by
  have size := s.length_toList
  cases op with
  | and =>
      have does := andWith_does held heldOther
      rwa [OnList.andWith_eq_pointwise, size] at does
  | or =>
      have does := orWith_does held heldOther
      rwa [OnList.combine_eq_pointwise (by decide : BitOp.or ≠ .and), size] at does
  | xor =>
      have does := xorWith_does held heldOther
      rwa [OnList.combine_eq_pointwise (by decide : BitOp.xor ≠ .and), size] at does
  | andNot =>
      have does := andNotWith_does held heldOther
      rwa [OnList.combine_eq_pointwise (by decide : BitOp.andNot ≠ .and), size] at does

end Span

def Provider.refused (p : Provider) : Nat := p.requests - p.grants

namespace Books
variable {policy : Policy} {refusals : Nat} {blocks : List Grant} {p p' : Provider}

theorem exact (books : Books policy refusals blocks p) : Books policy p.refused blocks p where
  lawful := books.lawful
  policy := books.policy
  live := books.live
  balance := books.balance
  refused := by
    have granted := books.refused
    rw [Provider.refused]
    omega

theorem refused_more (books : Books policy (p.refused + 1) blocks p') : p.refused < p'.refused := by
  have more := books.refused
  show p.refused < p'.requests - p'.grants
  omega

end Books

namespace BitVector
variable {S : Type} {w : Nat} [HasBits w] [Storage S w]

def setWith (op : BitOp) (other : Span w) : Attempt (Holding S) Unit :=
  match op with
  | .and => intersectionWith other
  | .or => unionWith other
  | .xor => symmetricDifferenceWith other
  | .andNot => differenceWith other

def setOf (op : BitOp) (storage : S) (other : Span w) : Attempt Provider S :=
  match op with
  | .and => intersection storage other
  | .or => union storage other
  | .xor => symmetricDifference storage other
  | .andNot => difference storage other

theorem setOf_eq (op : BitOp) (storage : S) (other : Span w) :
    setOf op storage other = copied storage (setWith op other) := by
  cases op <;> rfl

end BitVector

variable {S : Type} {w : Nat} [HasBits w] [Storage S w] [StorageSpec S w] {policy : Policy}
  {refusals : Nat} {others : List Grant} {h : Holding S} {other : Span w}

namespace Holding

/-- A panic for want of room for `total` bits: nothing has changed but the number of requests. -/
structure Short (policy : Policy) (refusals : Nat) (others : List Grant) (h : Holding S)
    (total : Nat) (failure : Failure) (h' : Holding S) : Prop where
  storage : h'.storage = h.storage
  sound : h'.Sound policy refusals others
  cause : ∃ error, failure = .panic (.refused error) ∧ Storage.shortage h total = some error
  counted : Storage.Allows S policy total → h'.Sound policy (refusals + 1) others

omit [HasBits w] in
theorem Short.of_refused {total : Nat} {failure : Failure} {h' : Holding S}
    (refused : h.Refused policy refusals others (Storage.shortage h total)
      (Storage.Allows S policy total) failure h') :
    h.Short policy refusals others total (Attempt.panicked failure) h' where
  storage := refused.storage
  sound := refused.sound
  cause := by
    obtain ⟨error, rfl, short⟩ := refused.cause
    exact ⟨error, rfl, short⟩
  counted := refused.counted

end Holding

namespace BitVector
variable [LawfulStorage S w]

theorem growTo_ends (sound : h.Sound policy refusals others) (bits : Nat) :
    (growTo bits : Attempt (Holding S) Unit).Ends h
      (fun _ h' => h'.Sound policy refusals others ∧ h'.list = Edit.padded h.list bits)
      (h.Short policy refusals others (max h.list.length bits)) := by
  have length := length_list h
  refine .get_bind ?_
  by_cases more : len h < bits
  · have total : max h.list.length bits = bits := by omega
    rw [if_pos more, total]
    refine (sound.resize_ends bits false).orPanic (fun _ _ refused => .of_refused refused) |>.imp ?_
      fun _ _ => id
    rintro ⟨⟩ h' ⟨sound', list, -⟩
    rw [Edit.padded, total]
    exact ⟨sound', list⟩
  · rw [if_neg more]
    exact ⟨sound, (Edit.padded_less (by omega)).symm⟩

theorem assign_ends (sound : h.Sound policy refusals others) (held : other.Held) (op : BitOp) :
    (inPlace (Span.assign op other) : Attempt (Holding S) Unit).Ends h
      (fun _ h' => h'.Sound policy refusals others ∧
        h'.list = OnList.pointwise op h.list.length h.list other.toList) fun _ _ => False := by
  have does := Span.assign_does (Storage.held sound.storage) held op
  refine (sound.inPlace_does does).imp ?_ ?_
  · rintro ⟨⟩ h' ⟨touched, same⟩
    have list := congrArg Prod.snd (Except.ok.inj same)
    refine ⟨touched.sound, list.symm.trans ?_⟩
    rw [Holding.list, Span.length_toList]
  · rintro failure h' ⟨-, -, stopped⟩
    cases stopped

theorem setWith_ends (sound : h.Sound policy refusals others) (held : other.Held) (op : BitOp) :
    (setWith op other : Attempt (Holding S) Unit).Ends h
      (fun _ h' => h'.Sound policy refusals others ∧
        h'.list = OnList.pointwise op (op.reach h.list.length other.toList.length) h.list
          other.toList)
      (h.Short policy refusals others (op.reach h.list.length other.toList.length)) := by
  -- The two operations that grow the vector assign to it with clear bits put behind it.
  have grown (growing : BitOp) : (do growTo other.len; inPlace (Span.assign growing other) :
      Attempt (Holding S) Unit).Ends h
      (fun _ h' => h'.Sound policy refusals others ∧
        h'.list = OnList.pointwise growing (max h.list.length other.toList.length) h.list
          other.toList)
      (h.Short policy refusals others (max h.list.length other.toList.length)) := by
    rw [Span.length_toList]
    refine (growTo_ends sound other.len).bind ?_
    rintro ⟨⟩ h₁ ⟨sound₁, list⟩
    refine (assign_ends sound₁ held growing).imp ?_ fun _ _ => False.elim
    rintro ⟨⟩ h' ⟨sound', combined⟩
    have size : (Edit.padded h.list other.len).length = max h.list.length other.len :=
      Holding.length_resized ..
    rw [list, size, OnList.pointwise_padded] at combined
    exact ⟨sound', combined⟩
  cases op with
  | and => exact (assign_ends sound held .and).imp (fun _ _ => id) fun _ _ => False.elim
  | or => exact grown .or
  | xor => exact grown .xor
  | andNot => exact (assign_ends sound held .andNot).imp (fun _ _ => id) fun _ _ => False.elim

variable {blocks : List Grant} {p : Provider} {s : S}

theorem ownedWith_ends (made : Made policy refusals blocks s p) (held : other.Held) (op : BitOp) :
    (onOwned s (setWith op other)).Ends p
      (fun out p' => Made policy refusals blocks out p' ∧ (Container.span out).toList =
        OnList.pointwise op (op.reach (Container.span s).toList.length other.toList.length)
          (Container.span s).toList other.toList)
      (Declined policy refusals blocks (Storage.Allows S policy
        (op.reach (Container.span s).toList.length other.toList.length))) := by
  refine onOwned_ends (fun out => (Container.span out).toList = _)
    ((setWith_ends made.holding held op).imp (fun _ _ => id) fun failure h' short => ?_)
  obtain ⟨error, rfl, -⟩ := short.cause
  exact ⟨Attempt.panic_tame _, short.sound, short.counted⟩

theorem setOf_ends (sound : StorageSpec.Sound s) (books : Books policy refusals blocks p)
    (held : other.Held) (op : BitOp) :
    (setOf op s other).Ends p
      (fun out p' => Made policy refusals blocks out p' ∧ (Container.span out).toList =
        OnList.pointwise op (op.reach (Container.span s).toList.length other.toList.length)
          (Container.span s).toList other.toList)
      (Declined policy refusals blocks (Storage.Allows S policy
        (op.reach (Container.span s).toList.length other.toList.length))) := by
  rw [setOf_eq]
  have cloned := clone_ends sound books
  refine (cloned.imp (fun _ _ => id) fun _ _ declined => declined.weaken And.right).bind ?_
  rintro copy p' ⟨made, list⟩
  rw [← list]
  exact ownedWith_ends made held op

end BitVector

omit [HasBits w] in
/-- The attempt makes a sound vector of these bits, with its block beside those of others. If it
fails, the blocks of others are what is left, and if the size was allowed, the provider has refused
a request meanwhile. -/
def Delivers (p : Provider) (blocks : List Grant) (allowed : Prop) (attempt : Attempt Provider S)
    (bits : List Bool) : Prop :=
  attempt.Ends p
    (fun out p' => StorageSpec.Sound out ∧ (Container.span out).toList = bits ∧
      p'.live.Perm ((StorageSpec.block out).toList ++ blocks))
    fun failure p' => failure ≠ .wild ∧ p'.live.Perm blocks ∧ (allowed → p.refused < p'.refused)

omit [HasBits w] in
theorem Delivers.of_ends {p : Provider} {blocks : List Grant} {allowed : Prop}
    {attempt : Attempt Provider S} {bits : List Bool}
    (ends : attempt.Ends p (fun out p' => BitVector.Made policy p.refused blocks out p' ∧
      (Container.span out).toList = bits) (Declined policy p.refused blocks allowed)) :
    Delivers p blocks allowed attempt bits :=
  ends.imp (fun _ _ ⟨made, list⟩ => ⟨made.sound, list, made.books.live⟩) fun _ _ declined =>
    ⟨declined.tame, declined.books.live, fun sure => (declined.counted sure).refused_more⟩

/-- Assigning one container to another combines their bits place by place, keeps the length and
spares the operand. A vector with any history does the same up to the length of the result, in place
unless it is short of room and then unchanged. What it becomes when it is used up, or a copy of it,
has the bits that it would have in place; nothing but a refused request stands against a result of
an allowed size, and the blocks of all other vectors stay as they are. -/
theorem set_operations_are_pointwise (op : BitOp) :
    (∀ {w : Nat} [HasBits w] (host other : Host w),
      host.Does (Span.assign op other.span)
        (.ok ((), OnList.pointwise op host.bits.length host.bits other.bits)) ∧
      host.SparesOperand other) ∧
    ∀ (b : Backend) (policy : Policy), policy.Lawful →
      ∀ (actions : List (Action b.width)) (name : String) (other : Host b.width),
      let pool : Pool b.Carrier := (Action.run actions (Action.start policy)).2
      let h : Holding b.Carrier := ⟨pool.vector name, pool.provider⟩
      let total := op.reach h.list.length other.bits.length
      let result := OnList.pointwise op total h.list other.bits
      (BitVector.setWith op other.span : Attempt (Holding b.Carrier) Unit).Ends h
        (fun _ after => StorageSpec.Sound after.storage ∧ after.list = result ∧
          after.provider.live.Perm
            ((StorageSpec.block after.storage).toList ++ pool.blocksBut name))
        (fun failure after => after.storage = h.storage ∧
          after.provider.live.Perm pool.provider.live ∧
          ∃ error, failure = .panic (.refused error) ∧ Storage.shortage h total = some error) ∧
      Delivers pool.provider (pool.blocksBut name) (Storage.Allows b.Carrier policy total)
        (BitVector.onOwned h.storage (BitVector.setWith op other.span)) result ∧
      Delivers pool.provider pool.blocks (Storage.Allows b.Carrier policy total)
        (BitVector.setOf op h.storage other.span) result := by
  refine ⟨fun host other => ⟨?_, host.sparesOperand other⟩, ?_⟩
  · rw [Host.bits, Span.length_toList]
    exact Host.does_of_span (Span.assign_does host.held other.held op)
  · intro b policy lawful actions name other pool h total result
    have sound : pool.Sound policy 0 [] := Action.reached_sound lawful actions
    have holding := sound.holding name
    rw [List.append_nil] at holding
    have made : BitVector.Made policy pool.provider.refused (pool.blocksBut name) h.storage
        pool.provider := ⟨holding.storage, holding.books.exact⟩
    have books : Books policy pool.provider.refused pool.blocks pool.provider := by
      have books := sound.books.exact
      rwa [List.append_nil] at books
    refine ⟨?_, .of_ends (BitVector.ownedWith_ends made other.held op),
      .of_ends (BitVector.setOf_ends holding.storage books other.held op)⟩
    refine (BitVector.setWith_ends holding other.held op).imp ?_ ?_
    · exact fun _ after ⟨sound', list⟩ => ⟨sound'.storage, list, sound'.books.live⟩
    · intro _ after short
      have live := short.sound.books.live
      rw [short.storage] at live
      exact ⟨short.storage, live.trans holding.books.live.symm, short.cause⟩

/-- Twenty set bits, kept inline, beside a hundred and thirty others: the vector moves to the heap
and so does a copy of it, each with the bits that are set in exactly one of the two. -/
theorem set_operations_are_pointwise_on_two_pages :
    let actions : List (Action Backend.smallBuffer.width) :=
      [.work .inPlace "a" (.grow (.resize 20 true)) (.vector "a")]
    let other : Host Backend.smallBuffer.width :=
      .view (w := 64) ⟨#[0xF0F0#64, 0#64, 0x3#64], 130⟩ (by decide)
    let pool : Pool Backend.smallBuffer.Carrier :=
      (Action.run actions (Action.start (Policy.pages 2))).2
    let h : Holding Backend.smallBuffer.Carrier := ⟨pool.vector "a", pool.provider⟩
    let result := (List.range 130).map fun i =>
      decide (i ∈ [0, 1, 2, 3, 8, 9, 10, 11, 16, 17, 18, 19, 128, 129])
    (∃ after, BitVector.setWith .xor other.span h = .ok () after ∧ after.list = result) ∧
      ∃ out provider, BitVector.setOf .xor h.storage other.span pool.provider = .ok out provider ∧
        (Container.span out).toList = result := by
  intro actions other pool h result
  have lawful : (Policy.pages 2).Lawful := Policy.pages_lawful (by decide)
  have combined : OnList.pointwise .xor (BitOp.xor.reach h.list.length other.bits.length) h.list
      other.bits = result := by decide +kernel
  obtain ⟨inPlace, -, copied⟩ := (set_operations_are_pointwise .xor).2 .smallBuffer (Policy.pages 2)
    lawful actions "a" other
  rw [combined] at inPlace copied
  constructor
  · have room : Storage.shortage h (BitOp.xor.reach h.list.length other.bits.length) = none := by
      decide +kernel
    obtain ⟨⟨⟩, after, ran, -, list, -⟩ | ⟨failure, after, -, -, -, error, -, short⟩ := inPlace.ran
    · exact ⟨after, ran, list⟩
    · rw [room] at short
      cases short
  · have small : BitOp.xor.reach h.list.length other.bits.length ≤
        Storage.maxBits Backend.smallBuffer.Carrier := by decide +kernel
    -- No request was refused meanwhile, so the copy cannot have failed.
    have served : ((BitVector.setOf .xor h.storage other.span).outcome pool.provider).2.refused =
        pool.provider.refused := by decide +kernel
    obtain ⟨out, provider, ran, -, list, -⟩ | ⟨failure, provider, ran, -, -, refused⟩ :=
      Attempt.Ends.ran copied
    · exact ⟨out, provider, ran, list⟩
    · have more := refused ⟨small, Policy.pages_admitted .smallBuffer (by decide)⟩
      rw [Attempt.outcome_error ran] at served
      exact absurd served (Nat.ne_of_gt more)

end PackedBits
