import PackedBits.BitVector.Pool
import PackedBits.Proofs.BitVector.Sets

/-! Pools. The blocks on the books of a sound pool are those of its vectors and of the vectors in
hand, which have left the pool or are not in it yet. Making, assigning and dropping move blocks
between the two; whatever is replaced gives its block back. -/
namespace PackedBits

theorem perm_exchange (first second third rest : List Grant) :
    (first ++ (second ++ (third ++ rest))).Perm (third ++ (second ++ (first ++ rest))) := by
  refine List.perm_iff_count.mpr fun grant => ?_
  simp only [List.count_append]
  omega

namespace Pool
variable {S α : Type} {w : Nat}

section Vectors
variable [HasBits w] [Storage S w]

def list (pool : Pool S) (name : String) : List Bool := (pool.span name).toList

/-- The pool with one vector, and the provider, as an operation on that vector has left them. -/
def hold (pool : Pool S) (name : String) (h : Holding S) : Pool S :=
  { pool.put name h.storage with provider := h.provider }

omit [HasBits w] [Storage S w] in
theorem lookup_filter_ne {vectors : List (String × S)} {name other : String}
    (different : other ≠ name) :
    (vectors.filter (·.1 ≠ name)).lookup other = vectors.lookup other := by
  induction vectors with
  | nil => rfl
  | cons entry rest ih =>
      obtain ⟨first, s⟩ := entry
      by_cases dropped : first = name
      · have skipped : (other == first) = false := by
          rw [dropped]
          exact beq_false_of_ne different
        rw [List.filter_cons_of_neg (by simpa using dropped), ih, List.lookup_cons, skipped]
      · rw [List.filter_cons_of_pos (by simpa using dropped), List.lookup_cons, List.lookup_cons,
          ih]

omit [HasBits w] in
theorem vector_put (pool : Pool S) (name other : String) (s : S) :
    (pool.put name s).vector other = if other = name then s else pool.vector other := by
  unfold vector put
  rw [List.lookup_cons]
  by_cases same : other = name
  · rw [if_pos same, beq_iff_eq.mpr same]
    rfl
  · rw [if_neg same, beq_false_of_ne same, lookup_filter_ne same]

omit [HasBits w] in
theorem vector_hold (pool : Pool S) (name other : String) (h : Holding S) :
    (pool.hold name h).vector other = if other = name then h.storage else pool.vector other :=
  vector_put pool name other h.storage

omit [HasBits w] in
theorem list_hold (pool : Pool S) (name other : String) (h : Holding S) :
    (pool.hold name h).list other = if other = name then h.list else pool.list other := by
  unfold list span
  rw [vector_hold]
  by_cases same : other = name
  · rw [if_pos same, if_pos same]
    rfl
  · rw [if_neg same, if_neg same]

omit [HasBits w] in
theorem list_hold_same (pool : Pool S) (name other : String) (p : Provider) :
    (pool.hold name ⟨pool.vector name, p⟩).list other = pool.list other := by
  rw [list_hold]
  by_cases same : other = name
  · rw [if_pos same, same]
    rfl
  · rw [if_neg same]

omit [HasBits w] in
theorem list_of_vectors {pool pool' : Pool S} {name : String} {s : S}
    (vectors : ∀ other, pool'.vector other = if other = name then s else pool.vector other)
    (other : String) :
    pool'.list other = if other = name then (Container.span s).toList else pool.list other := by
  unfold list span
  rw [vectors]
  by_cases same : other = name
  · rw [if_pos same, if_pos same]
  · rw [if_neg same, if_neg same]

end Vectors

section Blocks
variable [Storage S w] [StorageSpec S w]

def blocksOf (vectors : List (String × S)) : List Grant :=
  vectors.flatMap fun entry => (StorageSpec.block entry.2).toList

def blocks (pool : Pool S) : List Grant := blocksOf pool.vectors

def blocksBut (pool : Pool S) (name : String) : List Grant :=
  blocksOf (pool.vectors.filter (·.1 ≠ name))

/-- Every name stands for one sound vector. -/
structure Tidy (pool : Pool S) : Prop where
  distinct : (pool.vectors.map (·.1)).Nodup
  storages : ∀ entry ∈ pool.vectors, StorageSpec.Sound entry.2

/-- A tidy pool whose blocks are on the books of its provider, beside the blocks of others. -/
structure Sound (policy : Policy) (refusals : Nat) (others : List Grant) (pool : Pool S) :
    Prop where
  tidy : pool.Tidy
  books : Books policy refusals (pool.blocks ++ others) pool.provider

theorem blocksOf_cons (entry : String × S) (rest : List (String × S)) :
    blocksOf (entry :: rest) = (StorageSpec.block entry.2).toList ++ blocksOf rest :=
  List.flatMap_cons

theorem blocks_put (pool : Pool S) (name : String) (s : S) :
    (pool.put name s).blocks = (StorageSpec.block s).toList ++ pool.blocksBut name :=
  blocksOf_cons ..

theorem Sound.start {policy : Policy} (lawful : policy.Lawful) :
    Sound policy 0 [] (⟨[], Provider.of policy⟩ : Pool S) where
  tidy := ⟨List.nodup_nil, nofun⟩
  books := .of_policy lawful

end Blocks

variable [HasBits w] [Storage S w] [StorageSpec S w] [LawfulStorage S w]
  {policy : Policy} {refusals : Nat} {others : List Grant} {pool : Pool S} {name : String}

theorem blocksOf_split {vectors : List (String × S)} (distinct : (vectors.map (·.1)).Nodup)
    (name : String) :
    (blocksOf vectors).Perm
      ((StorageSpec.block ((vectors.lookup name).getD Storage.empty)).toList ++
      blocksOf (vectors.filter (·.1 ≠ name))) := by
  induction vectors with
  | nil =>
      have none : (StorageSpec.block (Storage.empty : S)).toList = [] := by
        rw [LawfulStorage.empty_block]
        rfl
      have missing : (([] : List (String × S)).lookup name).getD Storage.empty = Storage.empty := rfl
      rw [missing, none]
      exact .refl []
  | cons entry rest ih =>
      obtain ⟨first, s⟩ := entry
      obtain ⟨fresh, distinct⟩ := List.nodup_cons.mp distinct
      rw [blocksOf_cons, List.lookup_cons]
      by_cases found : first = name
      · -- The rest does not have the name again, so nothing more is filtered out.
        have whole : rest.filter (·.1 ≠ name) = rest := by
          refine List.filter_eq_self.mpr fun entry member => decide_eq_true ?_
          intro again
          have listed : entry.1 ∈ rest.map (·.1) := List.mem_map_of_mem member
          rw [again, ← found] at listed
          exact fresh listed
        rw [List.filter_cons_of_neg (by simpa using found), whole, beq_iff_eq.mpr found.symm]
        exact .refl _
      · have skipped : (name == first) = false := beq_false_of_ne fun same => found same.symm
        rw [List.filter_cons_of_pos (by simpa using found), skipped, blocksOf_cons]
        exact ((ih distinct).append_left _).trans (List.perm_append_comm_assoc ..)

theorem Tidy.vector_sound (tidy : pool.Tidy) (name : String) :
    StorageSpec.Sound (pool.vector name) := by
  unfold vector
  cases found : pool.vectors.lookup name with
  | none => exact LawfulStorage.empty_sound
  | some s =>
      have member : (name, s) ∈ pool.vectors := by
        obtain ⟨before, after, same, -⟩ := List.lookup_eq_some_iff.mp found
        rw [same]
        exact List.mem_append_right _ List.mem_cons_self
      exact tidy.storages _ member

theorem Tidy.span_held (tidy : pool.Tidy) (name : String) : (pool.span name).Held :=
  Storage.held (tidy.vector_sound name)

omit [HasBits w] [LawfulStorage S w] in
theorem Tidy.put (tidy : pool.Tidy) {s : S} (sound : StorageSpec.Sound s) :
    (pool.put name s).Tidy where
  distinct := by
    refine List.nodup_cons.mpr ⟨?_, ?_⟩
    · intro again
      obtain ⟨entry, member, same⟩ := List.mem_map.mp again
      exact of_decide_eq_true (List.mem_filter.mp member).2 same
    · exact (List.filter_sublist.map _).nodup tidy.distinct
  storages := by
    intro entry member
    rcases List.mem_cons.mp member with rfl | kept
    · exact sound
    · exact tidy.storages entry (List.mem_filter.mp kept).1

theorem Sound.holding (sound : pool.Sound policy refusals others) (name : String) :
    Holding.Sound policy refusals (pool.blocksBut name ++ others)
      ⟨pool.vector name, pool.provider⟩ where
  storage := sound.tidy.vector_sound name
  books := by
    refine sound.books.perm ?_
    rw [← List.append_assoc]
    exact (blocksOf_split sound.tidy.distinct name).append_right others

omit [HasBits w] [LawfulStorage S w] in
theorem Tidy.hold_sound (tidy : pool.Tidy) {h : Holding S}
    (after : h.Sound policy refusals (pool.blocksBut name ++ others)) :
    (pool.hold name h).Sound policy refusals others where
  tidy := ⟨(tidy.put after.storage).distinct, (tidy.put after.storage).storages⟩
  books := by
    show Books policy refusals ((pool.put name h.storage).blocks ++ others) h.provider
    rw [blocks_put, List.append_assoc]
    exact after.books

omit [HasBits w] [StorageSpec S w] [LawfulStorage S w] in
theorem work_ends {attempt : Attempt (Holding S) α} {done : α → Holding S → Prop}
    {failed : Failure → Holding S → Prop}
    (ends : attempt.Ends ⟨pool.vector name, pool.provider⟩ done failed) :
    (work name attempt).Ends pool (fun value pool' => ∃ h, done value h ∧ pool' = pool.hold name h)
      fun failure pool' => ∃ h, failed failure h ∧ pool' = pool.hold name h :=
  Attempt.Ends.within pool ends (fun _ h reached => ⟨h, reached, rfl⟩)
    fun _ h reached => ⟨h, reached, rfl⟩

theorem work_keeps {attempt : Attempt (Holding S) α} (preserves : BitVector.Preserves attempt) :
    (work name attempt).Keeps (Sound policy refusals others) := by
  intro pool sound
  refine (work_ends (preserves _ (sound.holding name))).imp ?_ ?_
  · rintro value pool' ⟨h, after, rfl⟩
    exact sound.tidy.hold_sound after
  · rintro failure pool' ⟨h, ⟨tame, after⟩, rfl⟩
    exact ⟨tame, sound.tidy.hold_sound after⟩

omit [StorageSpec S w] [LawfulStorage S w] [Storage S w] [HasBits w] in
theorem onProvider_ends {attempt : Attempt Provider α} {done : α → Provider → Prop}
    {failed : Failure → Provider → Prop} (ends : attempt.Ends pool.provider done failed) :
    (onProvider attempt).Ends pool
      (fun value pool' => ∃ p, done value p ∧ pool' = { pool with provider := p })
      fun failure pool' => ∃ p, failed failure p ∧ pool' = { pool with provider := p } :=
  Attempt.Ends.within pool ends (fun _ p reached => ⟨p, reached, rfl⟩)
    fun _ p reached => ⟨p, reached, rfl⟩

theorem drop_ends {s : S} (storage : StorageSpec.Sound s)
    (sound : pool.Sound policy refusals ((StorageSpec.block s).toList ++ others)) :
    (drop s).Ends pool
      (fun _ pool' => pool'.Sound policy refusals others ∧ pool'.vectors = pool.vectors)
      fun _ _ => False := by
  have released := LawfulStorage.release_ends storage
    (sound.books.perm (List.perm_append_comm_assoc ..))
  refine (onProvider_ends released).imp ?_ ?_
  · rintro ⟨⟩ pool' ⟨p, books, rfl⟩
    exact ⟨⟨⟨sound.tidy.distinct, sound.tidy.storages⟩, books⟩, rfl⟩
  · rintro failure pool' ⟨p, never, -⟩
    exact never

theorem assign_ends {s : S} (storage : StorageSpec.Sound s)
    (sound : pool.Sound policy refusals ((StorageSpec.block s).toList ++ others)) :
    (assign name s).Ends pool
      (fun _ pool' => pool'.Sound policy refusals others ∧
        ∀ other, pool'.vector other = if other = name then s else pool.vector other)
      fun _ _ => False := by
  have old := sound.holding name
  -- For a moment both blocks are on the books, the old one being in hand.
  have placed : (pool.put name s).Sound policy refusals
      ((StorageSpec.block (pool.vector name)).toList ++ others) := by
    refine sound.tidy.hold_sound (h := ⟨s, pool.provider⟩) ⟨storage, ?_⟩
    exact old.books.perm (perm_exchange ..)
  have dropped : (assign name s).Ends pool _ fun _ _ => False :=
    .get_bind (drop_ends old.storage placed)
  refine dropped.imp ?_ fun _ _ => id
  rintro ⟨⟩ pool' ⟨sound', vectors⟩
  refine ⟨sound', fun other => ?_⟩
  rw [← vector_put, vector, vectors]
  rfl

theorem make_ends {attempt : Attempt Provider S} {done : S → Prop}
    {failed : Failure → Provider → Prop} (tidy : pool.Tidy)
    (ends : attempt.Ends pool.provider
      (fun s p => BitVector.Made policy refusals (pool.blocks ++ others) s p ∧ done s) failed) :
    (make name attempt).Ends pool
      (fun _ pool' => pool'.Sound policy refusals others ∧ ∃ s, done s ∧
        ∀ other, pool'.vector other = if other = name then s else pool.vector other)
      fun failure pool' => ∃ p, failed failure p ∧ pool' = { pool with provider := p } := by
  refine (onProvider_ends ends).bind ?_
  rintro s pool' ⟨p, ⟨made, reached⟩, rfl⟩
  have sound : Sound policy refusals ((StorageSpec.block s).toList ++ others)
      { pool with provider := p } :=
    ⟨⟨tidy.distinct, tidy.storages⟩, made.books.perm (List.perm_append_comm_assoc ..)⟩
  refine (assign_ends made.sound sound).imp ?_ fun _ _ => False.elim
  rintro ⟨⟩ pool' ⟨sound', vectors⟩
  exact ⟨sound', s, reached, vectors⟩

theorem made_ends {attempt : Attempt Provider S} (tidy : pool.Tidy)
    (ends : attempt.Ends pool.provider
      (BitVector.Made policy refusals (pool.blocks ++ others))
      (Declined policy refusals (pool.blocks ++ others) False)) :
    (make name attempt).Ends pool (fun _ pool' => pool'.Sound policy refusals others)
      fun failure pool' => failure ≠ .wild ∧ pool'.Sound policy refusals others := by
  have made : attempt.Ends pool.provider
      (fun s p => BitVector.Made policy refusals (pool.blocks ++ others) s p ∧ True) _ :=
    ends.imp (fun _ _ made => ⟨made, trivial⟩) fun _ _ => id
  refine (make_ends tidy made).imp (fun _ _ reached => reached.1) ?_
  rintro failure pool' ⟨p, declined, rfl⟩
  exact ⟨declined.tame, ⟨tidy.distinct, tidy.storages⟩, declined.books⟩

theorem make_keeps {attempt : Attempt Provider S} (makes : BitVector.Makes attempt) :
    (make name attempt).Keeps (Sound policy refusals others) := fun pool sound =>
  made_ends sound.tidy (makes policy refusals _ pool.provider sound.books)

theorem take_ends (sound : pool.Sound policy refusals others) (name : String) :
    (take name).Ends pool
      (fun s pool' => s = pool.vector name ∧ StorageSpec.Sound s ∧
        pool' = pool.put name Storage.empty ∧
        pool'.Sound policy refusals ((StorageSpec.block s).toList ++ others))
      fun _ _ => False := by
  have old := sound.holding name
  refine .get_bind ⟨rfl, old.storage, rfl, ?_⟩
  refine sound.tidy.hold_sound (h := ⟨Storage.empty, pool.provider⟩) ⟨LawfulStorage.empty_sound, ?_⟩
  rw [LawfulStorage.empty_block]
  exact old.books.perm (List.perm_append_comm_assoc ..)

theorem glance_keeps {attempt : Attempt Provider S} (makes : BitVector.Makes attempt)
    (look : S → α) :
    (glance attempt look).Keeps (Sound policy refusals others) := by
  intro pool sound
  refine ((onProvider_ends (makes policy refusals _ pool.provider sound.books)).imp
    (fun _ _ => id) ?_).bind ?_
  · rintro failure pool' ⟨p, declined, rfl⟩
    exact ⟨declined.tame, ⟨sound.tidy.distinct, sound.tidy.storages⟩, declined.books⟩
  · rintro s pool' ⟨p, made, rfl⟩
    have held : Sound policy refusals ((StorageSpec.block s).toList ++ others)
        { pool with provider := p } :=
      ⟨⟨sound.tidy.distinct, sound.tidy.storages⟩,
        made.books.perm (List.perm_append_comm_assoc ..)⟩
    refine ((drop_ends made.sound held).imp (fun _ _ => id) fun _ _ => False.elim).bind ?_
    rintro ⟨⟩ pool' ⟨sound', -⟩
    exact sound'

theorem changeCopy_keeps {change : Attempt (Holding S) Unit}
    (preserves : BitVector.Preserves change) :
    (changeCopy name change).Keeps (Sound policy refusals others) :=
  .get_bind fun pool sound =>
    make_keeps (BitVector.copied_makes (sound.tidy.vector_sound name) preserves) pool sound

theorem changeOwned_keeps {change : Attempt (Holding S) Unit}
    (preserves : BitVector.Preserves change) :
    (changeOwned name change).Keeps (Sound policy refusals others) := by
  intro pool sound
  refine ((take_ends sound name).imp (fun _ _ => id) fun _ _ => False.elim).bind ?_
  rintro s pool₁ ⟨-, storage, -, held⟩
  have owned : BitVector.Made policy refusals (pool₁.blocks ++ others) s pool₁.provider :=
    ⟨storage, held.books.perm (List.perm_append_comm_assoc ..)⟩
  exact made_ends held.tidy (BitVector.onOwned_makes preserves owned)

theorem splitOff_ends (sound : pool.Sound policy refusals others) (name target : String)
    (position : Nat) :
    (splitOff name target position).Ends pool
      (fun _ pool' => pool'.Sound policy refusals others ∧ ∃ extent,
        (Bounds.startingAt position).resolve (pool.list name).length = .ok extent ∧
        ∀ other, pool'.list other =
          if other = target then ((pool.list name).drop extent.start).take extent.size
          else if other = name then (pool.list name).take position
          else pool.list other)
      fun failure pool' => failure ≠ .wild ∧ pool'.Sound policy refusals others ∧
        (((Bounds.startingAt position).resolve (pool.list name).length = .error failure ∧
          ∀ other, pool'.list other = pool.list other) ∨
        ∃ extent, (Bounds.startingAt position).resolve (pool.list name).length = .ok extent ∧
          (Storage.Allows S policy extent.size → pool'.Sound policy (refusals + 1) others)) := by
  have length : (pool.list name).length = BitVector.len ⟨pool.vector name, pool.provider⟩ :=
    BitVector.length_list ⟨pool.vector name, pool.provider⟩
  have before := sound.holding name
  rw [length]
  refine ((work_ends (BitVector.splitOff_ends before position)).imp (fun _ _ => id) ?_).bind ?_
  · rintro failure pool' ⟨h, stopped, rfl⟩
    rcases stopped with ⟨stopped, rfl⟩ | ⟨extent, resolved, tame, after, -, counted⟩
    · obtain ⟨panic, rfl⟩ := Bounds.resolve_panics stopped
      exact ⟨Attempt.panic_tame _, sound.tidy.hold_sound before,
        .inl ⟨stopped, fun other => list_hold_same pool name other pool.provider⟩⟩
    · exact ⟨tame, sound.tidy.hold_sound after,
        .inr ⟨extent, resolved, fun allowed => sound.tidy.hold_sound (counted allowed)⟩⟩
  · rintro tail pool' ⟨h, ⟨storage, after, extent, resolved, upper, lower, -⟩, rfl⟩
    -- From here on the upper part is in hand, beside all the other vectors.
    have after' : h.Sound policy refusals
        (pool.blocksBut name ++ ((StorageSpec.block tail).toList ++ others)) :=
      ⟨after.storage, after.books.perm ((List.perm_append_comm_assoc ..).append_left _)⟩
    refine (assign_ends storage (sound.tidy.hold_sound after')).imp ?_ fun _ _ => False.elim
    rintro ⟨⟩ pool' ⟨sound', vectors⟩
    refine ⟨sound', extent, resolved, fun other => ?_⟩
    rw [list_of_vectors vectors, upper, list_hold, lower]
    rfl

theorem splitOff_keeps (name target : String) (position : Nat) :
    (splitOff name target position : Attempt (Pool S) Unit).Keeps (Sound policy refusals others) :=
  fun _ sound => (splitOff_ends sound name target position).imp (fun _ _ reached => reached.1)
    fun _ _ ⟨tame, after, _⟩ => ⟨tame, after⟩

theorem moved_keeps (name target : String) :
    (do assign target (← take name) : Attempt (Pool S) Unit).Keeps
      (Sound policy refusals others) := by
  intro pool sound
  refine ((take_ends sound name).imp (fun _ _ => id) fun _ _ => False.elim).bind ?_
  rintro s pool₁ ⟨-, storage, -, held⟩
  exact (assign_ends storage held).imp (fun _ _ reached => reached.1) fun _ _ => False.elim

theorem dropped_keeps (name : String) :
    (do drop (← take name) : Attempt (Pool S) Unit).Keeps (Sound policy refusals others) := by
  intro pool sound
  refine ((take_ends sound name).imp (fun _ _ => id) fun _ _ => False.elim).bind ?_
  rintro s pool₁ ⟨-, storage, -, held⟩
  exact (drop_ends storage held).imp (fun _ _ reached => reached.1) fun _ _ => False.elim

theorem drop_all_ends {vectors : List (String × S)}
    (storages : ∀ entry ∈ vectors, StorageSpec.Sound entry.2)
    (sound : pool.Sound policy refusals (blocksOf vectors ++ others)) :
    (vectors.forM fun (_, s) => drop s : Attempt (Pool S) PUnit).Ends pool
      (fun _ pool' => pool'.Sound policy refusals others ∧ pool'.vectors = pool.vectors)
      fun _ _ => False := by
  let left (rest : List (String × S)) (pool' : Pool S) : Prop :=
    (∀ entry ∈ rest, StorageSpec.Sound entry.2) ∧
      pool'.Sound policy refusals (blocksOf rest ++ others) ∧ pool'.vectors = pool.vectors
  refine (Attempt.Ends.forM left ⟨storages, sound, rfl⟩ ?_).imp (fun _ _ reached => reached.2)
    fun _ _ => id
  rintro entry rest pool₁ ⟨storages₁, sound₁, same₁⟩
  rw [blocksOf_cons, List.append_assoc] at sound₁
  refine (drop_ends (storages₁ entry List.mem_cons_self) sound₁).imp ?_ fun _ _ => False.elim
  rintro ⟨⟩ pool₂ ⟨sound₂, same₂⟩
  exact ⟨fun entry member => storages₁ entry (List.mem_cons_of_mem _ member), sound₂,
    same₂.trans same₁⟩

theorem clear_ends (sound : pool.Sound policy refusals others) :
    clear.Ends pool (fun _ pool' => pool'.vectors = [] ∧ pool'.Sound policy refusals others)
      fun _ _ => False := by
  have emptied : Sound policy refusals (blocksOf pool.vectors ++ others)
      (⟨[], pool.provider⟩ : Pool S) := ⟨⟨List.nodup_nil, nofun⟩, sound.books⟩
  have ended : clear.Ends pool _ fun _ _ => False :=
    .get_bind (drop_all_ends sound.tidy.storages emptied)
  exact ended.imp (fun _ _ ⟨after, emptied⟩ => ⟨emptied, after⟩) fun _ _ => id

theorem clear_keeps : (clear : Attempt (Pool S) Unit).Keeps (Sound policy refusals others) :=
  fun _ sound => (clear_ends sound).imp (fun _ _ reached => reached.2) fun _ _ => False.elim

def exchange (name other : String) : Attempt (Pool S) Unit :=
  Span.swapBits.within (fun pool => (pool.span name, pool.span other)) fun pool (s, t) =>
    let pool := pool.put name (Container.putWords (pool.vector name) s.words)
    pool.put other (Container.putWords (pool.vector other) t.words)

theorem Sound.put_within {t : Span w} (sound : pool.Sound policy refusals others) (name : String)
    (within : Span.Within (pool.span name) t) :
    let pool' := pool.put name (Container.putWords (pool.vector name) t.words)
    pool'.Sound policy refusals others ∧
      (∀ other, pool'.span other = if other = name then t else pool.span other) ∧
      ∀ other, Storage.onHeap (pool'.vector other) = Storage.onHeap (pool.vector other) := by
  obtain ⟨touched, span⟩ := (sound.holding name).put within
  refine ⟨sound.tidy.hold_sound touched.sound, fun other => ?_, fun other => ?_⟩
  · rw [Pool.span, vector_put]
    by_cases same : other = name
    · rw [if_pos same, if_pos same]
      exact span
    · rw [if_neg same, if_neg same]
      rfl
  · rw [vector_put]
    by_cases same : other = name
    · rw [if_pos same, same]
      exact touched.room.onHeap
    · rw [if_neg same]

theorem exchange_ends (sound : pool.Sound policy refusals others) (name other : String) :
    (exchange name other : Attempt (Pool S) Unit).Ends pool
      (fun _ pool' => pool'.Sound policy refusals others ∧
        ∀ any, Storage.onHeap (pool'.vector any) = Storage.onHeap (pool.vector any))
      fun failure pool' => failure ≠ .wild ∧ pool'.Sound policy refusals others ∧
        ∀ any, Storage.onHeap (pool'.vector any) = Storage.onHeap (pool.vector any) := by
  have put (s t : Span w) (within : Span.Within (pool.span name) s)
      (within' : Span.Within (pool.span other) t) :
      let pool₁ := pool.put name (Container.putWords (pool.vector name) s.words)
      let pool₂ := pool₁.put other (Container.putWords (pool₁.vector other) t.words)
      pool₂.Sound policy refusals others ∧
        ∀ any, Storage.onHeap (pool₂.vector any) = Storage.onHeap (pool.vector any) := by
    obtain ⟨sound₁, spans, modes⟩ := sound.put_within name within
    have within₁ : Span.Within
        ((pool.put name (Container.putWords (pool.vector name) s.words)).span other) t := by
      rw [spans]
      by_cases same : other = name
      · -- Beside itself a vector is what the first of the two has become.
        rw [if_pos same]
        rw [same] at within'
        exact within.symm.trans within'
      · rw [if_neg same]
        exact within'
    obtain ⟨sound₂, -, modes₂⟩ := sound₁.put_within other within₁
    exact ⟨sound₂, fun any => (modes₂ any).trans (modes any)⟩
  have swapped := Span.swapBits_ends (sound.tidy.span_held name) (sound.tidy.span_held other)
  refine Attempt.Ends.within pool swapped ?_ ?_
  · rintro value ⟨s, t⟩ ⟨within, within'⟩
    exact put s t within within'
  · rintro failure ⟨s, t⟩ ⟨tame, within, within'⟩
    exact ⟨tame, put s t within within'⟩

theorem exchange_keeps (name other : String) :
    (exchange name other : Attempt (Pool S) Unit).Keeps (Sound policy refusals others) :=
  fun _ sound => (exchange_ends sound name other).imp (fun _ _ reached => reached.1)
    fun _ _ ⟨tame, after, _⟩ => ⟨tame, after⟩

end Pool

end PackedBits
