import PackedBits.Proofs.Run.Simulation

/-! Runs on any storage. A run that the provider grants and that stays within the greatest length
has the trace of the same run on lists. So it has one trace on all storages and widths, and
commands that only make room, give room back or copy can be put in anywhere. -/
namespace PackedBits

namespace Command

/-- A run that the provider grants, at addresses the storage can keep, and that never asks for more
than the greatest length. -/
structure Granted (b : Backend) (policy : Policy) (commands : List (Command (Window b.width))) :
    Prop where
  lawful : policy.Lawful
  admitted : Storage.Admitted b.Carrier policy
  fit : Fit (Storage.maxBits b.Carrier) (bare commands) Lists.none
  granted :
    let pool : Pool b.Carrier := poolAfter commands (Action.start policy)
    pool.provider.requests = pool.provider.grants

instance decidableFit (max : Nat) :
    (commands : List (Command (List Bool))) → (lists : Lists) → Decidable (Fit max commands lists)
  | [], _ => .isTrue trivial
  | command :: rest, lists =>
      have := decidableFit max rest (command.onLists.outcome lists).2
      inferInstanceAs (Decidable (command.total lists ≤ max ∧
        Fit max rest (command.onLists.outcome lists).2))

variable {b : Backend} {policy : Policy} {commands : List (Command (Window b.width))}

theorem list_start (b : Backend) (policy : Policy) :
    (Action.start policy : Pool b.Carrier).list = Lists.none := by
  funext name
  refine List.eq_nil_of_length_eq_zero ?_
  rw [Pool.list, Span.length_toList]
  exact (LawfulStorage.len_span _).trans LawfulStorage.empty_len

theorem Granted.follows (run : Granted b policy commands) :
    trace commands (Action.start policy : Pool b.Carrier) = listTrace (bare commands) Lists.none ∧
      (poolAfter commands (Action.start policy : Pool b.Carrier)).list =
        listsAfter (bare commands) Lists.none := by
  have sound : Pool.Sound policy 0 [] (Action.start policy : Pool b.Carrier) := .start run.lawful
  have followed := run_follows commands sound run.admitted
    (by rw [list_start]; exact run.fit) run.granted
  rwa [list_start] at followed

end Command

theorem Policy.pages_admitted (b : Backend) {count : Nat} (few : count ≤ 2 ^ 35) :
    Storage.Admitted b.Carrier (Policy.pages count) := by
  intro request address granted
  unfold Policy.pages at granted
  split at granted
  · rename_i fits
    cases granted
    cases b with
    | plain width positive => rfl
    | smallBuffer => rfl
    | tagged =>
        -- Within so few pages an address stays below the 48 bits of a tagged one.
        have low : 4096 * (request.serial + 1) < 2 ^ 48 := by omega
        exact decide_eq_true low
  · cases granted

open Command in
/-- A granted run has, after each command, the answers, lengths and bits of the same run on lists.
Hence two granted runs of the same commands have one trace, on whatever storages, and a granted run
with idle commands put in has the same entries and leaves the same bits. -/
theorem vectors_simulate_lists (b : Backend) (policy : Policy)
    (commands : List (Command (Window b.width))) (run : Granted b policy commands) :
    trace commands (Action.start policy : Pool b.Carrier) = listTrace (bare commands) Lists.none ∧
    (∀ (b' : Backend) (policy' : Policy) (commands' : List (Command (Window b'.width))),
      Granted b' policy' commands' → bare commands' = bare commands →
      trace commands' (Action.start policy' : Pool b'.Carrier) =
        trace commands (Action.start policy : Pool b.Carrier)) ∧
    ∀ (kept : String → Prop) (b' : Backend) (policy' : Policy)
      (longer : List (Command (Window b'.width))),
      Granted b' policy' longer → Padded kept (bare commands) (bare longer) →
      ((trace commands (Action.start policy : Pool b.Carrier)).map (narrow kept)).Sublist
        ((trace longer (Action.start policy' : Pool b'.Carrier)).map (narrow kept)) ∧
      ∀ name, kept name → (poolAfter longer (Action.start policy' : Pool b'.Carrier)).list name =
        (poolAfter commands (Action.start policy : Pool b.Carrier)).list name := by
  obtain ⟨traced, final⟩ := run.follows
  refine ⟨traced, ?_, ?_⟩
  · intro b' policy' commands' run' same
    rw [traced, run'.follows.1, same]
  · intro kept b' policy' longer run' padded
    obtain ⟨traced', final'⟩ := run'.follows
    obtain ⟨sublist, alike⟩ := listTrace_padded padded (a := Lists.none) fun _ _ => rfl
    rw [traced, traced', final, final']
    exact ⟨sublist, fun name keep => (alike name keep).symm⟩

open Command in
/-- A run over inline and heap, on eight pages, traced by lists: on tagged storage, and on bytes
with an idle command in between. -/
theorem vectors_simulate_lists_on_pages :
    let commands (w : Nat) : List (Command (Window w)) :=
      [.edit "a" (.grow (.resize 130 true)) (.vector "a"),
        .edit "a" (.force (.insert 7 false)) (.vector "a"),
        .splitOff "a" "b" 9,
        .edit "a" (.grow .extendFrom) (.vector "b"),
        .edit "a" .pop (.vector "a")]
    let longer (w : Nat) : List (Command (Window w)) :=
      .edit "b" (.force (.reserve 500)) (.vector "b") :: commands w
    Granted .tagged (Policy.pages 8) (commands 64) ∧
    trace (commands 64) (Action.start (Policy.pages 8) : Pool Backend.tagged.Carrier) =
      listTrace (bare (commands 64)) Lists.none ∧
    ((trace (commands 64) (Action.start (Policy.pages 8) : Pool Backend.tagged.Carrier)).map
        (narrow fun _ => True)).Sublist
      ((trace (longer 8) (Action.start (Policy.pages 8) :
        Pool (Backend.plain 8 (by decide)).Carrier)).map (narrow fun _ => True)) := by
  intro commands longer
  have lawful : (Policy.pages 8).Lawful := Policy.pages_lawful (by decide)
  have run : Granted .tagged (Policy.pages 8) (commands 64) :=
    ⟨lawful, Policy.pages_admitted .tagged (by decide), by decide +kernel, by decide +kernel⟩
  have run' : Granted (.plain 8 (by decide)) (Policy.pages 8) (longer 8) :=
    ⟨lawful, Policy.pages_admitted _ (by decide), by decide +kernel, by decide +kernel⟩
  have padded : Padded (fun _ => True) (bare (commands 64)) (bare (longer 8)) := by
    refine .idle (.reserve ..) ?_
    refine .keep ⟨trivial, trivial⟩ (.keep ⟨trivial, trivial⟩ (.keep ⟨trivial, trivial⟩ ?_))
    exact .keep ⟨trivial, trivial⟩ (.keep ⟨trivial, trivial⟩ .nil)
  obtain ⟨traced, -, idle⟩ := vectors_simulate_lists .tagged (Policy.pages 8) (commands 64) run
  exact ⟨run, traced, (idle _ _ _ _ run' padded).1⟩

end PackedBits
