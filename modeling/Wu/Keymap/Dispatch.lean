import Wu.Keymap.Keymap

/-!
# Dispatching keystrokes

`DispatchTree::dispatch_key` and `flush_dispatch`: what becomes of the keystrokes that are pending when the next one is typed, or
when no more is typed in time. Keys that can no longer be part of a longer key sequence are replayed, the longest complete one
first. Nothing typed is lost: the keys split into those that are replayed, in order, and those of the last outcome.
-/

namespace Wu.Gpui

open List Option

/-- `struct Replay`; the keystroke is the last one of those that it stands for. -/
structure Replay where
  keystroke : Keystroke
  bindings : List KeyBinding
  deriving DecidableEq, Repr

/-- `struct DispatchResult`. -/
structure DispatchResult where
  pending : List Keystroke
  pendingHasBinding : Bool
  bindings : List KeyBinding
  toReplay : List Replay
  contextStack : List KeyContext
  deriving DecidableEq, Repr

/-- `struct DispatchTree`: the keymap and the contexts of the nodes. -/
structure DispatchTree (NodeId : Type) where
  keymap : Keymap
  context : NodeId → Option KeyContext

namespace DispatchTree

variable {NodeId : Type} (windows : Bool) (tree : DispatchTree NodeId) (dispatchPath : List NodeId)

/-- The contexts along a path. -/
def contextStack : List KeyContext := dispatchPath.filterMap tree.context

/-- `DispatchTree::bindings_for_input`, the context stack apart. -/
def bindingsForInput (input : List Keystroke) : List KeyBinding × Bool :=
  tree.keymap.bindingsForInput windows input (tree.contextStack dispatchPath)

/-- The replay of a prefix, when its keys have bindings. -/
def replayOf (input : List Keystroke) (last : Nat) : Option Replay :=
  let bindings := (tree.bindingsForInput windows dispatchPath (input.take (last + 1))).1
  if bindings.isEmpty then none else input[last]?.map fun keystroke => ⟨keystroke, bindings⟩

/-- The loop of `replay_prefix`, from the last key to the first: the rest of the input, and the replay. -/
def searchReplay (input : List Keystroke) : Nat → Option (List Keystroke × Replay)
  | 0 => none
  | last + 1 =>
    match tree.replayOf windows dispatchPath input last with
    | some replay => some (input.drop (last + 1), replay)
    | none => searchReplay input last

/-- `DispatchTree::replay_prefix`; the code panics when there is no input. -/
def replayPrefix (input : List Keystroke) : Option (List Keystroke × Replay) :=
  match tree.searchReplay windows dispatchPath input input.length, input with
  | some found, _ => some found
  | none, keystroke :: rest => some (rest, ⟨keystroke, []⟩)
  | none, [] => none

/-- What one replay stands for: the longest of the keys in front that have a binding, or one key without any. -/
structure Takes (input : List Keystroke) (replay : Replay) (group rest : List Keystroke) : Prop where
  split : input = group ++ rest
  last : group.getLast? = some replay.keystroke
  bindings : replay.bindings = (tree.bindingsForInput windows dispatchPath group).1
  longest : ∀ longer, longer <+: input → group.length < longer.length → (tree.bindingsForInput windows dispatchPath longer).1 = []
  single : replay.bindings ≠ [] ∨ group.length = 1

variable {windows tree dispatchPath} {input suffix rest group : List Keystroke} {replay : Replay}

theorem replayOf_eq_some {last : Nat} (h : tree.replayOf windows dispatchPath input last = some replay) :
    replay.bindings = (tree.bindingsForInput windows dispatchPath (input.take (last + 1))).1 ∧ replay.bindings ≠ [] ∧
      input[last]? = some replay.keystroke := by
  unfold replayOf at h
  dsimp only at h
  split at h
  · cases h
  · rename_i hbin
    obtain ⟨keystroke, hkey, rfl⟩ := Option.map_eq_some_iff.mp h
    exact ⟨rfl, fun hemp => hbin (List.isEmpty_iff.mpr hemp), hkey⟩

theorem replayOf_eq_none {last : Nat} (hlast : last < input.length) (h : tree.replayOf windows dispatchPath input last = none) :
    (tree.bindingsForInput windows dispatchPath (input.take (last + 1))).1 = [] := by
  unfold replayOf at h
  dsimp only at h
  split at h
  · rename_i hbin
    exact List.isEmpty_iff.mp hbin
  · rw [List.getElem?_eq_getElem hlast] at h
    cases h

/-- The loop finds the longest prefix that has a binding, or there is none. -/
theorem searchReplay_spec {n : Nat} (hn : n ≤ input.length) (hlgr : ∀ longer, longer <+: input → n < longer.length →
      (tree.bindingsForInput windows dispatchPath longer).1 = []) :
    (tree.searchReplay windows dispatchPath input n = none ∧ ∀ longer, longer <+: input → longer ≠ [] →
        (tree.bindingsForInput windows dispatchPath longer).1 = []) ∨
      ∃ group suffix replay, tree.searchReplay windows dispatchPath input n = some (suffix, replay) ∧
        tree.Takes windows dispatchPath input replay group suffix := by
  induction n with
  | zero => exact .inl ⟨rfl, fun longer hpre hne => hlgr _ hpre (length_pos_iff.mpr hne)⟩
  | succ last ih =>
    rw [searchReplay]
    cases hrep : tree.replayOf _ _ _ last with
    | some replay =>
      obtain ⟨hbin, hne, hlast⟩ := replayOf_eq_some hrep
      have hlen : (input.take (last + 1)).length = last + 1 := length_take_of_le hn
      refine .inr ⟨input.take _, _, replay, rfl, (take_append_drop _ _).symm, ?_, hbin, ?_, .inl hne⟩
      · rw [getLast?_eq_getElem?, hlen, Nat.add_sub_cancel, List.getElem?_take_of_lt (Nat.lt_succ_self last), hlast]
      · rw [hlen]
        exact hlgr
    | none =>
      have hnone := replayOf_eq_none hn hrep
      refine ih (Nat.le_of_succ_le hn) fun longer hpre hlt => ?_
      rcases Nat.lt_or_eq_of_le (Nat.succ_le_of_lt hlt) with hlt | heq
      · exact hlgr _ hpre hlt
      · rwa [prefix_iff_eq_take.mp hpre, ← heq]

/-- What `replay_prefix` takes. -/
theorem replayPrefix_spec (hne : input ≠ []) :
    ∃ group suffix replay, tree.replayPrefix windows dispatchPath input = some (suffix, replay) ∧
      tree.Takes windows dispatchPath input replay group suffix := by
  obtain ⟨keystroke, rest, rfl⟩ := exists_cons_of_ne_nil hne
  have hlgr : ∀ longer, longer <+: keystroke :: rest → (keystroke :: rest).length < longer.length →
      (tree.bindingsForInput windows dispatchPath longer).1 = [] :=
    fun longer hpre hlt => absurd hpre.length_le (Nat.not_le_of_lt hlt)
  unfold replayPrefix
  rcases searchReplay_spec le_rfl hlgr with ⟨hsea, hnone⟩ | ⟨group, suffix, replay, hsea, htake⟩
  · rw [hsea]
    refine ⟨[keystroke], rest, ⟨keystroke, []⟩, rfl, rfl, rfl, (hnone _ ⟨rest, rfl⟩ (cons_ne_nil _ _)).symm, ?_, .inr rfl⟩
    exact fun longer hpre hlt => hnone _ hpre (ne_nil_of_length_pos (Nat.zero_lt_of_lt hlt))
  · rw [hsea]
    exact ⟨group, suffix, replay, rfl, htake⟩

theorem Takes.group_ne_nil (h : tree.Takes windows dispatchPath input replay group rest) : group ≠ [] := by
  rintro rfl
  cases h.last

theorem length_replayPrefix (h : tree.replayPrefix windows dispatchPath input = some (suffix, replay)) :
    suffix.length < input.length := by
  have hne : input ≠ [] := by
    rintro rfl
    cases h
  obtain ⟨group, suffix', replay', heq, htake⟩ := replayPrefix_spec hne
  obtain ⟨rfl, -⟩ := Prod.mk.inj (some.inj (h.symm.trans heq))
  have hpos := length_pos_iff.mpr htake.group_ne_nil
  rw [htake.split, length_append]
  omega

variable (windows tree dispatchPath)

/-- `DispatchTree::dispatch_key`. -/
def dispatchKey (input : List Keystroke) (keystroke : Keystroke) : Option DispatchResult :=
  let (bindings, pending) := tree.bindingsForInput windows dispatchPath (input ++ [keystroke])
  let contextStack := tree.contextStack dispatchPath
  if pending then some ⟨input ++ [keystroke], !bindings.isEmpty, [], [], contextStack⟩
  else if !bindings.isEmpty then some ⟨[], false, bindings, [], contextStack⟩
  else if (input ++ [keystroke]).length = 1 then some ⟨[], false, [], [], contextStack⟩
  else
    match _h : tree.replayPrefix windows dispatchPath input with
    | none => none
    | some (suffix, replay) =>
      (dispatchKey suffix keystroke).map fun result => { result with toReplay := replay :: result.toReplay }
  termination_by input.length
  decreasing_by exact length_replayPrefix _h

/-- `DispatchTree::flush_dispatch`. -/
def flushDispatch (input : List Keystroke) : Option (List Replay) :=
  match _h : tree.replayPrefix windows dispatchPath input with
  | none => none
  | some (suffix, replay) =>
    if suffix.isEmpty then some [replay] else (flushDispatch suffix).map fun toReplay => replay :: toReplay
  termination_by input.length
  decreasing_by exact length_replayPrefix _h

/-- Replays in order: each takes a group of keys from the front of what the ones before it left. -/
inductive Replayed : List Keystroke → List Replay → List (List Keystroke) → List Keystroke → Prop
  | done (input : List Keystroke) : Replayed input [] [] input
  | replay {input group rest suffix : List Keystroke} {replay : Replay} {replays : List Replay}
      {groups : List (List Keystroke)} (htakes : tree.Takes windows dispatchPath input replay group rest)
      (hrest : Replayed rest replays groups suffix) : Replayed input (replay :: replays) (group :: groups) suffix

/-- The last outcome: the keys are pending, or they have bindings, or there is one key without any. -/
inductive Outcome (keys : List Keystroke) (result : DispatchResult) : Prop
  | pending (hmore : (tree.bindingsForInput windows dispatchPath keys).2 = true) (hpending : result.pending = keys)
      (hnone : result.bindings = [])
  | bindings (hmore : (tree.bindingsForInput windows dispatchPath keys).2 = false)
      (hbindings : result.bindings = (tree.bindingsForInput windows dispatchPath keys).1) (hne : result.bindings ≠ [])
      (hpending : result.pending = [])
  | unbound (hmore : tree.bindingsForInput windows dispatchPath keys = ([], false)) (hlen : keys.length = 1)
      (hnone : result.bindings = []) (hpending : result.pending = [])

variable {windows tree dispatchPath}

/-- The groups and what is left are the input again. -/
theorem Replayed.split {replays : List Replay} {groups : List (List Keystroke)}
    (h : tree.Replayed windows dispatchPath input replays groups suffix) :
    groups.flatten ++ suffix = input ∧ groups.length = replays.length := by
  induction h with
  | done => exact ⟨rfl, rfl⟩
  | replay htake _ ih =>
    rw [flatten_cons, append_assoc, ih.1, length_cons, ih.2]
    exact ⟨htake.split.symm, rfl⟩

/-- A key typed after pending ones. -/
theorem dispatchKey_spec (input : List Keystroke) (keystroke : Keystroke) :
    ∃ result groups suffix, tree.dispatchKey windows dispatchPath input keystroke = some result ∧
      tree.Replayed windows dispatchPath input result.toReplay groups suffix ∧
      tree.Outcome windows dispatchPath (suffix ++ [keystroke]) result := by
  fun_induction dispatchKey _ tree _ input _ with
  | case1 input contextStack bindings hbin =>
    exact ⟨_, [], input, rfl, .done _, .pending (by rw [hbin]) rfl rfl⟩
  | case2 input bindings pending hbin contextStack hpend hne =>
    have hmore : pending = false := by simpa using hpend
    refine ⟨_, [], input, rfl, .done _, .bindings (by rw [hbin, hmore]) (by rw [hbin]) ?_ rfl⟩
    simpa using hne
  | case3 input bindings pending hbin contextStack hpend hne hlen =>
    have hmore : pending = false := by simpa using hpend
    have hnone : bindings = [] := by simpa using hne
    exact ⟨_, [], input, rfl, .done _, .unbound (by rw [hbin, hmore, hnone]) hlen rfl rfl⟩
  | case4 input bindings pending hbin hpend hne hlen hrep =>
    -- the prefix is taken from input that is not empty
    have hinp : input ≠ [] := by
      rintro rfl
      exact hlen rfl
    obtain ⟨-, suffix, replay, heq, -⟩ := replayPrefix_spec hinp
    rw [hrep] at heq
    cases heq
  | case5 input bindings pending hbin hpend hne hlen suffix replay hrep ih =>
    have hinp : input ≠ [] := by
      rintro rfl
      exact hlen rfl
    obtain ⟨group, suffix', replay', heq, htake⟩ := replayPrefix_spec hinp
    obtain ⟨rfl, rfl⟩ := Prod.mk.inj (some.inj (hrep.symm.trans heq))
    obtain ⟨result, groups, rest, hres, hrepl, houtc⟩ := ih
    rw [hres]
    refine ⟨_, group :: groups, rest, rfl, .replay htake hrepl, ?_⟩
    cases houtc with
    | pending hmore hpend hnone => exact .pending hmore hpend hnone
    | bindings hmore hbin hne hpend => exact .bindings hmore hbin hne hpend
    | unbound hmore hlen hnone hpend => exact .unbound hmore hlen hnone hpend

/-- Pending keys that are flushed. -/
theorem flushDispatch_spec (hne : input ≠ []) : ∃ toReplay groups, tree.flushDispatch windows dispatchPath input = some toReplay ∧
      tree.Replayed windows dispatchPath input toReplay groups [] := by
  fun_induction flushDispatch _ tree _ input with
  | case1 input hrep =>
    obtain ⟨-, suffix, replay, heq, -⟩ := replayPrefix_spec hne
    rw [hrep] at heq
    cases heq
  | case2 input suffix replay hrep hemp =>
    obtain ⟨group, suffix', replay', heq, htake⟩ := replayPrefix_spec hne
    obtain ⟨rfl, rfl⟩ := Prod.mk.inj (some.inj (hrep.symm.trans heq))
    rw [List.isEmpty_iff.mp hemp] at htake
    exact ⟨_, [group], rfl, .replay htake (.done [])⟩
  | case3 input suffix replay hrep hrest ih =>
    obtain ⟨group, suffix', replay', heq, htake⟩ := replayPrefix_spec hne
    obtain ⟨rfl, rfl⟩ := Prod.mk.inj (some.inj (hrep.symm.trans heq))
    obtain ⟨toReplay, groups, hflu, hrepl⟩ := ih fun hnil => hrest (List.isEmpty_iff.mpr hnil)
    rw [hflu]
    exact ⟨_, group :: groups, rfl, .replay htake hrepl⟩

/-- No key is lost: when one is typed, and when the pending ones are flushed, the keys split in order into the groups that the
replays stand for and the keys of the last outcome. -/
theorem typed_keys_never_lost (windows : Bool) (tree : DispatchTree NodeId) (dispatchPath : List NodeId)
    (pending : List Keystroke) (keystroke : Keystroke) :
    (∃ result groups suffix, tree.dispatchKey windows dispatchPath pending keystroke = some result ∧
      pending ++ [keystroke] = groups.flatten ++ (suffix ++ [keystroke]) ∧ groups.length = result.toReplay.length ∧
      tree.Replayed windows dispatchPath pending result.toReplay groups suffix ∧
      tree.Outcome windows dispatchPath (suffix ++ [keystroke]) result) ∧
    (pending ≠ [] → ∃ toReplay groups, tree.flushDispatch windows dispatchPath pending = some toReplay ∧
      pending = groups.flatten ∧ groups.length = toReplay.length ∧
      tree.Replayed windows dispatchPath pending toReplay groups []) := by
  constructor
  · obtain ⟨result, groups, suffix, hresult, hreplayed, houtcome⟩ := dispatchKey_spec pending keystroke
    obtain ⟨hsplit, hlen⟩ := hreplayed.split
    refine ⟨result, groups, suffix, hresult, ?_, hlen, hreplayed, houtcome⟩
    rw [← append_assoc, hsplit]
  · intro hne
    obtain ⟨toReplay, groups, hflush, hreplayed⟩ := flushDispatch_spec hne
    obtain ⟨hsplit, hlen⟩ := hreplayed.split
    rw [append_nil] at hsplit
    exact ⟨toReplay, groups, hflush, hsplit.symm, hlen, hreplayed⟩

end DispatchTree

end Wu.Gpui
