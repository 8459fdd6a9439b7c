import Wu.AgentHarness.Subagents
import Wu.Rope.Str

/-!
# What is emitted for the subagents of a run

Along any run of the parent's items and the children's notifications: what a child's notifications are mapped to is emitted once
and in order, under one owner, after the owner's call, or waits for the owner; and each call has one result.
-/

namespace Wu.Codex.Subagents

open List Option Assoc

variable {E S : Type}

/-! ## Runs -/

/-- Whether an item is about the spawn of a child: a call that spawns one, or an activity at its start. -/
def isSpawn (item : Value) : Bool := isCollabSpawn item || (isActivity item && startsChild item)

/-- The subagents of a run with what has been emitted. `mapped` and `due` are records that nothing reads: what the children's
notifications have been mapped to, and the calls of spawns that are over, with the owners of their children. -/
structure System (E S : Type) where
  subagents : Subagents E S
  emitted : List (ParentEvent E)
  mapped : List (String × E)
  due : List String

inductive Action where
  | notification (child method : String) (params : Value)
  | parentItem (phase : ItemPhase) (item : Value)

/-- What a notification is mapped to. -/
def mappedEvents (mapping : Mapping E S) (self : Subagents E S) (child method : String) (params : Value) : List E :=
  (mapping.map ((self.streams child).getD mapping.start) child method params).2

/-- What waits for a child's owner. -/
def buffered (self : Subagents E S) (child : String) : List E := ((Assoc.get child self.pending).map Pending.events).getD []

/-- The id under which an item is emitted: that of its child's owner, or its own. An item of the parent's own thread is left out. -/
def target (self : Subagents E S) (item : Value) : Option String :=
  match childOf item with
  | none => none
  | some none => some (strField item ["id"])
  | some (some child) => if child = self.root then none else some ((self.spawns child).getD (strField item ["id"]))

/-- A spawn that is over finds its own call without a result only where the result goes to that call. -/
def Lands (self : Subagents E S) (item : Value) : Prop :=
  strField item ["id"] ∈ self.emittedSpawns →
    strField item ["id"] ∈ self.resolvedSpawns ∨ self.target item = some (strField item ["id"])

/-- The length of events in JSON. -/
def sizes (mapping : Mapping E S) (events : List E) : Nat :=
  (events.map fun event => (mapping.size event).getD maxPendingBytes).sum

namespace System

def new (root : String) : System E S where
  subagents := Subagents.new root
  emitted := []
  mapped := []
  due := []

def step (mapping : Mapping E S) (self : System E S) : Action → System E S
  | .notification child method params =>
    let (subagents, events) := self.subagents.notification mapping child method params
    { self with
      subagents
      emitted := self.emitted ++ events
      mapped := self.mapped ++ (self.subagents.mappedEvents mapping child method params).map (child, ·) }
  | .parentItem phase item =>
    let (subagents, events) := self.subagents.parentItem mapping phase item
    let settled := if phase = .completed ∧ isSpawn item then
      (strField item ["id"] :: (self.subagents.target item).toList).filter fun id => subagents.emittedSpawns.contains id
      else []
    { self with subagents, emitted := self.emitted ++ events, due := self.due ++ settled }

/-- What the parent and its children may do: the parent's items are spawns and activities, and what waits for owners stays below
the limit. -/
def Permitted (mapping : Mapping E S) (self : System E S) : Action → Prop
  | .notification child method params =>
    self.subagents.spawns child = none →
      self.subagents.pendingBytes + sizes mapping (self.subagents.mappedEvents mapping child method params) ≤ maxPendingBytes
  | .parentItem _ item => isCollabSpawn item = true ∨ isActivity item = true

/-- Where a spawn is over, its call is not left without a result. -/
def Settles (self : System E S) : Action → Prop
  | .notification _ _ _ => True
  | .parentItem phase item => phase = .completed → isSpawn item = true → self.subagents.Lands item

/-- Runs whose steps are allowed. -/
inductive Run (mapping : Mapping E S) (allowed : System E S → Action → Prop) (start : System E S) : System E S → Prop
  | refl : Run mapping allowed start start
  | step {system : System E S} {action : Action} (h : Run mapping allowed start system) (hallowed : allowed system action) :
      Run mapping allowed start (system.step mapping action)

/-- Whether actions are allowed one after another. -/
def Follows (mapping : Mapping E S) (allowed : System E S → Action → Prop) : System E S → List Action → Prop
  | _, [] => True
  | system, action :: actions => allowed system action ∧ Follows mapping allowed (system.step mapping action) actions

theorem Run.follow {mapping : Mapping E S} {allowed : System E S → Action → Prop} {start system : System E S}
    (h : Run mapping allowed start system) {actions : List Action} (hfoll : Follows mapping allowed system actions) :
    Run mapping allowed start (actions.foldl (System.step mapping) system) := by
  induction actions generalizing system with
  | nil => exact h
  | cons action actions ih => exact ih (h.step hfoll.1) hfoll.2

end System

/-! ## What is emitted -/

/-- The ids of the calls among events. -/
def callIds (events : List (ParentEvent E)) : List String :=
  events.filterMap fun
    | .toolCall id _ _ => some id
    | _ => none

/-- The ids of the results among events. -/
def resultIds (events : List (ParentEvent E)) : List String :=
  events.filterMap fun
    | .toolResult id _ => some id
    | _ => none

/-- The events of a child among events, with their owners. -/
def childEvents (child : String) (events : List (ParentEvent E)) : List (String × E) :=
  events.filterMap fun
    | .subagent child' owner event => if child' = child then some (owner, event) else none
    | _ => none

/-- What a child's notifications have been mapped to. -/
def mappedFor (child : String) (mapped : List (String × E)) : List E :=
  mapped.filterMap fun entry => if entry.1 = child then some entry.2 else none

/-- Each event of a child comes after the call that owns it. -/
def AfterCalls (events : List (ParentEvent E)) : Prop :=
  ∀ before after child owner event, events = before ++ .subagent child owner event :: after → owner ∈ callIds before

/-- Subagent output is neither lost nor duplicated nor misfiled. -/
structure System.Filed (mapping : Mapping E S) (system : System E S) : Prop where
  owned : ∀ child owner, system.subagents.spawns child = some owner →
    childEvents child system.emitted = (mappedFor child system.mapped).map (owner, ·)
  waiting : ∀ child, child ≠ "" → child ≠ system.subagents.root → system.subagents.spawns child = none →
    childEvents child system.emitted = [] ∧ system.subagents.buffered child = mappedFor child system.mapped
  afterCalls : AfterCalls system.emitted
  onceCalled : (callIds system.emitted).Nodup
  onceResolved : (resultIds system.emitted).Nodup
  resolved : ∀ id ∈ system.due, id ∈ resultIds system.emitted
  bytes : system.subagents.pendingBytes = Assoc.total (fun pending => sizes mapping pending.events) system.subagents.pending

@[simp] theorem callIds_append (events later : List (ParentEvent E)) :
    callIds (events ++ later) = callIds events ++ callIds later := filterMap_append

@[simp] theorem resultIds_append (events later : List (ParentEvent E)) :
    resultIds (events ++ later) = resultIds events ++ resultIds later := filterMap_append

@[simp] theorem childEvents_append (child : String) (events later : List (ParentEvent E)) :
    childEvents child (events ++ later) = childEvents child events ++ childEvents child later := filterMap_append

@[simp] theorem mappedFor_append (child : String) (mapped later : List (String × E)) :
    mappedFor child (mapped ++ later) = mappedFor child mapped ++ mappedFor child later := filterMap_append

@[simp] theorem callIds_tag (child owner : String) (events : List E) : callIds (tag child owner events) = [] := by
  unfold callIds tag
  rw [filterMap_map, filterMap_eq_nil_iff]
  intro event _
  rfl

@[simp] theorem resultIds_tag (child owner : String) (events : List E) : resultIds (tag child owner events) = [] := by
  unfold resultIds tag
  rw [filterMap_map, filterMap_eq_nil_iff]
  intro event _
  rfl

theorem childEvents_tag (child other owner : String) (events : List E) :
    childEvents other (tag child owner events) = if child = other then events.map (owner, ·) else [] := by
  unfold childEvents tag
  rw [filterMap_map]
  by_cases h : child = other
  · rw [if_pos h, ← filterMap_eq_map]
    refine filterMap_congr ?_
    intro event _
    exact if_pos h
  · rw [if_neg h, filterMap_eq_nil_iff]
    intro event _
    exact if_neg h

theorem mappedFor_map (child other : String) (events : List E) :
    mappedFor other (events.map (child, ·)) = if child = other then events else [] := by
  unfold mappedFor
  rw [filterMap_map]
  by_cases h : child = other
  · rw [if_pos h]
    have hsome : ((fun entry : String × E => if entry.1 = other then some entry.2 else none) ∘ fun x => (child, x)) = some := by
      funext event
      exact if_pos h
    rw [hsome, filterMap_some]
  · rw [if_neg h, filterMap_eq_nil_iff]
    intro event _
    exact if_neg h

variable {events flushed : List (ParentEvent E)} {child owner : String} {system : System E S}

/-- Events that are none of a child's come after calls that are theirs. -/
theorem AfterCalls.append {later : List (ParentEvent E)} (h : AfterCalls events)
    (hlat : ∀ before after child owner event, later = before ++ .subagent child owner event :: after →
      owner ∈ callIds events ∨ owner ∈ callIds before) : AfterCalls (events ++ later) := by
  intro before after child owner event hspl
  rcases append_eq_append_iff.mp hspl with ⟨middle, hbef, hlat'⟩ | ⟨middle, heve, haft⟩
  · rw [hbef, callIds_append, mem_append]
    exact hlat _ _ _ _ _ hlat'
  · cases middle with
    | nil =>
      rw [append_nil] at heve
      rw [← heve]
      rcases hlat [] _ _ _ _ haft.symm with hmem | hmem
      · exact hmem
      · nomatch hmem
    | cons first middle =>
      obtain ⟨rfl, -⟩ := List.cons.inj haft
      exact h _ _ _ _ _ heve

/-! ## What waits -/

/-- What waits is counted, and waits for a child without an owner. -/
structure Ok (mapping : Mapping E S) (subagents : Subagents E S) : Prop where
  keyed : Assoc.Keyed subagents.pending
  bytes : subagents.pendingBytes = Assoc.total Pending.bytes subagents.pending
  sized : ∀ entry ∈ subagents.pending, entry.2.bytes = sizes mapping entry.2.events
  bound : ∀ child owner, subagents.spawns child = some owner → Assoc.get child subagents.pending = none

/-- Subagents that have the same owners and have emitted the same. -/
structure Same (before after : Subagents E S) : Prop where
  root : after.root = before.root
  spawns : after.spawns = before.spawns
  emittedSpawns : after.emittedSpawns = before.emittedSpawns
  resolvedSpawns : after.resolvedSpawns = before.resolvedSpawns

theorem Same.trans {a b c : Subagents E S} (h : Same a b) (h' : Same b c) : Same a c :=
  ⟨h'.root.trans h.root, h'.spawns.trans h.spawns, h'.emittedSpawns.trans h.emittedSpawns, h'.resolvedSpawns.trans h.resolvedSpawns⟩

theorem sizes_append (mapping : Mapping E S) (events later : List E) :
    sizes mapping (events ++ later) = sizes mapping events + sizes mapping later := by
  unfold sizes
  rw [map_append, List.sum_append]

variable {mapping : Mapping E S} {self : Subagents E S}

/-- An event that fits waits behind what waits for its child's owner. -/
theorem Ok.buffer (h : Ok mapping self) (hnone : self.spawns child = none) (event : E)
    (hfits : self.pendingBytes + sizes mapping [event] ≤ maxPendingBytes) :
    Ok mapping (self.buffer mapping child event) ∧ Same self (self.buffer mapping child event) ∧
      (self.buffer mapping child event).pendingBytes = self.pendingBytes + sizes mapping [event] ∧
      ∀ other, (self.buffer mapping child event).buffered other =
        if other = child then self.buffered child ++ [event] else self.buffered other := by
  have hsize : sizes mapping [event] = (mapping.size event).getD maxPendingBytes := Nat.add_zero _
  unfold Subagents.buffer
  rw [if_neg (by omega), ← hsize]
  have hold : ((Assoc.get child self.pending).getD ⟨[], 0⟩).events = self.buffered child ∧
      ((Assoc.get child self.pending).getD ⟨[], 0⟩).bytes = ((Assoc.get child self.pending).map Pending.bytes).getD 0 := by
    unfold buffered
    cases Assoc.get child _ <;> exact ⟨rfl, rfl⟩
  refine ⟨⟨h.keyed.update .., ?_, ?_, ?_⟩, ⟨rfl, rfl, rfl, rfl⟩, rfl, ?_⟩
  · have htot := total_update Pending.bytes child
      (fun pending => ⟨(pending.getD ⟨[], 0⟩).events ++ [event], (pending.getD ⟨[], 0⟩).bytes + sizes mapping [event]⟩)
      self.pending
    dsimp only at htot ⊢
    rw [hold.2] at htot
    rw [h.bytes]
    omega
  · intro entry hent
    rcases mem_update hent with hmem | rfl
    · exact h.sized _ hmem
    · dsimp only
      rw [sizes_append]
      cases hget : Assoc.get child _ with
      | none => rfl
      | some pending =>
        have hsiz := h.sized _ (mem_of_get hget)
        exact congrArg (· + sizes _ _) hsiz
  · intro other owner hoth
    have hne : other ≠ child := by
      rintro rfl
      rw [hnone] at hoth
      nomatch hoth
    rw [get_update, if_neg hne]
    exact h.bound _ _ hoth
  · intro other
    conv_lhs => unfold buffered
    dsimp only
    rw [get_update]
    split
    · rw [map_some, getD_some, hold.1]
    · rfl

theorem Ok.bufferAll (h : Ok mapping self) (hnone : self.spawns child = none) (events : List E)
    (hfits : self.pendingBytes + sizes mapping events ≤ maxPendingBytes) :
    Ok mapping (events.foldl (fun self event => self.buffer mapping child event) self) ∧
      Same self (events.foldl (fun self event => self.buffer mapping child event) self) ∧
      ∀ other, (events.foldl (fun self event => self.buffer mapping child event) self).buffered other =
        if other = child then self.buffered child ++ events else self.buffered other := by
  induction events generalizing self with
  | nil =>
    refine ⟨h, ⟨rfl, rfl, rfl, rfl⟩, ?_⟩
    intro other
    by_cases heq : other = child <;> simp [heq]
  | cons event events ih =>
    have hcons : sizes mapping (event :: events) = sizes mapping [event] + sizes mapping events :=
      sizes_append _ [event] _
    obtain ⟨hok, hsame, hbyte, hbuf⟩ := h.buffer hnone event (by omega)
    obtain ⟨hok', hsame', hbuf'⟩ := ih hok (by rw [hsame.spawns]; exact hnone) (by omega)
    refine ⟨hok', hsame.trans hsame', ?_⟩
    intro other
    rw [foldl_cons, hbuf', hbuf, hbuf, if_pos rfl, append_assoc]
    split <;> rfl

/-- A child that is bound: its owner stays if it has one, and what waits is let go of. -/
def boundTo (self : Subagents E S) (child owner : String) : Subagents E S :=
  { self with
    spawns := Function.update self.spawns child (some owner)
    pending := Assoc.erase child self.pending
    pendingBytes := self.pendingBytes - ((Assoc.get child self.pending).map Pending.bytes).getD 0 }

theorem bind_eq {spawn : String} (hc : child ≠ "") (hr : child ≠ self.root) (hs : spawn ≠ "") : self.bind child spawn =
      (self.boundTo child ((self.spawns child).getD spawn), tag child ((self.spawns child).getD spawn) (self.buffered child)) := by
  have hprop : (child.isEmpty || child == self.root || spawn.isEmpty) = false := by simp [hc, hr, hs]
  unfold bind boundTo buffered
  dsimp only
  rw [hprop]
  cases hget : Assoc.get child _ with
  | none => simp [erase_eq_self hget, tag]
  | some pending => rfl

theorem Ok.bind (h : Ok mapping self) (child owner : String) : Ok mapping (self.boundTo child owner) ∧
      ∀ other, (self.boundTo child owner).buffered other = if other = child then [] else self.buffered other := by
  have hget : ∀ other, Assoc.get other (self.boundTo child owner).pending =
      if other = child then none else Assoc.get other self.pending := get_erase h.keyed _
  refine ⟨⟨h.keyed.erase _, ?_, ?_, ?_⟩, ?_⟩
  · unfold boundTo
    dsimp only
    rw [h.bytes]
    cases hpend : Assoc.get child _ with
    | none => rw [erase_eq_self hpend]; rfl
    | some pending =>
      have htot := total_erase Pending.bytes hpend
      rw [map_some, getD_some]
      omega
  · intro entry hent
    exact h.sized _ ((erase_sublist _ _).subset hent)
  · intro other owner' hoth
    rw [hget]
    by_cases heq : other = child
    · rw [if_pos heq]
    · rw [if_neg heq]
      exact h.bound _ _ (by simpa [boundTo, heq] using hoth)
  · intro other
    unfold buffered
    rw [hget]
    split <;> rfl

/-! ## Items of spawns -/

theorem strField_single (item : Value) (key : String) : strField item [key] = ((item.get key).bind Value.asStr).getD "" := by
  have hfst : fieldOf item [key] = item.get key := by
    unfold fieldOf
    rw [List.findSome?_cons]
    cases item.get key <;> rfl
  rw [strField, hfst]

theorem get_withId {item : Value} (h : item.isObject = true) (id key : String) :
    (withId item id).get key = if key = "id" then some (.string id) else item.get key := by
  cases item with
  | object entries => exact Value.lookupEntry_insertEntry "id" key _ _
  | _ => nomatch h

theorem isObject_of_get {item : Value} {key : String} {value : Value} (h : item.get key = some value) : item.isObject = true := by
  cases item with
  | object entries => rfl
  | _ => nomatch h

/-- An item of a spawn is an object. -/
theorem isObject_of_isSpawn {item : Value} (h : isSpawn item = true) : item.isObject = true := by
  cases htype : item.get _ with
  | some value => exact isObject_of_get htype
  | none =>
    unfold isSpawn isCollabSpawn isCollab isActivity itemType at h
    rw [htype] at h
    simp at h

/-- An item of a spawn under another id is one. -/
theorem isSpawn_withId {item : Value} (h : isSpawn item = true) (id : String) :
    isSpawn (withId item id) = true ∧ strField (withId item id) ["id"] = id := by
  have hobj := isObject_of_isSpawn h
  have hget : ∀ key, key ≠ "id" → (withId item id).get key = item.get key := by
    intro key hkey
    rw [get_withId hobj, if_neg hkey]
  constructor
  · unfold isSpawn isCollabSpawn isCollab isActivity startsChild itemType at h ⊢
    rw [hget _ (by decide), hget _ (by decide), hget _ (by decide)]
    exact h
  · unfold strField fieldOf
    rw [List.findSome?_cons, get_withId hobj]
    rfl

/-- An item of a spawn is mapped to its call, and to the call's result when it is over. -/
theorem mapItem_spawn {item : Value} (h : isSpawn item = true) (mapping : Mapping E S) (phase : ItemPhase) :
    ∃ name isError, isSubagentSpawn name = true ∧
      mapItem mapping phase item = toolLifecycle phase (strField item ["id"]) name item isError := by
  unfold mapItem
  by_cases hcol : isCollab item = true
  · have hspa : isCollabSpawn item = true := by
      unfold isSpawn at h
      rcases Bool.or_eq_true_iff.mp h with h | h
      · exact h
      · -- The two types of items are different.
        exfalso
        obtain ⟨hact, -⟩ := Bool.and_eq_true_iff.mp h
        unfold isCollab at hcol
        unfold isActivity at hact
        simp only [contains_eq_mem, mem_cons, not_mem_nil, or_false, decide_eq_true_eq] at hcol hact
        rcases hcol with hc | hc <;> rw [hc] at hact <;> simp at hact
    refine ⟨_, _, ?_, if_pos hcol⟩
    unfold collabName
    rw [if_pos hspa]
    rfl
  · obtain ⟨hact, hsta⟩ : isActivity item = true ∧ startsChild item = true := by
      unfold isSpawn isCollabSpawn at h
      rw [Bool.eq_false_iff.mpr hcol] at h
      simpa using h
    rw [if_neg hcol, if_pos hact, if_pos hsta]
    refine ⟨_, _, ?_, rfl⟩
    unfold activityName
    cases pathLeaf _ with
    | none => rfl
    | some leaf =>
      unfold isSubagentSpawn Strings.stripPrefix
      rw [map_some, getD_some, String.toList_append, if_pos]
      · simp
      · exact isPrefixOf_iff_prefix.mpr (prefix_append _ _)

/-- Ids with one more, where it is new. -/
def addNew (ids : List String) (id : String) : List String := if id ∈ ids then ids else ids ++ [id]

theorem mem_addNew (ids : List String) (id other : String) : other ∈ addNew ids id ↔ other ∈ ids ∨ other = id := by
  unfold addNew
  split
  · rename_i h
    exact ⟨.inl, fun hor => hor.elim (fun hmem => hmem) (fun heq => heq ▸ h)⟩
  · rw [mem_append, mem_singleton]

theorem nodup_addNew {ids : List String} (h : ids.Nodup) (id : String) : (addNew ids id).Nodup := by
  unfold addNew
  split
  · exact h
  · rename_i hnew
    rw [nodup_append]
    refine ⟨h, nodup_singleton id, ?_⟩
    intro a ha b hb
    rw [mem_singleton.mp hb]
    rintro rfl
    exact hnew ha

/-- What is left of the call of a spawn, and of its result when it is over: what is new of them. -/
theorem keepFirst_lifecycle (self : Subagents E S) (phase : ItemPhase) (id name : String) (input : Value) (isError : Bool)
    (hname : isSubagentSpawn name = true) :
    ∃ kept : List (ParentEvent E), self.keepFirst (toolLifecycle phase id name input isError) =
        ({ self with
            emittedSpawns := addNew self.emittedSpawns id
            resolvedSpawns := if phase = .completed then addNew self.resolvedSpawns id else self.resolvedSpawns }, kept) ∧
      self.emittedSpawns ++ callIds kept = addNew self.emittedSpawns id ∧
      self.resolvedSpawns ++ resultIds kept = (if phase = .completed then addNew self.resolvedSpawns id else self.resolvedSpawns) ∧
      ∀ child, childEvents child kept = [] := by
  cases phase with
  | started =>
    by_cases hid : id ∈ self.emittedSpawns
    · exact ⟨[], by simp [toolLifecycle, keepFirst, hname, hid, addNew], by simp [addNew, hid, callIds], by simp [resultIds],
        fun _ => rfl⟩
    · exact ⟨[.toolCall id name input], by simp [toolLifecycle, keepFirst, hname, hid, addNew], by simp [addNew, hid, callIds],
        by simp [resultIds], fun _ => rfl⟩
  | completed =>
    by_cases hid : id ∈ self.emittedSpawns <;> by_cases hres : id ∈ self.resolvedSpawns
    · exact ⟨[], by simp [toolLifecycle, keepFirst, hname, hid, hres, addNew], by simp [addNew, hid, callIds],
        by simp [addNew, hres, resultIds], fun _ => rfl⟩
    · exact ⟨[.toolResult id isError], by simp [toolLifecycle, keepFirst, hname, hid, hres, addNew],
        by simp [addNew, hid, callIds], by simp [addNew, hres, resultIds], fun _ => rfl⟩
    · exact ⟨[.toolCall id name input], by simp [toolLifecycle, keepFirst, hname, hid, hres, addNew],
        by simp [addNew, hid, callIds], by simp [addNew, hres, resultIds], fun _ => rfl⟩
    · exact ⟨[.toolCall id name input, .toolResult id isError],
        by simp [toolLifecycle, keepFirst, hname, hid, hres, addNew], by simp [addNew, hid, callIds],
        by simp [addNew, hres, resultIds], fun _ => rfl⟩

/-- What binds an item's child: nothing, or the child gets the item's id as its owner where it has none, and what waits for it is
let go of. -/
inductive Binds (self : Subagents E S) (id : String) : Subagents E S → List (ParentEvent E) → Prop
  | none : Binds self id self []
  | child (child : String) (hc : child ≠ "") (hr : child ≠ self.root) (howner : (self.spawns child).getD id = id) :
      Binds self id (self.boundTo child id) (tag child id (self.buffered child))

/-- An item of a spawn or an activity does nothing, or emits what is new of its call and its result, and what has waited. -/
theorem parentItem_cases (self : Subagents E S) (mapping : Mapping E S) (phase : ItemPhase) {item : Value}
    (hitem : isCollabSpawn item = true ∨ isActivity item = true) :
    self.target item = none ∧ self.parentItem mapping phase item = (self, []) ∨
      ∃ id name input isError after flushed, self.target item = some id ∧ isSubagentSpawn name = true ∧ Binds self id after flushed ∧
        self.parentItem mapping phase item = ((after.keepFirst (toolLifecycle phase id name input isError)).1,
            (after.keepFirst (toolLifecycle phase id name input isError)).2 ++ flushed) := by
  unfold parentItem target
  cases hchd : childOf item with
  | none => exact .inl ⟨rfl, rfl⟩
  | some child =>
    have hspa : isSpawn item = true := by
      unfold childOf at hchd
      unfold isSpawn
      rcases hitem with hitem | hitem
      · rw [hitem, Bool.true_or]
      · rw [if_pos hitem] at hchd
        split at hchd
        · nomatch hchd
        · split at hchd
          · rename_i hsta
            rw [hitem, hsta, Bool.and_self, Bool.or_true]
          · nomatch hchd
    cases child with
    | none =>
      obtain ⟨name, isError, hname, hmap⟩ := mapItem_spawn hspa _ _
      refine .inr ⟨_, name, item, isError, self, [], rfl, hname, .none, ?_⟩
      rw [hmap, append_nil]
    | some child =>
      dsimp only
      by_cases hroot : child = self.root
      · rw [if_pos hroot, if_pos hroot]
        exact .inl ⟨rfl, rfl⟩
      · rw [if_neg hroot, if_neg hroot]
        right
        have hid : ((item.get "id").bind Value.asStr).getD "" = strField item ["id"] := (strField_single item "id").symm
        rw [hid]
        by_cases hprop : child ≠ "" ∧ strField item ["id"] ≠ ""
        · obtain ⟨hc, hs⟩ := hprop
          obtain ⟨hspa', hid'⟩ := isSpawn_withId hspa _
          obtain ⟨name, isError, hname, hmap⟩ := mapItem_spawn hspa' _ _
          rw [hid'] at hmap
          refine ⟨_, name, withId item ((self.spawns child).getD (strField item ["id"])), isError, _, _, rfl, hname,
            .child _ hc hroot ?_, ?_⟩
          · cases self.spawns _ <;> rfl
          · rw [bind_eq hc hroot hs]
            simp only [boundTo, Function.update_self, map_some, getD_some]
            rw [hmap]
        · have hbind : self.bind child (strField item ["id"]) = (self, []) := by
            unfold bind
            rw [not_and_or, not_not, not_not] at hprop
            rcases hprop with rfl | hs
            · rfl
            · rw [hs]
              simp
          rw [hbind]
          cases hown : self.spawns _ with
          | none =>
            obtain ⟨name, isError, hname, hmap⟩ := mapItem_spawn hspa _ _
            refine ⟨_, name, item, isError, self, [], rfl, hname, .none, ?_⟩
            rw [map_none, getD_none, hmap]
            rfl
          | some owner =>
            obtain ⟨hspa', hid'⟩ := isSpawn_withId hspa _
            obtain ⟨name, isError, hname, hmap⟩ := mapItem_spawn hspa' _ _
            rw [hid'] at hmap
            refine ⟨owner, name, withId item owner, isError, self, [], rfl, hname, .none, ?_⟩
            rw [map_some, getD_some, hmap]

/-! ## What runs keep -/

/-- What every step keeps: what is recorded is what has been emitted, and a bound child's owner has its call emitted. -/
structure Inv (mapping : Mapping E S) (system : System E S) : Prop where
  ok : Ok mapping system.subagents
  proper : system.subagents.spawns "" = none ∧ system.subagents.spawns system.subagents.root = none
  owned : ∀ child owner, system.subagents.spawns child = some owner →
    childEvents child system.emitted = (mappedFor child system.mapped).map (owner, ·)
  waiting : ∀ child, child ≠ "" → child ≠ system.subagents.root → system.subagents.spawns child = none →
    childEvents child system.emitted = [] ∧ system.subagents.buffered child = mappedFor child system.mapped
  calls : callIds system.emitted = system.subagents.emittedSpawns
  results : resultIds system.emitted = system.subagents.resolvedSpawns
  callsNodup : system.subagents.emittedSpawns.Nodup
  resultsNodup : system.subagents.resolvedSpawns.Nodup
  owners : ∀ child owner, system.subagents.spawns child = some owner → owner ∈ system.subagents.emittedSpawns
  afterCalls : AfterCalls system.emitted
  due : ∀ id ∈ system.due, id ∈ system.subagents.resolvedSpawns

theorem inv_new (mapping : Mapping E S) (root : String) : Inv mapping (System.new root) where
  ok := ⟨nodup_nil, rfl, by rintro - ⟨⟩, by rintro - - ⟨⟩⟩
  proper := ⟨rfl, rfl⟩
  owned := by rintro - - ⟨⟩
  waiting := fun child _ _ _ => ⟨rfl, rfl⟩
  calls := rfl
  results := rfl
  callsNodup := nodup_nil
  resultsNodup := nodup_nil
  owners := by rintro - - ⟨⟩
  afterCalls := by
    intro before after child owner event h
    simp [System.new] at h
  due := by rintro id ⟨⟩

theorem Inv.filed (h : Inv mapping system) : system.Filed mapping where
  owned := h.owned
  waiting := h.waiting
  afterCalls := h.afterCalls
  onceCalled := by rw [h.calls]; exact h.callsNodup
  onceResolved := by rw [h.results]; exact h.resultsNodup
  resolved := by rw [h.results]; exact h.due
  bytes := h.ok.bytes.trans (total_congr h.ok.sized)

/-- The events of a child that are tagged with its owner come after the owner's call. -/
theorem afterCalls_tag (h : owner ∈ callIds events) (later : List E) :
    ∀ before after child' owner' event, tag child owner later = before ++ .subagent child' owner' event :: after →
      owner' ∈ callIds events ∨ owner' ∈ callIds before := by
  intro before after child' owner' event hspl
  have hmem : ParentEvent.subagent child' owner' event ∈ tag child owner later := by
    rw [hspl]
    exact mem_append_right _ (mem_cons_self ..)
  obtain ⟨event', -, heq⟩ := mem_map.mp hmem
  obtain ⟨-, rfl, -⟩ := ParentEvent.subagent.inj heq
  exact .inl h

theorem Inv.withStreams (h : Inv mapping system) (streams : String → Option S) :
    Inv mapping { system with subagents := { system.subagents with streams } } :=
  ⟨⟨h.ok.keyed, h.ok.bytes, h.ok.sized, h.ok.bound⟩, h.proper, h.owned, h.waiting, h.calls, h.results, h.callsNodup,
    h.resultsNodup, h.owners, h.afterCalls, h.due⟩

/-- Routing a child's events: they are emitted under its owner, or wait for one. -/
theorem Inv.route (h : Inv mapping system) (child : String) (events : List E) (hfits : system.subagents.spawns child = none →
      system.subagents.pendingBytes + sizes mapping events ≤ maxPendingBytes) :
    Inv mapping
      { system with
        subagents := (system.subagents.route mapping child events).1
        emitted := system.emitted ++ (system.subagents.route mapping child events).2
        mapped := system.mapped ++ events.map (child, ·) } := by
  unfold Subagents.route
  by_cases hprop : (child.isEmpty || child == system.subagents.root) = true
  · rw [if_pos hprop]
    have hchd : child = "" ∨ child = system.subagents.root := by simpa using hprop
    refine ⟨h.ok, h.proper, ?_, ?_, ?_, ?_, h.callsNodup, h.resultsNodup, h.owners, ?_, h.due⟩
    · intro other owner hoth
      have hne : child ≠ other := by
        rintro rfl
        rcases hchd with rfl | rfl
        · rw [h.proper.1] at hoth
          nomatch hoth
        · rw [h.proper.2] at hoth
          nomatch hoth
      rw [append_nil, mappedFor_append, mappedFor_map, if_neg hne, append_nil]
      exact h.owned _ _ hoth
    · intro other hemp hroot hoth
      have hne : child ≠ other := by
        rintro rfl
        rcases hchd with rfl | rfl
        · exact hemp rfl
        · exact hroot rfl
      rw [append_nil, mappedFor_append, mappedFor_map, if_neg hne, append_nil]
      exact h.waiting _ hemp hroot hoth
    · rw [append_nil]
      exact h.calls
    · rw [append_nil]
      exact h.results
    · rw [append_nil]
      exact h.afterCalls
  · rw [if_neg hprop]
    cases hown : system.subagents.spawns _ with
    | some owner =>
      refine ⟨h.ok, h.proper, ?_, ?_, ?_, ?_, h.callsNodup, h.resultsNodup, h.owners, ?_, h.due⟩
      · intro other owner' hoth
        rw [childEvents_append, childEvents_tag, mappedFor_append, mappedFor_map, h.owned _ _ hoth]
        by_cases heq : child = other
        · rw [← heq, hown] at hoth
          obtain rfl := some.inj hoth
          rw [if_pos heq, if_pos heq, map_append]
        · rw [if_neg heq, if_neg heq, append_nil, append_nil]
      · intro other hemp hroot hoth
        have hne : child ≠ other := by
          rintro rfl
          rw [hown] at hoth
          nomatch hoth
        rw [childEvents_append, childEvents_tag, mappedFor_append, mappedFor_map, if_neg hne, if_neg hne, append_nil, append_nil]
        exact h.waiting _ hemp hroot hoth
      · rw [callIds_append, callIds_tag, append_nil]
        exact h.calls
      · rw [resultIds_append, resultIds_tag, append_nil]
        exact h.results
      · refine h.afterCalls.append (afterCalls_tag ?_ _)
        rw [h.calls]
        exact h.owners _ _ hown
    | none =>
      obtain ⟨hok, hsame, hbuf⟩ := h.ok.bufferAll hown _ (hfits hown)
      rw [append_nil]
      refine ⟨hok, ?_, ?_, ?_, ?_, ?_, ?_, ?_, ?_, h.afterCalls, ?_⟩
      · rw [hsame.spawns, hsame.root]
        exact h.proper
      · intro other owner hoth
        rw [hsame.spawns] at hoth
        have hne : child ≠ other := by
          rintro rfl
          rw [hown] at hoth
          nomatch hoth
        rw [mappedFor_append, mappedFor_map, if_neg hne, append_nil]
        exact h.owned _ _ hoth
      · intro other hemp hroot hoth
        rw [hsame.spawns] at hoth
        rw [hsame.root] at hroot
        obtain ⟨hnone, hwait⟩ := h.waiting _ hemp hroot hoth
        refine ⟨hnone, ?_⟩
        rw [hbuf, mappedFor_append, mappedFor_map]
        by_cases heq : other = child
        · rw [if_pos heq, if_pos heq.symm, ← heq, hwait]
        · rw [if_neg heq, if_neg (Ne.symm heq), append_nil, hwait]
      · rw [hsame.emittedSpawns]
        exact h.calls
      · rw [hsame.resolvedSpawns]
        exact h.results
      · rw [hsame.emittedSpawns]
        exact h.callsNodup
      · rw [hsame.resolvedSpawns]
        exact h.resultsNodup
      · intro other owner hoth
        rw [hsame.spawns] at hoth
        rw [hsame.emittedSpawns]
        exact h.owners _ _ hoth
      · rw [hsame.resolvedSpawns]
        exact h.due

theorem Inv.notification (h : Inv mapping system) {method : String} {params : Value}
    (hfits : system.Permitted mapping (.notification child method params)) :
    Inv mapping (system.step mapping (.notification child method params)) :=
  (h.withStreams _).route _ _ hfits

/-- Binding a child lets go of what waits for it. -/
theorem Inv.binds (h : Inv mapping system) {id : String} {after : Subagents E S}
    {kept : List (ParentEvent E)} (hbind : Binds system.subagents id after flushed) (phase : ItemPhase) (due : List String)
    (hcall : system.subagents.emittedSpawns ++ callIds kept = addNew system.subagents.emittedSpawns id)
    (hress : system.subagents.resolvedSpawns ++ resultIds kept =
      if phase = .completed then addNew system.subagents.resolvedSpawns id else system.subagents.resolvedSpawns)
    (hnone : ∀ child, childEvents child kept = [])
    (hdue : ∀ id' ∈ due, id' ∈ system.subagents.resolvedSpawns ++ resultIds kept) :
    Inv mapping
      { system with
        subagents :=
          { after with
            emittedSpawns := system.subagents.emittedSpawns ++ callIds kept
            resolvedSpawns := system.subagents.resolvedSpawns ++ resultIds kept }
        emitted := system.emitted ++ (kept ++ flushed)
        due := system.due ++ due } := by
  have hkept : AfterCalls (system.emitted ++ kept) := by
    refine h.afterCalls.append ?_
    intro before after child owner event hspl
    have heve := hnone child
    rw [hspl] at heve
    simp [childEvents] at heve
  have hid : id ∈ callIds (system.emitted ++ kept) := by
    rw [callIds_append, h.calls, hcall, mem_addNew]
    exact .inr rfl
  have hallD : ∀ id' ∈ system.due ++ due, id' ∈ system.subagents.resolvedSpawns ++ resultIds kept := by
    intro id' hmem
    rcases mem_append.mp hmem with hmem | hmem
    · exact mem_append_left _ (h.due id' hmem)
    · exact hdue id' hmem
  have hcallN : (system.subagents.emittedSpawns ++ callIds kept).Nodup := by
    rw [hcall]
    exact nodup_addNew h.callsNodup id
  have hressN : (system.subagents.resolvedSpawns ++ resultIds kept).Nodup := by
    rw [hress]
    split
    · exact nodup_addNew h.resultsNodup id
    · exact h.resultsNodup
  cases hbind with
  | none =>
    rw [append_nil]
    refine ⟨⟨h.ok.keyed, h.ok.bytes, h.ok.sized, h.ok.bound⟩, h.proper, ?_, ?_, ?_, ?_, hcallN, hressN, ?_, hkept, hallD⟩
    · intro child owner hown
      rw [childEvents_append, hnone, append_nil]
      exact h.owned _ _ hown
    · intro child hemp hroot hown
      rw [childEvents_append, hnone, append_nil]
      exact h.waiting _ hemp hroot hown
    · rw [callIds_append, h.calls]
    · rw [resultIds_append, h.results]
    · intro child owner hown
      exact mem_append_left _ (h.owners _ _ hown)
  | child child hc hr hown =>
    obtain ⟨hok, hbuf⟩ := h.ok.bind _ id
    have hspa : ∀ other, (system.subagents.boundTo child id).spawns other =
        if other = child then some id else system.subagents.spawns other := by
      intro other
      exact Function.update_apply ..
    rw [← append_assoc]
    refine ⟨⟨hok.keyed, hok.bytes, hok.sized, hok.bound⟩, ?_, ?_, ?_, ?_, ?_, hcallN, hressN, ?_, ?_, hallD⟩
    · constructor
      · exact (hspa "").trans ((if_neg (Ne.symm hc)).trans h.proper.1)
      · exact (hspa _).trans ((if_neg (Ne.symm hr)).trans h.proper.2)
    · intro other owner hoth
      have hoth : (if other = child then some id else system.subagents.spawns other) = some owner :=
        (hspa _).symm.trans hoth
      rw [childEvents_append, childEvents_append, hnone, append_nil, childEvents_tag]
      by_cases heq : other = child
      · subst heq
        rw [if_pos rfl] at hoth
        rw [if_pos rfl, ← some.inj hoth]
        cases hold : system.subagents.spawns _ with
        | none =>
          obtain ⟨hemp, hwait⟩ := h.waiting _ hc hr hold
          rw [hemp, hwait, nil_append]
        | some owner' =>
          have hsame : owner' = id := by
            rw [hold] at hown
            exact hown
          have hnoth : system.subagents.buffered other = [] := by
            unfold buffered
            rw [h.ok.bound _ _ hold]
            rfl
          rw [h.owned _ _ hold, hnoth, hsame, map_nil, append_nil]
      · rw [if_neg heq] at hoth
        rw [if_neg (Ne.symm heq), append_nil]
        exact h.owned _ _ hoth
    · intro other hemp hroot hoth
      have hoth : (if other = child then some id else system.subagents.spawns other) = none :=
        (hspa _).symm.trans hoth
      have hne : other ≠ child := by
        rintro rfl
        rw [if_pos rfl] at hoth
        nomatch hoth
      rw [if_neg hne] at hoth
      rw [childEvents_append, childEvents_append, hnone, append_nil, childEvents_tag, if_neg (Ne.symm hne), append_nil]
      obtain ⟨hnoth, hwait⟩ := h.waiting _ hemp hroot hoth
      exact ⟨hnoth, ((hbuf _).trans (if_neg hne)).trans hwait⟩
    · rw [callIds_append, callIds_append, callIds_tag, append_nil, h.calls]
    · rw [resultIds_append, resultIds_append, resultIds_tag, append_nil, h.results]
    · intro other owner hoth
      have hoth : (if other = child then some id else system.subagents.spawns other) = some owner :=
        (hspa _).symm.trans hoth
      by_cases heq : other = child
      · rw [if_pos heq] at hoth
        rw [← some.inj hoth, hcall, mem_addNew]
        exact .inr rfl
      · rw [if_neg heq] at hoth
        exact mem_append_left _ (h.owners _ _ hoth)
    · exact hkept.append (afterCalls_tag hid _)

theorem Binds.same {self after : Subagents E S} {id : String}
    (h : Binds self id after flushed) : after.emittedSpawns = self.emittedSpawns ∧ after.resolvedSpawns = self.resolvedSpawns := by
  cases h <;> exact ⟨rfl, rfl⟩

/-- What an item of the parent's keeps. -/
theorem Inv.parentItem (h : Inv mapping system) {phase : ItemPhase} {item : Value}
    (hitem : system.Permitted mapping (.parentItem phase item)) (hland : system.Settles (.parentItem phase item)) :
    Inv mapping (system.step mapping (.parentItem phase item)) := by
  unfold System.step
  dsimp only
  rcases system.subagents.parentItem_cases _ _ hitem with
    ⟨htar, heq⟩ | ⟨id, name, input, isError, after, flushed, htar, hname, hbind, heq⟩
  · rw [heq, htar]
    refine ⟨h.ok, h.proper, ?_, ?_, ?_, ?_, h.callsNodup, h.resultsNodup, h.owners, ?_, ?_⟩ <;> dsimp only
    · rw [append_nil]; exact h.owned
    · rw [append_nil]; exact h.waiting
    · rw [append_nil]; exact h.calls
    · rw [append_nil]; exact h.results
    · rw [append_nil]; exact h.afterCalls
    · intro id hid
      rcases mem_append.mp hid with hid | hid
      · exact h.due id hid
      · split at hid
        · rename_i hover
          obtain ⟨hmem, hemi⟩ := mem_filter.mp hid
          obtain rfl := mem_singleton.mp hmem
          rcases hland hover.1 hover.2 (by simpa using hemi) with hres | hown
          · exact hres
          · rw [htar] at hown
            nomatch hown
        · nomatch hid
  · obtain ⟨kept, hkeep, hcall, hress, hnone⟩ := after.keepFirst_lifecycle _ id name _ _ hname
    obtain ⟨hsame, hsame'⟩ := hbind.same
    rw [hsame] at hcall
    rw [hsame'] at hress
    rw [hsame, hsame', ← hcall, ← hress] at hkeep
    rw [heq, hkeep, htar]
    refine h.binds hbind _ _ hcall hress hnone ?_
    intro id' hid'
    split at hid'
    · rename_i hover
      rw [if_pos hover.1] at hress
      rw [hress, mem_addNew]
      obtain ⟨hmem, hemi⟩ := mem_filter.mp hid'
      rw [hcall, contains_iff_mem, mem_addNew] at hemi
      rw [toList_some, mem_cons, mem_singleton] at hmem
      rcases hmem with rfl | rfl
      · rcases hemi with hemi | hown
        · rcases hland hover.1 hover.2 hemi with hres | hown
          · exact .inl hres
          · rw [htar] at hown
            exact .inr (some.inj hown).symm
        · exact .inr hown
      · exact .inr rfl
    · nomatch hid'

theorem Inv.step (h : Inv mapping system) {action : Action} (hper : system.Permitted mapping action) (hset : system.Settles action) :
    Inv mapping (system.step mapping action) := by
  cases action with
  | notification child method params => exact h.notification hper
  | parentItem phase item => exact h.parentItem hper hset

/-- What is allowed where no call is left without its result. -/
def Settling (mapping : Mapping E S) (system : System E S) (action : Action) : Prop :=
  system.Permitted mapping action ∧ system.Settles action

theorem Inv.run {start : System E S} (h : Inv mapping start)
    (hrun : System.Run mapping (Settling mapping) start system) : Inv mapping system := by
  induction hrun with
  | refl => exact h
  | step _ halw ih => exact ih.step halw.1 halw.2

/-! ## Owners stay -/

theorem spawns_bufferAll (mapping : Mapping E S) (self : Subagents E S) (child : String) (events : List E) :
    (events.foldl (fun self event => self.buffer mapping child event) self).spawns = self.spawns := by
  induction events generalizing self with
  | nil => rfl
  | cons event events ih =>
    rw [foldl_cons, ih]
    unfold buffer
    dsimp only
    split <;> rfl

theorem spawns_route (mapping : Mapping E S) (self : Subagents E S) (child : String) (events : List E) :
    (self.route mapping child events).1.spawns = self.spawns := by
  unfold Subagents.route
  split
  · rfl
  · split
    · rfl
    · exact spawns_bufferAll _ self _ _

/-- A child's owner stays. -/
theorem owner_stays_step {action : Action} (hper : system.Permitted mapping action) (h : system.subagents.spawns child = some owner) :
    (system.step mapping action).subagents.spawns child = some owner := by
  cases action with
  | notification child' method params =>
    exact (congrFun (spawns_route _ _ _ _) _).trans h
  | parentItem phase item =>
    unfold System.step
    dsimp only
    rcases system.subagents.parentItem_cases _ _ hper with
      ⟨-, heq⟩ | ⟨id, name, input, isError, after, flushed, -, hname, hbind, heq⟩
    · rw [heq]
      exact h
    · obtain ⟨kept, hkeep, -⟩ := after.keepFirst_lifecycle _ id name _ _ hname
      rw [heq, hkeep]
      cases hbind with
      | none => exact h
      | child child' hc hr hown =>
        refine (Function.update_apply ..).trans ?_
        split
        · rename_i heq
          rw [← heq, h] at hown
          exact congrArg some hown.symm
        · exact h

theorem owner_stays {start : System E S} (hrun : System.Run mapping (Settling mapping) start system)
    (h : start.subagents.spawns child = some owner) :
    system.subagents.spawns child = some owner := by
  induction hrun with
  | refl => exact h
  | step _ halw ih => exact owner_stays_step halw.1 ih

/-! ## Subagent output -/

/-- Subagent output is neither lost nor duplicated nor misfiled, and a child's owner stays, in every run in which no spawn that is
over leaves its own call without a result. -/
theorem subagents_filed (mapping : Mapping E S) (root : String) {before after : System E S}
    (hbefore : System.Run mapping (Settling mapping) (System.new root) before)
    (hafter : System.Run mapping (Settling mapping) before after) :
    after.Filed mapping ∧
      ∀ child owner, before.subagents.spawns child = some owner → after.subagents.spawns child = some owner :=
  ⟨(((inv_new mapping root).run hbefore).run hafter).filed, fun _ _ h => owner_stays hafter h⟩

/-- Children that stream text: an event is a text. -/
def demoMapping : Mapping String Unit where
  start := ()
  map := fun _ _ method params =>
    ((), if method = "item/agentMessage/delta" then [strField params ["delta", "textDelta"]].filter fun text => !text.isEmpty
      else [])
  size := fun text => some (30 + Str.len text.toList)
  mapOther := fun _ _ => []

/-- The item of a call that spawns children. -/
def demoSpawn (id status : String) (receivers : List String) : Value :=
  .object [("type", .string "collabAgentToolCall"), ("id", .string id), ("tool", .string "spawnAgent"),
    ("status", .string status), ("receiverThreadIds", .array (receivers.map .string))]

/-- The item of an activity at the start of a child. -/
def demoActivity (id child : String) : Value :=
  .object [("type", .string "subAgentActivity"), ("id", .string id), ("kind", .string "started"),
    ("agentThreadId", .string child), ("agentPath", .string "/root/alpha")]

/-- A text of a child. -/
def demoDelta (child text : String) : Action :=
  .notification child "item/agentMessage/delta" (.object [("itemId", .string "m1"), ("delta", .string text)])

/-- A text comes before its child's call is over. -/
def demoFiled : List Action :=
  [.parentItem .started (demoSpawn "c1" "inProgress" []), demoDelta "alpha" "hi",
    .parentItem .completed (demoSpawn "c1" "completed" ["alpha"]), demoDelta "alpha" " there"]

def demoRun (actions : List Action) : System String Unit := actions.foldl (System.step demoMapping) (System.new "root")

theorem subagents_filed_demo :
    childEvents "alpha" (demoRun demoFiled).emitted = [("c1", "hi"), ("c1", " there")] ∧
      resultIds (demoRun demoFiled).emitted = ["c1"] := by
  have hrun : System.Run demoMapping (Settling demoMapping) (System.new "root") (demoRun demoFiled) := by
    refine System.Run.follow .refl ⟨⟨.inl ?_, nofun⟩, ⟨fun _ => ?_, trivial⟩, ⟨.inl ?_, fun _ _ _ => .inr ?_⟩,
      ⟨fun hnone => absurd hnone ?_, trivial⟩, trivial⟩ <;> decide +kernel
  have hfiled := (subagents_filed demoMapping "root" hrun .refl).1
  constructor
  · rw [hfiled.owned "alpha" "c1" (by decide +kernel)]
    decide +kernel
  · decide +kernel

/-- A call that names its child only when it is over, and an activity that has named the child before. -/
def demoLate : List Action :=
  [.parentItem .started (demoSpawn "c1" "inProgress" []), .parentItem .started (demoActivity "a1" "alpha"),
    .parentItem .completed (demoSpawn "c1" "completed" ["alpha"])]

/-- Not every call of a spawn that is over gets its result: the result goes to the owner of the child. -/
theorem call_unresolved :
    ¬∀ last : System String Unit, System.Run demoMapping (System.Permitted demoMapping) (System.new "root") last →
      last.Filed demoMapping := by
  intro h
  have hrun : System.Run demoMapping (System.Permitted demoMapping) (System.new "root") (demoRun demoLate) := by
    refine System.Run.follow .refl ⟨.inl ?_, .inr ?_, .inl ?_, trivial⟩ <;> decide +kernel
  have hmem := (h _ hrun).resolved "c1" (by decide +kernel)
  have hnot : "c1" ∉ resultIds (demoRun demoLate).emitted := by decide +kernel
  exact hnot hmem

end Wu.Codex.Subagents
