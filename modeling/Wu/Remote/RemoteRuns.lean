import Wu.Remote.RemoteClient
import Wu.Runs

/-!
# A client is not stuck with a dead proxy

In every run whose moves are careful, the proxy of a connected client is watched. So its end is still to be reported when no task can
make a further step, attempts to reconnect are few and made one at a time, and a final state is not left.
-/

namespace Wu.Remote

open List Function Option State

/-- The attempt holds the monitor of a proxy. -/
def Reconnect.Watches (reconnect : Reconnect) (remoteConnection : Nat) : Prop :=
  reconnect.remoteConnection = remoteConnection ∧ (reconnect.stage = .resyncing ∨ reconnect.stage = .resynced)

/-- The attempt holds a heartbeat task. -/
def Reconnect.Beats (reconnect : Reconnect) (remoteConnection : Nat) : Prop :=
  reconnect.remoteConnection = remoteConnection ∧ reconnect.stage = .resynced

theorem Reconnect.newState_of_beats {reconnect : Reconnect} {remoteConnection : Nat} (h : reconnect.Beats remoteConnection) :
    reconnect.newState = some (.connected remoteConnection) := by
  unfold Reconnect.newState
  rw [h.2, ← h.1]

theorem State.tasks_heartbeatMissedOnce (state : State) : state.heartbeatMissedOnce.tasks = state.tasks := by cases state <;> rfl

theorem State.tasks_heartbeatRecovered (state : State) : state.heartbeatRecovered.tasks = state.tasks := by cases state <;> rfl

theorem State.heartbeatMissedOnce_of_tasks {state : State} (h : state.tasks = none) : state.heartbeatMissedOnce = state := by
  cases state <;> first | rfl | nomatch h

theorem State.heartbeatRecovered_of_tasks {state : State} (h : state.tasks = none) : state.heartbeatRecovered = state := by
  cases state <;> first | rfl | nomatch h

namespace RemoteClient

variable {client : RemoteClient}

/-- The connection whose tasks the state holds. -/
def held (client : RemoteClient) : Option Nat := client.state.bind State.tasks

/-- The monitor of a connection is held by the state, by an attempt, by a shutdown, or by the setup. -/
def Watches (client : RemoteClient) (remoteConnection : Nat) : Prop :=
  client.held = some remoteConnection ∨ (∃ reconnect ∈ client.reconnects, reconnect.Watches remoteConnection) ∨
    remoteConnection ∈ client.shutdowns ∨ client.setup = .pinging ∧ remoteConnection = 0

def Beats (client : RemoteClient) (remoteConnection : Nat) : Prop :=
  client.held = some remoteConnection ∨ (∃ reconnect ∈ client.reconnects, reconnect.Beats remoteConnection) ∨
    remoteConnection ∈ client.shutdowns

/-- A state that is only left for a shutdown, a setup or the end of an attempt. -/
def Quiet (client : RemoteClient) : Prop := client.state = none ∨ client.state = some .serverNotRunning

/-- What holds of the tasks and the state. -/
structure Tasks (client : RemoteClient) : Prop where
  started : ∀ remoteConnection, client.monitors remoteConnection = true → client.proxies remoteConnection ≠ .unstarted
  first : client.proxies 0 ≠ .unstarted
  fresh : client.held ≠ none → client.attemptsMade = 0
  counted : ∀ reconnect ∈ client.reconnects, reconnect.attempts = client.attemptsMade
  bounded : client.attemptsMade ≤ maxReconnectAttempts
  single : client.reconnects.length ≤ 1
  during : client.reconnects ≠ [] → client.state = some .reconnecting ∨ client.Quiet
  notFailed : ∀ remoteConnection attempts, client.state ≠ some (.reconnectFailed remoteConnection attempts)
  settingUp : client.setup ≠ .finished → client.reconnects = [] ∧ client.shutdowns = [] ∧
    (client.state = some .connecting ∨ client.state = none ∨
      client.setup = .pinging ∧ client.state = some .serverNotRunning ∧ client.monitors 0 = false)
  watched : ∀ remoteConnection, client.monitors remoteConnection = true → client.Watches remoteConnection
  beating : ∀ remoteConnection, client.heartbeats remoteConnection ≠ none → client.Beats remoteConnection
  kept : client.shutdowns ≠ [] → client.Quiet
  notCrashed : client.crashed = false

/-- The proxy of a connected client is watched. -/
structure Sound (client : RemoteClient) : Prop extends Tasks client where
  held_monitors : ∀ remoteConnection, client.held = some remoteConnection → client.monitors remoteConnection = true

theorem Tasks.sound (h : Tasks client) (hheld : client.held = none) : Sound client where
  toTasks := h
  held_monitors := by
    intro remoteConnection hsome
    rw [hheld] at hsome
    nomatch hsome

theorem sound_new : Sound new := by
  refine Tasks.sound ⟨nofun, ?_, fun h => absurd rfl h, nofun, Nat.zero_le _, Nat.zero_le _, fun h => absurd rfl h, nofun,
    fun _ => ⟨rfl, rfl, .inl rfl⟩, nofun, fun _ h => absurd rfl h, fun h => absurd rfl h, rfl⟩ rfl
  intro h
  nomatch h

/-! ### Tasks that end -/

variable {found remoteConnection attempts : Nat} {state : State} {result : Option Int} {move : Move}

theorem update_false {f : Nat → Bool} {key : Nat} (h : Function.update f key false found = true) : found ≠ key ∧ f found = true := by
  rcases eq_or_ne found key with rfl | hne
  · rw [update_self] at h
    nomatch h
  · rw [update_of_ne hne] at h
    exact ⟨hne, h⟩

theorem update_none {f : Nat → Option Nat} {key : Nat} (h : Function.update f key none found ≠ none) :
    found ≠ key ∧ f found ≠ none := by
  rcases eq_or_ne found key with rfl | hne
  · rw [update_self] at h
    exact absurd rfl h
  · rw [update_of_ne hne] at h
    exact ⟨hne, h⟩

theorem Tasks.monitorOver (h : Tasks client) (remoteConnection : Nat) :
    Tasks { client with monitors := Function.update client.monitors remoteConnection false } :=
  { h with
    started := fun found hfnd => h.started _ (update_false hfnd).2
    watched := fun found hfnd => h.watched _ (update_false hfnd).2
    settingUp := by
      intro hset
      obtain ⟨hrecon, hshu, hsta⟩ := h.settingUp hset
      refine ⟨hrecon, hshu, hsta.imp_right fun hsta => hsta.imp_right ?_⟩
      rintro ⟨hping, hsta, hzero⟩
      refine ⟨hping, hsta, ?_⟩
      cases hover : Function.update client.monitors _ _ 0 with
      | false => exact hover
      | true =>
        rw [(update_false hover).2] at hzero
        nomatch hzero }

theorem Tasks.beatOver (h : Tasks client) (remoteConnection : Nat) :
    Tasks { client with heartbeats := Function.update client.heartbeats remoteConnection none } :=
  { h with beating := fun found hfnd => h.beating found (update_none hfnd).2 }

theorem Tasks.dropTasks (h : Tasks client) (remoteConnection : Nat) : Tasks (client.dropTasks remoteConnection) :=
  (h.monitorOver _).beatOver _

/-! ### Another state -/

/-- The state is replaced by one that holds no tasks, when the tasks of the old one are over. -/
theorem Tasks.replace (h : Tasks client) {state : Option State} (hover : ∀ remoteConnection, client.held = some remoteConnection →
      client.monitors remoteConnection = false ∧ client.heartbeats remoteConnection = none)
    (htask : state.bind State.tasks = none)
    (hdur : client.reconnects ≠ [] → state = some .reconnecting ∨ state = none ∨ state = some .serverNotRunning)
    (hfail : ∀ remoteConnection attempts, state ≠ some (.reconnectFailed remoteConnection attempts))
    (hsettU : client.setup ≠ .finished → state = some .connecting ∨ state = none ∨
      client.setup = .pinging ∧ state = some .serverNotRunning ∧ client.monitors 0 = false)
    (hkept : client.shutdowns ≠ [] → state = none ∨ state = some .serverNotRunning) :
    Tasks { client with state } :=
  { h with
    fresh := fun hheld => absurd htask hheld
    during := hdur
    notFailed := hfail
    settingUp := fun hset => ⟨(h.settingUp hset).1, (h.settingUp hset).2.1, hsettU hset⟩
    watched := by
      intro remoteConnection hmon
      rcases h.watched _ hmon with hheld | hwat
      · rw [(hover _ hheld).1] at hmon
        nomatch hmon
      · exact .inr hwat
    beating := by
      intro remoteConnection hbeat
      rcases h.beating _ hbeat with hheld | hbea
      · exact absurd (hover _ hheld).2 hbeat
      · exact .inr hbea
    kept := hkept }

/-- The tasks of the state are dropped. -/
theorem dropState_held (hheld : client.held = some remoteConnection) :
    client.dropState client.state = client.dropTasks remoteConnection := by
  unfold held at hheld
  unfold dropState
  rw [hheld]

theorem dropState_none {state : Option State} (hheld : state.bind State.tasks = none) : client.dropState state = client := by
  unfold dropState
  rw [hheld]

theorem Tasks.dropState (h : Tasks client) (state : Option State) : Tasks (client.dropState state) := by
  unfold RemoteClient.dropState
  split
  · exact h.dropTasks _
  · exact h

theorem dropTasks_over (client : RemoteClient) (remoteConnection : Nat) :
    (client.dropTasks remoteConnection).monitors remoteConnection = false ∧
      (client.dropTasks remoteConnection).heartbeats remoteConnection = none :=
  ⟨update_self .., update_self ..⟩

theorem dropState_state (client : RemoteClient) (state : Option State) : (client.dropState state).state = client.state := by
  unfold dropState
  split <;> rfl

/-- The tasks of a dropped state are over. -/
theorem dropState_over (hheld : (client.dropState client.state).held = some remoteConnection) :
    (client.dropState client.state).monitors remoteConnection = false ∧
      (client.dropState client.state).heartbeats remoteConnection = none := by
  unfold held at hheld
  rw [dropState_state] at hheld
  rw [dropState_held hheld]
  exact client.dropTasks_over _

theorem Tasks.empty (h : Tasks client) : Tasks { client.dropState client.state with state := none } :=
  (h.dropState _).replace (fun _ => dropState_over) rfl (fun _ => .inr (.inl rfl)) nofun (fun _ => .inr (.inl rfl)) fun _ => .inl rfl

/-- The server is not running. -/
theorem Tasks.serverNotRunning (h : Tasks client)
    (hsettU : client.setup ≠ .finished → client.setup = .pinging ∧ client.monitors 0 = false) :
    Sound (client.setState .serverNotRunning) := by
  refine ((h.dropState _).replace (fun _ => dropState_over) rfl (fun _ => .inr (.inr rfl)) nofun ?_ fun _ => .inr rfl).sound rfl
  unfold RemoteClient.dropState
  split
  · intro hset
    obtain ⟨hping, hmon⟩ := hsettU hset
    refine .inr (.inr ⟨hping, rfl, ?_⟩)
    cases hover : (client.dropTasks _).monitors 0 with
    | false => rfl
    | true =>
      rw [(update_false hover).2] at hmon
      nomatch hmon
  · intro hset
    obtain ⟨hping, hmon⟩ := hsettU hset
    exact .inr (.inr ⟨hping, rfl, hmon⟩)

/-! ### Attempts to reconnect -/

/-- An attempt starts when nothing is under way. -/
theorem Tasks.startAttempt (h : Tasks client) (hsta : client.state = none) (hrecon : client.reconnects = [])
    (hshu : client.shutdowns = []) (hset : client.setup = .finished) (hatt : client.attemptsMade = attempts)
    (remoteConnection : Nat) : Sound (client.startAttempt attempts remoteConnection) := by
  have hnone : client.held = none := by
    unfold held
    rw [hsta]
    rfl
  unfold RemoteClient.startAttempt setState
  rw [hsta]
  split
  · refine (h.replace ?_ rfl (fun hne => absurd hrecon hne) ?_ (fun hne => absurd hset hne) fun hne => absurd hshu hne).sound rfl
    · intro _ hheld
      rw [hnone] at hheld
      nomatch hheld
    · nofun
  · rename_i hfew
    refine Tasks.sound ?_ rfl
    rw [hrecon]
    exact { h with
      fresh := fun hheld => absurd rfl hheld
      counted := by
        intro reconnect hmem
        rw [mem_singleton.mp hmem, hatt]
      bounded := by
        rw [hatt]
        exact Nat.le_of_not_gt hfew
      single := Nat.le_refl 1
      during := fun _ => .inl rfl
      notFailed := nofun
      settingUp := fun hne => absurd hset hne
      watched := by
        intro found hmon
        rcases h.watched _ hmon with hheld | ⟨reconnect, hmem, -⟩ | hrest
        · rw [hnone] at hheld
          nomatch hheld
        · rw [hrecon] at hmem
          nomatch hmem
        · exact .inr (.inr hrest)
      beating := by
        intro found hbeat
        rcases h.beating _ hbeat with hheld | ⟨reconnect, hmem, -⟩ | hrest
        · rw [hnone] at hheld
          nomatch hheld
        · rw [hrecon] at hmem
          nomatch hmem
        · exact .inr (.inr hrest)
      kept := fun hne => absurd hshu hne }

theorem tryReconnect_held (hheld : client.held = some remoteConnection) :
    client.tryReconnect = ({ client with state := none }.dropTasks remoteConnection).startAttempt 0 remoteConnection := by
  unfold held at hheld
  unfold tryReconnect reconnect
  cases hsta : client.state with
  | none => rw [hsta] at hheld; nomatch hheld
  | some state =>
    rw [hsta] at hheld
    cases state with
    | connected found => obtain rfl := some.inj hheld; rfl
    | heartbeatMissed _ found => obtain rfl := some.inj hheld; rfl
    | connecting | reconnecting | reconnectFailed | reconnectExhausted | serverNotRunning => nomatch hheld

/-- The call is ignored. -/
theorem tryReconnect_ignored (hsta : ∀ state, client.state = some state → state.canReconnect = false) :
    client.tryReconnect = client := by
  unfold tryReconnect reconnect
  split
  · rename_i after haft
    split at haft
    · nomatch haft
    · rename_i state hsome
      rw [if_neg (by rw [hsta _ hsome]; exact Bool.false_ne_true)] at haft
      nomatch haft
  · rfl

section

variable (h : Tasks client)
include h

/-- When the state holds tasks, nothing else is under way. -/
theorem Tasks.alone (hheld : client.held = some remoteConnection) :
    client.reconnects = [] ∧ client.shutdowns = [] ∧ client.setup = .finished ∧ client.attemptsMade = 0 := by
  have hnot : ∀ state, client.state = state → state.bind State.tasks = some remoteConnection := by
    rintro - rfl
    exact hheld
  refine ⟨?_, ?_, ?_, h.fresh (by rw [hheld]; exact some_ne_none _)⟩
  · by_contra hne
    rcases h.during hne with hsta | hsta | hsta <;> nomatch hnot _ hsta
  · by_contra hne
    rcases h.kept hne with hsta | hsta <;> nomatch hnot _ hsta
  · by_contra hne
    rcases (h.settingUp hne).2.2 with hsta | hsta | ⟨-, hsta, -⟩ <;> nomatch hnot _ hsta

/-- Whatever the state is, `reconnect` keeps the client sound. -/
theorem Tasks.tryReconnect : Sound client.tryReconnect := by
  cases hheld : client.held with
  | some remoteConnection =>
    obtain ⟨hrecon, hshu, hset, hatt⟩ := h.alone hheld
    have hemp := h.empty
    rw [dropState_held hheld] at hemp
    rw [tryReconnect_held hheld]
    exact Tasks.startAttempt hemp rfl hrecon hshu hset hatt _
  | none =>
    rw [tryReconnect_ignored]
    · exact h.sound hheld
    · intro state hsta
      unfold held at hheld
      rw [hsta] at hheld
      cases state with
      | connected | heartbeatMissed => nomatch hheld
      | reconnectFailed remoteConnection attempts => exact absurd hsta (h.notFailed _ _)
      | connecting | reconnecting | reconnectExhausted | serverNotRunning => rfl

/-- While an attempt is under way, the state holds no tasks. -/
theorem Tasks.held_none {reconnect : Reconnect} (hmem : reconnect ∈ client.reconnects) : client.held = none := by
  cases hheld : client.held with
  | none => rfl
  | some remoteConnection =>
    rw [(h.alone hheld).1] at hmem
    nomatch hmem

theorem Tasks.reconnects_eq {reconnect : Reconnect} (hmem : reconnect ∈ client.reconnects) : client.reconnects = [reconnect] := by
  have hsin := h.single
  cases hrecon : client.reconnects with
  | nil =>
    rw [hrecon] at hmem
    nomatch hmem
  | cons first rest =>
    rw [hrecon] at hmem hsin
    obtain rfl : rest = [] := length_eq_zero_iff.mp (Nat.le_zero.mp (Nat.le_of_succ_le_succ hsin))
    rw [mem_singleton.mp hmem]

/-- An attempt gets further, with the tasks it holds. -/
theorem Tasks.advance {reconnect after : Reconnect} (hmem : reconnect ∈ client.reconnects)
    (hatt : after.attempts = reconnect.attempts)
    (hwatc : ∀ remoteConnection, client.monitors remoteConnection = true → reconnect.Watches remoteConnection →
      after.Watches remoteConnection)
    (hbea : ∀ remoteConnection, client.heartbeats remoteConnection ≠ none → reconnect.Beats remoteConnection →
      after.Beats remoteConnection) : Tasks (client.advance reconnect after) := by
  have hrecon := h.reconnects_eq hmem
  unfold RemoteClient.advance
  rw [hrecon, erase_cons_head]
  exact { h with
    counted := by
      intro found hfnd
      rw [mem_singleton.mp hfnd, hatt]
      exact h.counted _ hmem
    single := Nat.le_refl 1
    during := fun _ => h.during (ne_nil_of_mem hmem)
    settingUp := by
      intro hset
      rw [(h.settingUp hset).1] at hmem
      nomatch hmem
    watched := by
      intro found hmon
      rcases h.watched _ hmon with hheld | ⟨other, hoth, hwat⟩ | hrest
      · exact .inl hheld
      · rw [hrecon, mem_singleton] at hoth
        rw [hoth] at hwat
        exact .inr (.inl ⟨after, .head _, hwatc _ hmon hwat⟩)
      · exact .inr (.inr hrest)
    beating := by
      intro found hhea
      rcases h.beating _ hhea with hheld | ⟨other, hoth, hbeat⟩ | hrest
      · exact .inl hheld
      · rw [hrecon, mem_singleton] at hoth
        rw [hoth] at hbeat
        exact .inr (.inl ⟨after, .head _, hbea _ hhea hbeat⟩)
      · exact .inr (.inr hrest) }

/-- An attempt is over, with the tasks it held. -/
theorem Tasks.forget {reconnect : Reconnect} (hmem : reconnect ∈ client.reconnects)
    (hwatc : ∀ remoteConnection, reconnect.Watches remoteConnection → client.monitors remoteConnection = false)
    (hbea : ∀ remoteConnection, reconnect.Beats remoteConnection → client.heartbeats remoteConnection = none) :
    Tasks { client with reconnects := client.reconnects.erase reconnect } := by
  have hrecon := h.reconnects_eq hmem
  rw [hrecon, erase_cons_head]
  exact { h with
    counted := nofun
    single := Nat.zero_le 1
    during := fun hne => absurd rfl hne
    settingUp := fun hset => ⟨rfl, (h.settingUp hset).2⟩
    watched := by
      intro found hmon
      rcases h.watched _ hmon with hheld | ⟨other, hoth, hwat⟩ | hrest
      · exact .inl hheld
      · rw [hrecon, mem_singleton] at hoth
        rw [hoth] at hwat
        rw [hwatc _ hwat] at hmon
        nomatch hmon
      · exact .inr (.inr hrest)
    beating := by
      intro found hhea
      rcases h.beating _ hhea with hheld | ⟨other, hoth, hbeat⟩ | hrest
      · exact .inl hheld
      · rw [hrecon, mem_singleton] at hoth
        rw [hoth] at hbeat
        exact absurd (hbea _ hbeat) hhea
      · exact .inr (.inr hrest) }

end

theorem not_watches {reconnect : Reconnect} (hres : reconnect.stage ≠ .resyncing)
    (hresy : reconnect.stage ≠ .resynced) : ¬ reconnect.Watches remoteConnection :=
  fun h => h.2.elim hres hresy

theorem not_beats {reconnect : Reconnect} (hres : reconnect.stage ≠ .resynced) : ¬ reconnect.Beats remoteConnection :=
  fun h => hres h.2

section

variable {reconnect : Reconnect} (h : Tasks client) (hmem : reconnect ∈ client.reconnects)
include h hmem

/-- An attempt that holds no tasks gets further. -/
theorem Tasks.advance_free {after : Reconnect} (hatt : after.attempts = reconnect.attempts) (hresy : reconnect.stage ≠ .resyncing)
    (hres : reconnect.stage ≠ .resynced) : Tasks (client.advance reconnect after) :=
  h.advance hmem hatt (fun _ _ hwat => absurd hwat (not_watches hresy hres)) fun _ _ hbeat => absurd hbeat (not_beats hres)

theorem Tasks.stage (hres : reconnect.stage ≠ .resyncing) (hresy : reconnect.stage ≠ .resynced) (stage : ReconnectStage) :
    Sound (client.advance reconnect { reconnect with stage }) := by
  refine Tasks.sound ?_ (h.held_none hmem)
  exact h.advance_free hmem rfl hres hresy

theorem Tasks.startProxy (hstg : reconnect.stage = .connecting) : Tasks (client.startProxy reconnect) := by
  have hadv : Tasks (client.advance reconnect
      { reconnect with remoteConnection := client.nextConnection, stage := .resyncing }) :=
    h.advance_free hmem rfl (by rw [hstg]; nofun) (by rw [hstg]; nofun)
  have hpro : ∀ found, client.proxies found ≠ .unstarted →
      Function.update client.proxies client.nextConnection .running found ≠ .unstarted := by
    intro found hfnd
    rcases eq_or_ne found client.nextConnection with rfl | hne
    · rw [update_self]
      nofun
    · rwa [update_of_ne hne]
  exact { hadv with
    started := by
      intro found hmon
      rcases eq_or_ne found client.nextConnection with rfl | hne
      · change Function.update client.proxies client.nextConnection .running client.nextConnection ≠ .unstarted
        rw [update_self]
        nofun
      · exact hpro _ (h.started _ ((update_of_ne hne ..).symm.trans hmon))
    first := hpro 0 h.first
    settingUp := by
      intro hset
      rw [(h.settingUp hset).1] at hmem
      nomatch hmem
    watched := by
      intro found hmon
      rcases eq_or_ne found client.nextConnection with rfl | hne
      · exact .inr (.inl ⟨_, mem_append_right _ (.head _), rfl, .inl rfl⟩)
      · exact hadv.watched _ ((update_of_ne hne ..).symm.trans hmon) }

theorem Tasks.resynced (hstg : reconnect.stage = .resyncing) : Tasks (client.apply (.resynced reconnect)) := by
  have hadv : Tasks (client.advance reconnect { reconnect with stage := .resynced }) :=
    h.advance hmem rfl (fun _ _ hwat => ⟨hwat.1, .inr rfl⟩) fun _ _ hbea => absurd hbea (not_beats (by rw [hstg]; nofun))
  exact { hadv with
    beating := by
      intro found hbeat
      rcases eq_or_ne found reconnect.remoteConnection with rfl | hne
      · exact .inr (.inl ⟨_, mem_append_right _ (.head _), rfl, rfl⟩)
      · refine hadv.beating _ fun hnone => hbeat ?_
        exact (update_of_ne hne ..).trans hnone }

theorem Tasks.resyncFails : Tasks (client.apply (.resyncFails reconnect)) := by
  refine (h.dropTasks _).advance hmem rfl ?_ ?_
  · intro found hmon hwat
    exact absurd hwat.1.symm (update_false hmon).1
  · intro found hbeat hbea
    exact absurd hbea.1.symm (update_none hbeat).1

end

/-! ### The result of an attempt -/

theorem newState_cases {reconnect : Reconnect} {newState : State} (h : reconnect.newState = some newState) :
    reconnect.stage = .resynced ∧ newState = .connected reconnect.remoteConnection ∨
      reconnect.stage = .failed ∧ newState = .reconnectFailed reconnect.remoteConnection reconnect.attempts := by
  unfold Reconnect.newState at h
  split at h
  · rename_i hstg
    exact .inr ⟨hstg, (some.inj h).symm⟩
  · rename_i hstg
    exact .inl ⟨hstg, (some.inj h).symm⟩
  · nomatch h

theorem any_isReconnecting {state : Option State} : state.any State.isReconnecting = true ↔ state = some .reconnecting := by
  cases state with
  | none => exact ⟨nofun, nofun⟩
  | some state => cases state <;> simp [State.isReconnecting]

theorem Tasks.any_isReconnectFailed (h : Tasks client) : client.state.any State.isReconnectFailed = false := by
  have hfail := h.notFailed
  cases hsta : client.state with
  | none => rfl
  | some state =>
    cases state with
    | reconnectFailed remoteConnection attempts => exact absurd hsta (hfail _ _)
    | connecting | connected | heartbeatMissed | reconnecting | reconnectExhausted | serverNotRunning => rfl

/-- The result is dropped when the client does not reconnect any more. -/
theorem settle_dropped {reconnect : Reconnect} {newState : State} (h : Tasks client) (hsta : client.state ≠ some .reconnecting) :
    client.settle reconnect newState =
      ({ client with reconnects := client.reconnects.erase reconnect }).dropState (some newState) := by
  unfold settle
  dsimp only
  rw [if_neg (fun hany => hsta (any_isReconnecting.mp hany)), dropState_state,
    if_neg (by rw [h.any_isReconnectFailed]; exact Bool.false_ne_true)]

theorem settle_taken {reconnect : Reconnect} {newState : State} (hsta : client.state = some .reconnecting) :
    client.settle reconnect newState =
      let after := { client with
        reconnects := client.reconnects.erase reconnect
        state := some newState
        attemptsMade := if newState.tasks.isSome then 0 else client.attemptsMade }
      if newState.isReconnectFailed then after.tryReconnect else after := by
  unfold settle
  dsimp only
  rw [if_pos (any_isReconnecting.mpr hsta)]
  rfl

theorem Tasks.settle_failed (h : Tasks client) {reconnect : Reconnect} (hmem : reconnect ∈ client.reconnects)
    (hstg : reconnect.stage = .failed) (hsta : client.state = some .reconnecting) :
    Sound (client.settle reconnect (.reconnectFailed reconnect.remoteConnection reconnect.attempts)) := by
  have hfor := h.forget hmem (fun _ hwat => absurd hwat (not_watches (by rw [hstg]; nofun) (by rw [hstg]; nofun)))
    fun _ hbeat => absurd hbeat (not_beats (by rw [hstg]; nofun))
  have hemp := hfor.empty
  rw [dropState_none (h.held_none hmem)] at hemp
  rw [settle_taken hsta]
  refine Tasks.startAttempt hemp rfl ?_ ?_ ?_ (h.counted _ hmem).symm _
  · change client.reconnects.erase reconnect = []
    rw [h.reconnects_eq hmem, erase_cons_head]
  · change client.shutdowns = []
    by_contra hne
    rcases h.kept hne with hqui | hqui <;> rw [hqui] at hsta <;> nomatch hsta
  · by_contra hne
    rw [(h.settingUp hne).1] at hmem
    nomatch hmem

/-- A connection whose proxy is still watched is taken over. -/
theorem Tasks.settle_connected (h : Tasks client) {reconnect : Reconnect} (hmem : reconnect ∈ client.reconnects)
    (hsta : client.state = some .reconnecting)
    (hmon : client.monitors reconnect.remoteConnection = true) :
    Sound (client.settle reconnect (.connected reconnect.remoteConnection)) := by
  have hrecon := h.reconnects_eq hmem
  have hshu : client.shutdowns = [] := by
    by_contra hne
    rcases h.kept hne with hqui | hqui <;> rw [hqui] at hsta <;> nomatch hsta
  have hset : client.setup = .finished := by
    by_contra hne
    rw [(h.settingUp hne).1] at hmem
    nomatch hmem
  rw [settle_taken hsta]
  rw [if_neg (show ¬ State.isReconnectFailed (.connected _) = true from nofun),
    if_pos (show (State.connected reconnect.remoteConnection).tasks.isSome = true from rfl), hrecon, erase_cons_head]
  exact { h with
    fresh := fun _ => rfl
    counted := nofun
    bounded := Nat.zero_le _
    single := Nat.zero_le _
    during := fun hne => absurd rfl hne
    notFailed := nofun
    settingUp := fun hne => absurd hset hne
    watched := by
      intro found hfnd
      rcases h.watched _ hfnd with hheld | ⟨other, hoth, hwat⟩ | hrest
      · rw [h.held_none hmem] at hheld
        nomatch hheld
      · rw [hrecon, mem_singleton] at hoth
        rw [hoth] at hwat
        exact .inl (congrArg some hwat.1)
      · exact .inr (.inr hrest)
    beating := by
      intro found hfnd
      rcases h.beating _ hfnd with hheld | ⟨other, hoth, hbeat⟩ | hrest
      · rw [h.held_none hmem] at hheld
        nomatch hheld
      · rw [hrecon, mem_singleton] at hoth
        rw [hoth] at hbeat
        exact .inl (congrArg some hbeat.1)
      · exact .inr (.inr hrest)
    kept := fun hne => absurd hshu hne
    held_monitors := by
      intro found hheld
      obtain rfl := some.inj hheld
      exact hmon }

theorem Sound.settle (h : Sound client) {reconnect : Reconnect} {newState : State} (halw : client.Allowed (.settle reconnect newState))
    (hcare : client.Careful (.settle reconnect newState)) : Sound (client.settle reconnect newState) := by
  obtain ⟨hmem, hnew⟩ := halw
  by_cases hsta : client.state = some .reconnecting
  · rcases newState_cases hnew with ⟨-, rfl⟩ | ⟨hstg, rfl⟩
    · exact h.settle_connected hmem hsta (hcare hsta _ rfl)
    · exact h.settle_failed hmem hstg hsta
  · have hheld := h.held_none hmem
    rw [settle_dropped h.toTasks hsta]
    rcases newState_cases hnew with ⟨-, rfl⟩ | ⟨hstg, rfl⟩
    · refine Tasks.sound ?_ hheld
      refine (h.dropTasks _).forget hmem ?_ ?_
      · rintro - ⟨rfl, -⟩
        exact update_self ..
      · rintro - ⟨rfl, -⟩
        exact update_self ..
    · refine Tasks.sound ?_ hheld
      exact h.forget hmem (fun _ hwat => absurd hwat (not_watches (by rw [hstg]; nofun) (by rw [hstg]; nofun)))
        fun _ hbeat => absurd hbeat (not_beats (by rw [hstg]; nofun))

/-! ### Heartbeats -/

/-- A heartbeat changes the state, but not the tasks it holds. -/
theorem Sound.hold (h : Sound client) {after : State} (hstat : client.state = some state)
    (htask : after.tasks = state.tasks) (hsame : state.tasks = none → after = state) :
    Sound { client with state := some after } := by
  cases hsta : state.tasks with
  | none =>
    rw [hsame hsta, ← hstat]
    exact h
  | some remoteConnection =>
    have hheld : client.held = some remoteConnection := by
      unfold held
      rw [hstat]
      exact hsta
    have haft : held { client with state := some after } = client.held := by
      rw [hheld]
      exact htask.trans hsta
    obtain ⟨hrecon, hshu, hset, hatt⟩ := h.alone hheld
    exact { h with
      fresh := fun _ => hatt
      during := fun hne => absurd hrecon hne
      notFailed := by
        rintro found attempts heq
        rw [hsta, some.inj heq] at htask
        nomatch htask
      settingUp := fun hne => absurd hset hne
      watched := by
        intro found hmon
        unfold Watches
        rw [haft]
        exact h.watched _ hmon
      beating := by
        intro found hbeat
        unfold Beats
        rw [haft]
        exact h.beating _ hbeat
      kept := fun hne => absurd hshu hne
      held_monitors := by
        intro found hfnd
        rw [haft] at hfnd
        exact h.held_monitors _ hfnd }

theorem Sound.beatOver (h : Sound client) (remoteConnection : Nat) :
    Sound { client with heartbeats := Function.update client.heartbeats remoteConnection none } :=
  { h.toTasks.beatOver _ with held_monitors := h.held_monitors }

theorem Sound.beats (h : Sound client) (hbea : client.Beats remoteConnection) (missedHeartbeats : Nat) :
    Sound { client with heartbeats := Function.update client.heartbeats remoteConnection (some missedHeartbeats) } :=
  { h with
    beating := by
      intro found hbeat
      rcases eq_or_ne found remoteConnection with rfl | hne
      · exact hbea
      · exact h.beating _ fun hnone => hbeat ((update_of_ne hne ..).trans hnone) }

theorem Sound.handleHeartbeatResult (h : Sound client) (missedHeartbeats : Nat) (hsta : client.state ≠ none) :
    Sound (client.handleHeartbeatResult missedHeartbeats).1 := by
  unfold RemoteClient.handleHeartbeatResult
  split
  · exact absurd ‹_› hsta
  · rename_i state hsome
    have hnext : Sound ({ client with state := none }.setState
        (if missedHeartbeats > 0 then state.heartbeatMissedOnce else state.heartbeatRecovered)) := by
      split
      · exact h.hold hsome state.tasks_heartbeatMissedOnce heartbeatMissedOnce_of_tasks
      · exact h.hold hsome state.tasks_heartbeatRecovered heartbeatRecovered_of_tasks
    dsimp only
    split
    · exact hnext.tryReconnect
    · exact hnext

theorem Sound.beat (h : Sound client) (hbeat : client.Beats remoteConnection) (missedHeartbeats : Nat)
    (hsta : client.state ≠ none) : Sound (client.beat remoteConnection missedHeartbeats) := by
  have hhan := (h.beats hbeat missedHeartbeats).handleHeartbeatResult missedHeartbeats hsta
  unfold RemoteClient.beat
  dsimp only
  split
  · exact hhan.beatOver _
  · exact hhan

/-- A heartbeat that is not left behind by a shutdown finds a state. -/
theorem Tasks.beats_state (h : Tasks client) (hbeat : client.heartbeats remoteConnection ≠ none)
    (hcare : client.state = none → remoteConnection ∉ client.shutdowns ∧
      ∀ reconnect ∈ client.reconnects, reconnect.newState ≠ some (.connected remoteConnection)) : client.state ≠ none := by
  intro hsta
  obtain ⟨hshu, hrecon⟩ := hcare hsta
  rcases h.beating _ hbeat with hheld | ⟨reconnect, hmem, hbea⟩ | hkept
  · unfold held at hheld
    rw [hsta] at hheld
    nomatch hheld
  · exact hrecon _ hmem (Reconnect.newState_of_beats hbea)
  · exact hshu hkept

/-! ### The end of a proxy -/

/-- While the connection is set up, the only monitor is that of the first proxy. -/
theorem Tasks.monitors_settingUp (h : Tasks client) (hset : client.setup ≠ .finished)
    (hmon : client.monitors remoteConnection = true) : client.setup = .pinging ∧ remoteConnection = 0 := by
  obtain ⟨hrecon, hshu, -⟩ := h.settingUp hset
  rcases h.watched _ hmon with hheld | ⟨reconnect, hmem, -⟩ | hkept | hping
  · have hnot := (h.alone hheld).2.2.1
    exact absurd hnot hset
  · rw [hrecon] at hmem
    nomatch hmem
  · rw [hshu] at hkept
    nomatch hkept
  · exact hping

theorem Sound.monitor (h : Sound client)
    (hmon : client.monitors remoteConnection = true) : Sound (client.monitor remoteConnection result) := by
  have hover := h.toTasks.monitorOver remoteConnection
  unfold RemoteClient.monitor
  split
  · refine hover.serverNotRunning fun hset => ?_
    obtain ⟨hping, rfl⟩ := h.monitors_settingUp hset hmon
    refine ⟨hping, ?_⟩
    change Function.update client.monitors 0 false 0 = false
    exact update_self ..
  · exact hover.tryReconnect

/-! ### Steps -/

theorem Sound.setupStarted (h : Sound client) (hset : client.setup = .starting) : Sound (client.apply .setupStarted) := by
  obtain ⟨hrecon, hshu, hsta⟩ := h.settingUp (by rw [hset]; nofun)
  have hqui : client.state = some .connecting ∨ client.state = none :=
    hsta.imp_right fun hsta => hsta.resolve_right fun hping => by
      rw [hset] at hping
      nomatch hping.1
  refine Tasks.sound { h with
    started := ?_
    settingUp := fun _ => ⟨hrecon, hshu, hqui.imp_right .inl⟩
    watched := ?_ } ?_
  · intro found hmon
    rcases eq_or_ne found 0 with rfl | hne
    · exact h.first
    · exact h.started _ ((update_of_ne hne ..).symm.trans hmon)
  · intro found hmon
    rcases eq_or_ne found 0 with rfl | hne
    · exact .inr (.inr (.inr ⟨rfl, rfl⟩))
    · have hfnd := h.monitors_settingUp (by rw [hset]; nofun) ((update_of_ne hne ..).symm.trans hmon)
      exact absurd hfnd.2 hne
  · change client.state.bind State.tasks = none
    rcases hqui with hsta | hsta <;> rw [hsta] <;> rfl

theorem Tasks.held_settingUp (h : Tasks client) (hset : client.setup ≠ .finished) : client.held = none := by
  cases hheld : client.held with
  | none => rfl
  | some remoteConnection => exact absurd (h.alone hheld).2.2.1 hset

section

variable (h : Sound client)
include h

theorem Sound.setupFails (hset : client.setup ≠ .finished) : Sound (client.apply .setupFails) := by
  have hdrop := h.dropTasks 0
  refine Tasks.sound { hdrop with
    settingUp := fun hne => absurd rfl hne
    watched := ?_ } (h.held_settingUp hset)
  intro found hmon
  obtain ⟨hne, hfnd⟩ := update_false hmon
  exact absurd (h.monitors_settingUp hset hfnd).2 hne

theorem Sound.setupPong (hset : client.setup = .pinging) (hcare : client.monitors 0 = true) : Sound (client.apply .setupPong) := by
  have hne : client.setup ≠ .finished := by
    rw [hset]
    nofun
  have hheld := h.held_settingUp hne
  obtain ⟨hrecon, hshu, -⟩ := h.settingUp hne
  unfold apply
  rw [dropState_none hheld]
  exact { h with
    fresh := fun _ => rfl
    counted := by
      rw [hrecon]
      nofun
    bounded := Nat.zero_le _
    during := fun hne => absurd hrecon hne
    notFailed := nofun
    settingUp := fun hne => absurd rfl hne
    watched := by
      intro found hmon
      obtain ⟨-, rfl⟩ := h.monitors_settingUp hne hmon
      exact .inl rfl
    beating := by
      intro found hbeat
      rcases eq_or_ne found 0 with rfl | hfnd
      · exact .inl rfl
      · rcases h.beating _ fun hnone => hbeat ((update_of_ne hfnd ..).trans hnone) with hhold | hrest
        · rw [hheld] at hhold
          nomatch hhold
        · exact .inr hrest
    kept := fun hne => absurd hshu hne
    held_monitors := by
      intro found hfnd
      obtain rfl := some.inj hfnd
      exact hcare }

theorem Sound.shutdown : Sound client.shutdownProcesses := by
  have hemp := h.empty
  unfold RemoteClient.shutdownProcesses
  split
  · rename_i remoteConnection hsta
    have hheld : client.held = some remoteConnection := by
      unfold held
      rw [hsta]
      rfl
    obtain ⟨hrecon, -, hset, -⟩ := h.alone hheld
    refine Tasks.sound { h with
      fresh := fun hne => absurd rfl hne
      during := fun hne => absurd hrecon hne
      notFailed := nofun
      settingUp := fun hne => absurd hset hne
      watched := ?_
      beating := ?_
      kept := fun _ => .inl rfl } rfl
    · intro found hmon
      rcases h.watched _ hmon with hhold | hrec | hkept | hping
      · rw [hheld, Option.some.injEq] at hhold
        exact .inr (.inr (.inl (mem_append_right _ (mem_singleton.mpr hhold.symm))))
      · exact .inr (.inl hrec)
      · exact .inr (.inr (.inl (mem_append_left _ hkept)))
      · exact .inr (.inr (.inr hping))
    · intro found hbeat
      rcases h.beating _ hbeat with hhold | hrec | hkept
      · rw [hheld, Option.some.injEq] at hhold
        exact .inr (.inr (mem_append_right _ (mem_singleton.mpr hhold.symm)))
      · exact .inr (.inl hrec)
      · exact .inr (.inr (mem_append_left _ hkept))
  · exact hemp.sound rfl

theorem Sound.shutdownDone (hmem : remoteConnection ∈ client.shutdowns) : Sound (client.apply (.shutdownDone remoteConnection)) := by
  have hdrop := h.dropTasks remoteConnection
  have hheld : client.held = none := by
    cases hheld : client.held with
    | none => rfl
    | some found =>
      rw [(h.alone hheld).2.1] at hmem
      nomatch hmem
  refine Tasks.sound { hdrop with
    settingUp := ?_
    watched := ?_
    beating := ?_
    kept := fun _ => h.kept (ne_nil_of_mem hmem) } hheld
  · intro hset
    rw [(h.settingUp hset).2.1] at hmem
    nomatch hmem
  · intro found hmon
    rcases hdrop.watched _ hmon with hhold | hrec | hkept | hping
    · exact .inl hhold
    · exact .inr (.inl hrec)
    · exact .inr (.inr (.inl ((mem_erase_of_ne (update_false hmon).1).mpr hkept)))
    · exact .inr (.inr (.inr hping))
  · intro found hbeat
    rcases hdrop.beating _ hbeat with hhold | hrec | hkept
    · exact .inl hhold
    · exact .inr (.inl hrec)
    · exact .inr (.inr ((mem_erase_of_ne (update_none hbeat).1).mpr hkept))

/-- A proxy that was started gets further. -/
theorem Sound.proxies (remoteConnection : Nat) {proxy : Proxy} (hpro : proxy ≠ .unstarted) :
    Sound { client with proxies := Function.update client.proxies remoteConnection proxy } := by
  have hstd : ∀ found, client.proxies found ≠ .unstarted →
      Function.update client.proxies remoteConnection proxy found ≠ .unstarted := by
    intro found hfnd
    rcases eq_or_ne found remoteConnection with rfl | hne
    · rwa [update_self]
    · rwa [update_of_ne hne]
  exact { h with
    started := fun found hmon => hstd _ (h.started _ hmon)
    first := hstd 0 h.first }

theorem Sound.apply (halw : client.Allowed move) (hcare : client.Careful move) : Sound (client.apply move) := by
  cases move with
  | setupStarted => exact h.setupStarted halw
  | setupFails => exact h.setupFails halw
  | setupPong => exact h.setupPong halw hcare
  | killFails reconnect | killed reconnect | connectFails reconnect =>
    obtain ⟨hmem, hstg⟩ := halw
    exact h.stage hmem (by rw [hstg]; nofun) (by rw [hstg]; nofun) _
  | connects reconnect => exact (h.startProxy halw.1 halw.2).sound (h.held_none halw.1)
  | resyncFails reconnect => exact (h.resyncFails halw.1).sound (h.held_none halw.1)
  | resynced reconnect => exact (h.toTasks.resynced halw.1 halw.2).sound (h.held_none halw.1)
  | settle reconnect newState => exact h.settle halw hcare
  | monitor remoteConnection result => exact h.monitor halw.1
  | beatMissed remoteConnection missedHeartbeats =>
    have hbeat : client.heartbeats remoteConnection ≠ none := by
      rw [halw.1]
      exact some_ne_none _
    exact h.beat (h.beating _ hbeat) _ (h.beats_state hbeat hcare)
  | beatRecovered remoteConnection =>
    obtain ⟨missedHeartbeats, hsome, -⟩ := halw
    have hbeat : client.heartbeats remoteConnection ≠ none := by
      rw [hsome]
      exact some_ne_none _
    exact h.beat (h.beating _ hbeat) _ (h.beats_state hbeat hcare)
  | beatStops remoteConnection => exact h.beatOver _
  | shutdownDone remoteConnection => exact h.shutdownDone halw
  | shutdown => exact h.shutdown
  | linkCloses remoteConnection => exact h.proxies _ nofun
  | proxyEnds remoteConnection result => exact h.proxies _ nofun

end

theorem Reach.sound (h : Reach Careful client) : Sound client := by
  induction h with
  | start => exact sound_new
  | move move _ halw hcare ih => exact ih.apply halw hcare

/-! ### Final states -/

theorem final_canReconnect (h : Final state) : state.canReconnect = false := by
  rcases h with rfl | rfl <;> rfl

theorem final_tasks (h : Final state) : state.tasks = none := by
  rcases h with rfl | rfl <;> rfl

theorem tryReconnect_final (hsta : client.state = some state) (hfin : Final state) : client.tryReconnect.state = some state := by
  rw [tryReconnect_ignored]
  · exact hsta
  · intro found hfnd
    rw [hsta, Option.some.injEq] at hfnd
    rw [← hfnd]
    exact final_canReconnect hfin

/-- A client that has made all attempts watches no proxy. -/
theorem Tasks.exhausted (h : Tasks client) (hsta : client.state = some .reconnectExhausted) :
    client.monitors remoteConnection ≠ true := by
  intro hmon
  have hnot : ¬ client.Quiet := by
    rintro (hqui | hqui) <;> rw [hqui] at hsta <;> nomatch hsta
  rcases h.watched _ hmon with hheld | ⟨reconnect, hmem, -⟩ | hkept | ⟨hping, -⟩
  · unfold held at hheld
    rw [hsta] at hheld
    nomatch hheld
  · rcases h.during (ne_nil_of_mem hmem) with hrec | hqui
    · rw [hrec] at hsta
      nomatch hsta
    · exact hnot hqui
  · exact hnot (h.kept (ne_nil_of_mem hkept))
  · rcases (h.settingUp (by rw [hping]; nofun)).2.2 with hoth | hoth | ⟨-, hoth, -⟩ <;> rw [hoth] at hsta <;>
      nomatch hsta

theorem Tasks.monitor_final (h : Tasks client) (hsta : client.state = some state) (hfin : Final state)
    (hmon : client.monitors remoteConnection = true) :
    (client.monitor remoteConnection result).state = some state := by
  unfold monitor
  split
  · rcases hfin with rfl | rfl
    · exact absurd hmon (h.exhausted hsta)
    · rfl
  · exact tryReconnect_final hsta hfin

theorem handleHeartbeatResult_final (hsta : client.state = some state) (hfin : Final state)
    (missedHeartbeats : Nat) : (client.handleHeartbeatResult missedHeartbeats).1.state = some state := by
  have hnext : (if missedHeartbeats > 0 then state.heartbeatMissedOnce else state.heartbeatRecovered) = state := by
    split
    · exact heartbeatMissedOnce_of_tasks (final_tasks hfin)
    · exact heartbeatRecovered_of_tasks (final_tasks hfin)
  unfold handleHeartbeatResult
  rw [hsta]
  dsimp only
  rw [hnext]
  split
  · exact tryReconnect_final rfl hfin
  · rfl

theorem beat_final (hsta : client.state = some state) (hfin : Final state)
    (remoteConnection missedHeartbeats : Nat) : (client.beat remoteConnection missedHeartbeats).state = some state := by
  have hhan : ({ client with
      heartbeats := Function.update client.heartbeats remoteConnection (some missedHeartbeats)
      }.handleHeartbeatResult missedHeartbeats).1.state = some state := by
    refine handleHeartbeatResult_final ?_ hfin _
    exact hsta
  unfold beat
  dsimp only
  split
  · exact hhan
  · exact hhan

theorem Sound.stays (h : Sound client) (hsta : client.state = some state) (hfin : Final state)
    (halw : client.Allowed move) (hcare : client.Careful move) :
    (client.apply move).state = some state ∨ move = .shutdown ∧ (client.apply move).state = none := by
  cases move with
  | setupPong =>
    have hset : client.setup ≠ .finished := by
      rw [show client.setup = .pinging from halw]
      nofun
    have hmon : client.monitors 0 = true := hcare
    rcases (h.settingUp hset).2.2 with hoth | hoth | ⟨-, -, hover⟩
    · rw [hoth] at hsta
      rcases hfin with rfl | rfl <;> nomatch hsta
    · rw [hoth] at hsta
      nomatch hsta
    · rw [hover] at hmon
      nomatch hmon
  | settle reconnect newState =>
    refine .inl ?_
    change (client.settle reconnect newState).state = some state
    rw [settle_dropped h.toTasks, dropState_state]
    · exact hsta
    · rw [hsta]
      rcases hfin with rfl | rfl <;> nofun
  | monitor remoteConnection result => exact .inl (h.monitor_final hsta hfin halw.1)
  | beatMissed remoteConnection missedHeartbeats => exact .inl (beat_final hsta hfin ..)
  | beatRecovered remoteConnection => exact .inl (beat_final hsta hfin ..)
  | shutdown =>
    refine .inr ⟨rfl, ?_⟩
    unfold RemoteClient.apply shutdownProcesses
    rw [hsta]
    rcases hfin with rfl | rfl <;> rfl
  | setupStarted | setupFails | killFails | killed | connectFails | connects | resyncFails | resynced | beatStops
  | shutdownDone | linkCloses | proxyEnds => exact .inl hsta

theorem Sound.live (h : Sound client) : client.Live Careful where
  notStuck := by
    intro hidle remoteConnection hheld
    have hmon := h.held_monitors _ hheld
    cases hpro : client.proxies _ with
    | unstarted => exact absurd hpro (h.started _ hmon)
    | running => exact .inl hpro
    | closing => exact .inr hpro
    | ended result => exact absurd ⟨hmon, hpro⟩ (hidle (.monitor _ _) rfl)
  attempts := h.bounded
  single := h.single
  stays := fun _ hsta hfin _ halw hcare => h.stays hsta hfin halw hcare
  notCrashed := h.notCrashed

/-- Careful moves do not leave the client stuck with a proxy that has ended. -/
theorem client_not_stuck (h : Reach Careful client) : client.Live Careful := h.sound.live

/-! ### A proxy whose end is overlooked -/

/-- The state after moves that are made one after another. -/
def run (moves : List Move) : RemoteClient := moves.foldl RemoteClient.apply .new

theorem Reach.run {condition : RemoteClient → Move → Prop} {moves : List Move}
    (h : Follows RemoteClient.apply (fun client move => client.Allowed move ∧ condition client move) .new moves) :
    Reach condition (run moves) :=
  Follows.keeps (fun _ move hrch hmove => hrch.move move hmove.1 hmove.2) .start h

/-- The first connection is set up, its proxy ends, and an attempt to reconnect succeeds. -/
theorem client_not_stuck_demo : (run [.setupStarted, .setupPong, .proxyEnds 0 (some 1), .monitor 0 (some 1),
    .killed ⟨1, 0, .killing⟩, .connects ⟨1, 0, .connecting⟩, .resynced ⟨1, 1, .resyncing⟩,
    .settle ⟨1, 1, .resynced⟩ (.connected 1)]).Live Careful := by
  refine client_not_stuck (Reach.run ⟨⟨rfl, trivial⟩, ⟨rfl, rfl⟩, ⟨.inl rfl, trivial⟩, ⟨⟨rfl, rfl⟩, trivial⟩,
    ⟨⟨mem_singleton_self _, rfl⟩, trivial⟩, ⟨⟨mem_singleton_self _, rfl⟩, trivial⟩,
    ⟨⟨mem_singleton_self _, rfl⟩, trivial⟩, ⟨⟨mem_singleton_self _, rfl⟩, ?_⟩, trivial⟩)
  rintro - remoteConnection heq
  obtain rfl := State.connected.inj heq
  rfl

/-- The proxy ends after it has answered the ping and before the client gets connected. Its end is reported to a client that does not
reconnect yet, and nothing is left that could report it again. -/
def overlooked : List Move := [.setupStarted, .proxyEnds 0 (some 1), .monitor 0 (some 1), .setupPong, .beatStops 0]

theorem overlooked_monitors (remoteConnection : Nat) : (run overlooked).monitors remoteConnection ≠ true := by
  intro hmon
  obtain ⟨hne, hmon⟩ := update_false hmon
  nomatch (update_of_ne hne ..).symm.trans hmon

theorem overlooked_heartbeats (remoteConnection : Nat) : (run overlooked).heartbeats remoteConnection = none := by
  by_contra hbeat
  obtain ⟨hne, hbeat⟩ := update_none hbeat
  exact hbeat (update_of_ne hne ..)

theorem overlooked_idle : (run overlooked).Idle := by
  intro move htask halw
  cases move with
  | setupStarted | setupPong => nomatch halw
  | setupFails => exact halw rfl
  | killFails | killed | connectFails | connects | resyncFails | resynced | settle => nomatch halw.1
  | monitor remoteConnection result => exact overlooked_monitors _ halw.1
  | beatMissed remoteConnection missedHeartbeats =>
    nomatch (overlooked_heartbeats _).symm.trans halw.1
  | beatRecovered remoteConnection =>
    obtain ⟨missedHeartbeats, hbeat, -⟩ := halw
    nomatch (overlooked_heartbeats _).symm.trans hbeat
  | beatStops remoteConnection => exact halw.1 (overlooked_heartbeats _)
  | shutdownDone remoteConnection => nomatch halw
  | shutdown | linkCloses | proxyEnds => nomatch htask

theorem stuck_after_setup : ¬ ∀ client : RemoteClient, Reach (fun _ _ => True) client → client.Live fun _ _ => True := by
  intro hall
  have hreach : Reach (fun _ _ => True) (run overlooked) :=
    Reach.run ⟨⟨rfl, trivial⟩, ⟨.inl rfl, trivial⟩, ⟨⟨rfl, rfl⟩, trivial⟩, ⟨rfl, trivial⟩, ⟨⟨nofun, nofun⟩, trivial⟩, trivial⟩
  rcases (hall _ hreach).notStuck overlooked_idle 0 rfl with hruns | hruns <;> nomatch hruns

end RemoteClient

end Wu.Remote
