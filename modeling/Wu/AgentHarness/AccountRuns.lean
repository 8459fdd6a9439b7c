import Wu.AgentHarness.Accounts

/-!
# Runs on the saved logins

Each saved login stays the login of its account, and a switch that fails leaves the live login as it was, as long as a switch
that wrote the credentials and then cannot write the identity puts the credentials from before back. Which credentials belong
to an account is a parameter; the tokens that a machine's logins share belong to none.
-/

namespace Wu

open List Value Option

namespace Value

theorem get_object (entries : List (String × Value)) (key : String) : (object entries).get key = lookupEntry key entries :=
  rfl

/-- What a filter leaves out has no say in whether a key that passes it is found. -/
theorem lookupEntry_filter {p : String → Bool} {key : String} (h : p key = true) (entries : List (String × Value)) :
    lookupEntry key (entries.filter fun entry => p entry.1) = lookupEntry key entries := by
  unfold lookupEntry
  rw [List.find?_filter]
  congr 2
  funext entry
  by_cases hkey : entry.1 = key
  · simp [hkey, h]
  · simp [hkey]

theorem lookupEntry_filter_none {p : String → Bool} {key : String} (h : p key = false)
    (entries : List (String × Value)) : lookupEntry key (entries.filter fun entry => p entry.1) = none := by
  unfold lookupEntry
  rw [map_eq_none_iff, List.find?_eq_none]
  intro entry hmem heq
  have hp : p entry.1 = true := by simpa using (mem_filter.mp hmem).2
  rw [of_decide_eq_true heq, h] at hp
  nomatch hp

/-- Inserting what a filter leaves out does not show through it. -/
theorem filter_insertEntry {p : String → Bool} {key : String} (h : p key = false) (value : Value) (entries : List (String × Value)) :
    (insertEntry key value entries).filter (fun entry => p entry.1) = entries.filter fun entry => p entry.1 := by
  induction entries with
  | nil => simp [insertEntry, h]
  | cons entry entries ih =>
    rw [insertEntry]
    split
    · rename_i hkey
      rw [filter_cons_of_neg (by simp [h]), filter_cons_of_neg (by simp [hkey, h])]
    · rw [filter_cons, filter_cons, ih]

end Value

namespace Accounts

/-! ### Credentials -/

/-- The part of credentials that belongs to an account. -/
def personal (harness : HarnessId) (credentials : Value) : Value :=
  match harness, credentials with
  | .claudeCode, .object entries => .object (entries.filter fun entry => decide (entry.1 ∉ claudeSharedCredentialKeys))
  | _, credentials => credentials

/-- The entries of a slot's credentials with those of the keys `keys` taken from the live credentials. -/
def takeShared (live : List (String × Value)) (keys : List String) (composed : List (String × Value)) : List (String × Value) :=
  keys.foldl (fun composed key =>
    match Value.lookupEntry key live with
    | some value => Value.insertEntry key value composed
    | none => composed) composed

theorem composeClaudeCredentials_object {live entries : List (String × Value)}
    (h : ((Value.object entries).get "claudeAiOauth").isSome = true) :
    composeClaudeCredentials (.object entries) (some (.object live)) = .object (takeShared live claudeSharedCredentialKeys
        (entries.filter fun entry => decide (entry.1 ∉ claudeSharedCredentialKeys))) := by
  unfold composeClaudeCredentials
  dsimp only
  rw [if_pos h]
  rfl

theorem filter_takeShared {p : String → Bool} (live : List (String × Value)) {keys : List String}
    (h : ∀ key ∈ keys, p key = false) (composed : List (String × Value)) :
    (takeShared live keys composed).filter (fun entry => p entry.1) = composed.filter fun entry => p entry.1 := by
  induction keys generalizing composed with
  | nil => rfl
  | cons key keys ih =>
    have hstep : takeShared live (key :: keys) composed = takeShared live keys
        (match Value.lookupEntry key live with
          | some value => Value.insertEntry key value composed
          | none => composed) := rfl
    rw [hstep, ih fun other hoth => h _ (.tail _ hoth)]
    split
    · exact filter_insertEntry (h key (mem_cons_self ..)) _ _
    · rfl

theorem lookupEntry_takeShared (live : List (String × Value)) (keys : List String) (composed : List (String × Value)) (key : String) :
    Value.lookupEntry key (takeShared live keys composed) =
      if key ∈ keys then (Value.lookupEntry key live).or (Value.lookupEntry key composed)
      else Value.lookupEntry key composed := by
  induction keys generalizing composed with
  | nil => rfl
  | cons first keys ih =>
    have hstep : takeShared live (first :: keys) composed = takeShared live keys
        (match Value.lookupEntry first live with
          | some value => Value.insertEntry first value composed
          | none => composed) := rfl
    rw [hstep, ih]
    cases hlive : Value.lookupEntry first live with
    | none =>
      by_cases hkey : key = first
      · subst hkey
        simp [hlive]
      · simp [hkey]
    | some value =>
      simp only [lookupEntry_insertEntry]
      by_cases hkey : key = first
      · subst hkey
        simp [hlive]
      · simp [hkey]

/-- Composed credentials are those of the account of the slot. -/
theorem personal_composeClaudeCredentials (target : Value) (live : Option Value) :
    personal .claudeCode (composeClaudeCredentials target live) = personal .claudeCode target := by
  unfold composeClaudeCredentials
  split
  · rename_i live entries
    split
    · have hshar : ∀ key ∈ claudeSharedCredentialKeys, decide (key ∉ claudeSharedCredentialKeys) = false := by
        intro key hkey
        simpa using hkey
      have hfilt := filter_takeShared live hshar
        (entries.filter fun entry => decide (entry.1 ∉ claudeSharedCredentialKeys))
      refine congrArg Value.object (hfilt.trans ?_)
      simp
    · rfl
  · rfl

/-- What the credentials are after a switch to a login: Claude Code's take the shared keys from the live credentials, where
both have the form of a login; other credentials are those that were saved. -/
def Composed (harness : HarnessId) (target : Value) (live : Option Value) (composed : Value) : Prop :=
  ((harness = .claudeCode ∧ (live.any Value.isObject) ∧ (target.get "claudeAiOauth").isSome) ∧ ∀ key, composed.get key =
        if key ∈ claudeSharedCredentialKeys then live.bind fun live => live.get key else target.get key) ∨
    (¬(harness = .claudeCode ∧ (live.any Value.isObject) ∧ (target.get "claudeAiOauth").isSome) ∧ composed = target)

theorem composed_composeClaudeCredentials (target : Value) (live : Option Value) :
    Composed .claudeCode target live (composeClaudeCredentials target live) := by
  by_cases h : live.any Value.isObject = true ∧ (target.get "claudeAiOauth").isSome = true
  · refine .inl ⟨⟨rfl, h⟩, ?_⟩
    obtain ⟨hlive, htar⟩ := h
    obtain ⟨live, rfl⟩ : ∃ value, live = some value := by
      cases live with
      | none => nomatch hlive
      | some value => exact ⟨value, rfl⟩
    cases live with
    | object liveEntries =>
      cases target with
      | object entries =>
        intro key
        rw [composeClaudeCredentials_object htar]
        have hget := lookupEntry_takeShared liveEntries claudeSharedCredentialKeys
          (entries.filter fun entry => decide (entry.1 ∉ claudeSharedCredentialKeys)) key
        refine hget.trans ?_
        by_cases hkey : key ∈ claudeSharedCredentialKeys
        · have hnone := lookupEntry_filter_none (p := fun key => decide (key ∉ claudeSharedCredentialKeys))
            (by simpa using hkey) entries
          rw [if_pos hkey, if_pos hkey, hnone, or_none]
          rfl
        · have hsame := lookupEntry_filter (p := fun key => decide (key ∉ claudeSharedCredentialKeys)) (by simpa using hkey) entries
          rw [if_neg hkey, if_neg hkey, hsame]
          rfl
      | _ => nomatch htar
    | _ => nomatch hlive
  · refine .inr ⟨fun h' => h h'.2, ?_⟩
    unfold composeClaudeCredentials
    split
    · rw [if_neg fun htar => h ⟨rfl, htar⟩]
    · rfl

/-! ### The live login -/

namespace Stores

/-- The credentials that a harness has, whether or not they can be read. -/
def stored (s : Stores) : HarnessId → Option Value
  | .claudeCode =>
    match s.keychain with
    | some keychain => if keychain.hasItem then keychain.item.content else s.claudeCredentialsFile.content
    | none => s.claudeCredentialsFile.content
  | .codex => s.codexAuthFile.content
  | .opencode => none

/-- The live credentials, when they can be read. -/
def readable (s : Stores) : HarnessId → Option Value
  | .claudeCode =>
    match s.readClaudeCredentials with
    | .ok live => live
    | .error _ => none
  | .codex => readJson s.codexAuthFile
  | .opencode => none

/-- The stores with credentials of Claude Code written. -/
def putCredentials (s : Stores) (credentials : Value) : Stores := (s.writeClaudeCredentials credentials none).2

/-- The stores with a slot written. -/
def save (s : Stores) (slot : Slot) : Stores :=
  s.setSlots slot.harness (Assoc.update slot.id (fun _ => .holds slot) (s.slotsDir slot.harness))

/-- Stores that differ in the saved logins at most: the live login is the same. -/
def SameLive (s s' : Stores) : Prop := s' = { s with slotsDir := s'.slotsDir }

theorem SameLive.refl (s : Stores) : s.SameLive s := rfl

theorem SameLive.setSlots (s : Stores) (harness : HarnessId) (slots : List (String × File Slot)) :
    s.SameLive (s.setSlots harness slots) := rfl

variable {s : Stores} {keychain : Keychain} {credentials live : Value}

theorem SameLive.readable {s' : Stores} (h : s.SameLive s') (harness : HarnessId) : s'.readable harness = s.readable harness := by
  rw [h]
  cases harness <;> rfl

theorem readJson_eq_some {file : File Value} {value : Value} (h : readJson file = some value) : file = .holds value := by
  obtain ⟨hcont, -⟩ := Option.filter_eq_some_iff.mp h
  cases file with
  | holds content => exact congrArg _ (some.inj hcont)
  | absent => nomatch hcont
  | unreadable => nomatch hcont

theorem readJson_holds {value : Value} (h : value.isObject = true) : readJson (.holds value) = some value := by
  simp [readJson, File.content, h]

/-- The item that the keychain gives is the one it has. -/
theorem read_some (h : keychain.read = .ok (some credentials)) : keychain.item = .holds credentials := by
  unfold Keychain.read at h
  split at h
  · nomatch h
  · nomatch h
  · rename_i content heq
    split at h
    · nomatch h
    · rw [heq, some.inj (Except.ok.inj h)]

theorem read_none (h : keychain.read = .ok none) : keychain.item = .absent := by
  unfold Keychain.read at h
  split at h
  · assumption
  · nomatch h
  · split at h <;> nomatch h

/-- Where credentials that can be read are. -/
theorem readClaudeCredentials_cases (h : s.readClaudeCredentials = .ok (some live)) :
    (∃ keychain, s.keychain = some keychain ∧ keychain.item = .holds live) ∨
    ((∀ keychain, s.keychain = some keychain → keychain.item = .absent) ∧ s.claudeCredentialsFile = .holds live) := by
  unfold readClaudeCredentials at h
  split at h
  · rename_i hkey
    refine .inr ⟨fun keychain heq => ?_, readJson_eq_some (Except.ok.inj h)⟩
    rw [hkey] at heq
    nomatch heq
  · rename_i keychain hkey
    split at h
    · nomatch h
    · rename_i credentials hread
      rw [some.inj (Except.ok.inj h)] at hread
      exact .inl ⟨keychain, hkey, read_some hread⟩
    · rename_i hread
      refine .inr ⟨fun other heq => ?_, readJson_eq_some (Except.ok.inj h)⟩
      rw [← some.inj (hkey.symm.trans heq)]
      exact read_none hread

theorem stored_of_readable {harness : HarnessId}
    (h : s.readable harness = some credentials) : s.stored harness = some credentials := by
  cases harness with
  | claudeCode =>
    have hread : s.readClaudeCredentials = .ok (some credentials) := by
      unfold readable at h
      dsimp only at h
      split at h
      · rename_i live hlive
        rw [hlive, h]
      · nomatch h
    unfold stored
    rcases readClaudeCredentials_cases hread with ⟨keychain, hkey, hitem⟩ | ⟨habs, hfile⟩
    · simp [hkey, Keychain.hasItem, hitem, File.isThere, File.content]
    · cases hkey : s.keychain with
      | none => simp [hfile, File.content]
      | some keychain => simp [Keychain.hasItem, habs _ hkey, File.isThere, hfile, File.content]
  | codex =>
    have hfile := readJson_eq_some h
    unfold stored
    rw [hfile]
    rfl
  | opencode => nomatch h

theorem putCredentials_cases (s : Stores) (credentials : Value) : (∃ keychain : Keychain,
      s.putCredentials credentials = { s with keychain := some { keychain with item := .holds credentials } }) ∨
    ((∀ keychain, s.keychain = some keychain → keychain.hasItem = false) ∧
      s.putCredentials credentials = { s with claudeCredentialsFile := .holds credentials }) := by
  unfold putCredentials writeClaudeCredentials
  cases hkey : s.keychain with
  | none => exact .inr ⟨fun keychain heq => (nomatch heq), rfl⟩
  | some keychain =>
    dsimp only
    split
    · exact .inl ⟨keychain, rfl⟩
    · rename_i hwhe
      refine .inr ⟨fun other heq => ?_, rfl⟩
      rw [← some.inj heq]
      rw [Bool.not_eq_true, Bool.or_eq_false_iff] at hwhe
      exact hwhe.1

/-- Written credentials are the ones that are there. -/
theorem stored_putCredentials (s : Stores) (credentials : Value) :
    (s.putCredentials credentials).stored .claudeCode = some credentials := by
  rcases s.putCredentials_cases _ with ⟨keychain, heq⟩ | ⟨hno, heq⟩
  · rw [heq]
    rfl
  · rw [heq]
    unfold stored
    dsimp only
    split
    · rename_i keychain hkey
      rw [hno _ hkey]
      rfl
    · rfl

theorem putCredentials_config (s : Stores) (credentials : Value) :
    (s.putCredentials credentials).claudeConfigFile = s.claudeConfigFile ∧
      (s.putCredentials credentials).codexAuthFile = s.codexAuthFile ∧
      (s.putCredentials credentials).slotsDir = s.slotsDir := by
  rcases s.putCredentials_cases _ with ⟨keychain, heq⟩ | ⟨-, heq⟩ <;> (rw [heq]; exact ⟨rfl, rfl, rfl⟩)

/-- Credentials that could be read are put back where they were. -/
theorem putCredentials_putCredentials (h : s.readClaudeCredentials = .ok (some live))
    (credentials : Value) : (s.putCredentials credentials).putCredentials live = s := by
  obtain ⟨config, file, auth, keychain, slots⟩ := s
  rcases readClaudeCredentials_cases h with ⟨⟨-, -⟩, rfl, rfl⟩ | ⟨habs, rfl⟩
  · rfl
  · cases keychain with
    | none => rfl
    | some keychain =>
      obtain ⟨item, denied⟩ := keychain
      obtain rfl : item = .absent := habs _ rfl
      rfl

/-! ### Accounts -/

end Stores

/-- The key of the account that the entry of a configuration names. -/
def accountKeyOf (oauth : Value) : Option String :=
  (strField oauth "emailAddress").map fun email => (strField oauth "accountUuid").getD email

theorem identityOf_key (config : Value) :
    (identityOf config).map (fun identity => identity.1) = (config.get "oauthAccount").bind accountKeyOf := by
  unfold identityOf accountKeyOf
  cases config.get _ with
  | none => rfl
  | some oauth =>
    cases hema : strField oauth "emailAddress" with
    | none => simp [hema]
    | some email => simp [hema]

/-- What of a configuration is saved names the same account. -/
theorem identityOf_saved {config saved : Value} {key : String} {profile : Profile}
    (h : identityOf config = some (key, profile, saved)) :
    ∃ oauth, saved.get "oauthAccount" = some oauth ∧ accountKeyOf oauth = some key := by
  have hkey := identityOf_key config
  rw [h] at hkey
  unfold identityOf at h
  cases hoau : config.get _ with
  | none =>
    rw [hoau] at h
    nomatch h
  | some oauth =>
    rw [hoau] at h hkey
    cases hema : strField oauth "emailAddress" with
    | none => simp [hema] at h
    | some email =>
      refine ⟨oauth, ?_, hkey.symm⟩
      simp only [Option.bind_eq_bind, Option.bind_some, hema, Option.pure_def, some.injEq, Prod.mk.injEq] at h
      rw [← h.2.2]
      rfl

/-- The account that a slot's login signs in to: Claude Code's is named by what of the configuration is saved, Codex's by the
credentials. -/
def Slot.names (lib : Libraries) (self : Slot) : HarnessId → Option String
  | .claudeCode => accountKeyOf (Stores.oauthAccountOf self)
  | .codex => (parseCodexAuth lib self.credentials).map Detected.accountKey
  | .opencode => some self.accountKey

variable {lib : Libraries} {auth : Value} {detected : Detected}

theorem parseCodexAuth_credentials (h : parseCodexAuth lib auth = some detected) : detected.credentials = .ok (some auth) := by
  unfold parseCodexAuth at h
  split at h
  · obtain ⟨-, -, rfl⟩ := Option.map_eq_some_iff.mp h
    rfl
  · obtain ⟨-, -, rfl⟩ := Option.map_eq_some_iff.mp h
    rfl

/-- What `auth.json` holds a login in is an object. -/
theorem parseCodexAuth_isObject (h : parseCodexAuth lib auth = some detected) : auth.isObject = true := by
  cases auth with
  | object entries => rfl
  | _ => nomatch h

namespace Stores

theorem detect_key (lib : Libraries) (s : Stores) (harness : HarnessId) :
    (s.detect lib harness).map Detected.accountKey = s.liveKey lib harness := by
  cases harness with
  | claudeCode =>
    change (s.claudeIdentity.map _).map _ = s.claudeIdentity.map _
    rw [Option.map_map]
    rfl
  | codex => rfl
  | opencode => rfl

theorem liveKey_claudeCode (lib : Libraries) (s : Stores) : s.liveKey lib .claudeCode =
      (readJson s.claudeConfigFile).bind fun config => (config.get "oauthAccount").bind accountKeyOf := by
  change ((readJson s.claudeConfigFile).bind identityOf).map _ = _
  rw [map_bind]
  congr 1
  funext config
  exact identityOf_key _

variable {lib : Libraries} {s : Stores} {harness : HarnessId} {detected : Detected} {credentials : Value} {world : World}
variable {slot : Slot}

/-- The live login's credentials are the ones that can be read. -/
theorem detect_credentials (h : s.detect lib harness = some detected) :
    detected.credentials = .ok (some credentials) ↔ s.readable harness = some credentials := by
  cases harness with
  | claudeCode =>
    obtain ⟨-, -, rfl⟩ := Option.map_eq_some_iff.mp h
    unfold readable
    cases s.readClaudeCredentials with
    | ok live => simp
    | error reason => simp
  | codex =>
    obtain ⟨auth, hauth, hpar⟩ := Option.bind_eq_some_iff.mp h
    rw [parseCodexAuth_credentials hpar]
    unfold readable
    rw [hauth]
    simp
  | opencode => nomatch h

/-- The slot of a live login is its account's. -/
theorem slotOf_names (h : s.detect lib harness = some detected) (hcre : detected.credentials = .ok (some credentials)) (now : Int)
    (createdAt : Option Int) :
    ({ slotOf lib harness detected credentials now with createdAt } : Slot).names lib harness = some detected.accountKey := by
  cases harness with
  | claudeCode =>
    obtain ⟨⟨key, profile, saved⟩, hide, rfl⟩ := Option.map_eq_some_iff.mp h
    obtain ⟨config, -, hcon⟩ := Option.bind_eq_some_iff.mp hide
    obtain ⟨oauth, hoau, hkey⟩ := identityOf_saved hcon
    have hof : oauthAccountOf ({ slotOf lib .claudeCode
        { accountKey := key, profile, credentials := s.readClaudeCredentials, claudeConfig := some saved }
        credentials now with createdAt } : Slot) = oauth := by
      unfold oauthAccountOf slotOf
      dsimp only [Option.bind_some]
      rw [hoau]
      rfl
    unfold Slot.names
    rw [hof, hkey]
  | codex =>
    obtain ⟨auth, -, hpar⟩ := Option.bind_eq_some_iff.mp h
    rw [parseCodexAuth_credentials hpar] at hcre
    obtain rfl : auth = credentials := some.inj (Except.ok.inj hcre)
    unfold Slot.names slotOf
    rw [hpar]
    rfl
  | opencode => nomatch h

/-! ### Slots -/

theorem readSlot_setSlots (s : Stores) (harness other : HarnessId) (slots : List (String × File Slot)) (id : String) :
    (s.setSlots harness slots).readSlot other id =
      if other = harness then (Assoc.get id slots).bind File.content else s.readSlot other id := by
  unfold readSlot setSlots
  dsimp only
  split <;> rfl

theorem readSlot_save (s : Stores) (slot : Slot) (harness : HarnessId) (id : String) : (s.save slot).readSlot harness id =
      if harness = slot.harness ∧ id = slot.id then some slot else s.readSlot harness id := by
  unfold save
  rw [readSlot_setSlots, Assoc.get_update]
  by_cases hhar : harness = slot.harness
  · subst hhar
    by_cases hid : id = slot.id
    · simp [hid, File.content]
    · simp [hid, readSlot]
  · simp [hhar]

theorem writeSlot_cases (s : Stores) (slot : Slot) (world : World) : (∃ error, s.writeSlot slot world = (.error error, s)) ∨
    ∃ createdAt, s.writeSlot slot world = (.ok (), s.save { slot with createdAt := some createdAt }) := by
  unfold writeSlot
  cases world.writeSlot with
  | some error => exact .inl ⟨error, rfl⟩
  | none => exact .inr ⟨_, rfl⟩

/-- A refresh fails, finds no credentials to save, or saves the live login in its slot. -/
theorem refreshLive_cases (lib : Libraries) (s : Stores) (harness : HarnessId) (world : World) :
    (∃ error, s.refreshLive lib harness world = (.error error, s)) ∨
    ((∀ key, s.liveKey lib harness = some key → s.readable harness = none) ∧
      s.refreshLive lib harness world = (.ok (s.detect lib harness), s)) ∨
    ∃ detected credentials createdAt, s.detect lib harness = some detected ∧ detected.credentials = .ok (some credentials) ∧
      s.refreshLive lib harness world = (.ok (s.detect lib harness),
        s.save { slotOf lib harness detected credentials world.now with createdAt := some createdAt }) := by
  unfold refreshLive
  cases hdet : s.detect lib _ with
  | none =>
    refine .inr (.inl ⟨fun key hkey => ?_, rfl⟩)
    rw [← detect_key, hdet] at hkey
    nomatch hkey
  | some detected =>
    dsimp only
    split
    · rename_i credentials hcre
      rcases s.writeSlot_cases _ _ with
        ⟨error, heq⟩ | ⟨createdAt, heq⟩
      · rw [heq]
        exact .inl ⟨error, rfl⟩
      · rw [heq]
        exact .inr (.inr ⟨detected, credentials, createdAt, rfl, hcre, rfl⟩)
    · rename_i hno
      refine .inr (.inl ⟨fun key _ => ?_, rfl⟩)
      cases hread : s.readable _ with
      | none => rfl
      | some credentials => exact absurd ((detect_credentials hdet).mpr hread) (hno _)

theorem refreshLive_sameLive (lib : Libraries) (s : Stores) (harness : HarnessId) (world : World) :
    s.SameLive (s.refreshLive lib harness world).2 := by
  rcases s.refreshLive_cases lib _ _ with ⟨error, heq⟩ | ⟨-, heq⟩ | ⟨detected, credentials, createdAt, -, -, heq⟩
  · rw [heq]
    exact SameLive.refl s
  · rw [heq]
    exact SameLive.refl s
  · rw [heq]
    exact SameLive.setSlots s _ _

/-- After a refresh, a live login that can be read is saved in its slot. -/
theorem refreshLive_saves {s' : Stores} {live : Option Detected} (h : s.refreshLive lib harness world = (.ok live, s')) {key : String}
    (hkey : s.liveKey lib harness = some key) (hread : s.readable harness = some credentials) :
    ∃ saved, s'.readSlot harness (lib.slotIdFor harness key) = some saved ∧ saved.accountKey = key ∧
      saved.credentials = credentials := by
  rcases s.refreshLive_cases lib _ _ with ⟨error, heq⟩ | ⟨hno, -⟩ | ⟨detected, found, createdAt, hdet, hfnd, heq⟩
  · rw [heq] at h
    nomatch h
  · rw [hno key hkey] at hread
    nomatch hread
  · rw [heq] at h
    obtain ⟨-, rfl⟩ := Prod.mk.inj h
    rw [← detect_key, hdet] at hkey
    obtain rfl := some.inj hkey
    rw [(detect_credentials hdet).mp hfnd] at hread
    exact ⟨_, (readSlot_save s _ _ _).trans (if_pos ⟨rfl, rfl⟩), rfl, some.inj hread⟩

/-! ### Switching -/

/-- Before a switch the live login is the same; where the switch goes on, the live login has been saved and the slot read. -/
theorem prepare_cases (lib : Libraries) (s : Stores) (harness : HarnessId) (accountId : String) (world : World) :
    (∃ error, s.prepare lib harness accountId world = (.error error, s) ∨
      s.prepare lib harness accountId world = (.error error, (s.refreshLive lib harness world).2)) ∨
    ∃ live slot s', s.refreshLive lib harness world = (.ok live, s') ∧ s'.readSlot harness accountId = some slot ∧
      s.prepare lib harness accountId world = (.ok slot, s') := by
  unfold prepare
  split
  · cases href : s.refreshLive lib _ _ with
    | mk result s' =>
      cases result with
      | error error => exact .inl ⟨error, .inr rfl⟩
      | ok live =>
        dsimp only [Result.andThen]
        cases s'.refusal _ live with
        | some reason => exact .inl ⟨reason, .inr rfl⟩
        | none =>
          cases hslot : s'.readSlot _ _ with
          | none => exact .inl ⟨_, .inr rfl⟩
          | some slot => exact .inr ⟨live, slot, s', rfl, hslot, rfl⟩
  · exact .inl ⟨_, .inl rfl⟩

/-- Claude Code's configuration after a switch: the account is the slot's, and nothing but it and the user id is changed. -/
theorem mergeClaudeConfig_spec {merged : Value} (h : s.mergeClaudeConfig slot = .ok merged) :
    merged.isObject = true ∧ merged.get "oauthAccount" = some (oauthAccountOf slot) ∧ ∀ key, key ≠ "oauthAccount" → key ≠ "userID" →
        merged.get key = ((readJson s.claudeConfigFile).getD (.object [])).get key := by
  unfold mergeClaudeConfig at h
  split at h
  · nomatch h
  · split at h
    · rename_i entries hents
      rw [hents]
      split at h
      · obtain rfl := Except.ok.inj h
        refine ⟨rfl, ?_, fun key hoau huser => ?_⟩
        · rw [get_object, lookupEntry_insertEntry, lookupEntry_insertEntry, if_neg (by decide), if_pos rfl]
        · rw [get_object, get_object, lookupEntry_insertEntry, lookupEntry_insertEntry, if_neg huser, if_neg hoau]
      · obtain rfl := Except.ok.inj h
        refine ⟨rfl, ?_, fun key hoau huser => ?_⟩
        · rw [get_object, lookupEntry_filter (p := fun key => decide (key ≠ "userID")) (by decide),
            lookupEntry_insertEntry, if_pos rfl]
        · rw [get_object, get_object, lookupEntry_filter (p := fun key => decide (key ≠ "userID")) (by simpa using huser),
            lookupEntry_insertEntry, if_neg hoau]
    · nomatch h

/-- The stores after a switch of Claude Code. -/
def switched (s : Stores) (slot : Slot) (merged : Value) : Stores :=
  { s.putCredentials (composeClaudeCredentials slot.credentials (s.readable .claudeCode)) with
    claudeConfigFile := .holds merged }

/-- A switch of Claude Code changes nothing when it fails, provided that a switch that cannot write the identity puts back the
credentials it replaced. -/
theorem activateClaude_cases (hres : ∀ merged, s.mergeClaudeConfig slot = .ok merged → world.writeCredentials = none →
      world.writeConfig ≠ none → s.readable .claudeCode ≠ none ∧ world.restoreCredentials = none) :
    (∃ error, s.activateClaude slot world = (.error error, s)) ∨
    ∃ merged, s.mergeClaudeConfig slot = .ok merged ∧ s.activateClaude slot world = (.ok (), s.switched slot merged) := by
  unfold activateClaude
  cases hmer : s.mergeClaudeConfig slot with
  | error error => exact .inl ⟨error, rfl⟩
  | ok merged =>
    cases hread : s.readClaudeCredentials with
    | error error => exact .inl ⟨error, rfl⟩
    | ok live =>
      have hrea : s.readable .claudeCode = live := by
        unfold readable
        rw [hread]
      dsimp only
      cases hwri : world.writeCredentials with
      | some error => exact .inl ⟨error, rfl⟩
      | none =>
        have hput : ∀ credentials, s.writeClaudeCredentials credentials none = (.ok (), s.putCredentials credentials) := by
          intro credentials
          unfold putCredentials writeClaudeCredentials
          dsimp only
          split
          · split <;> rfl
          · rfl
        rw [hput]
        dsimp only [Result.andThen]
        cases hcon : world.writeConfig with
        | none =>
          refine .inr ⟨merged, rfl, ?_⟩
          unfold switched
          rw [hrea]
        | some error =>
          have hback := hres _ hmer hwri (by rw [hcon]; exact some_ne_none _)
          rw [hrea] at hback
          cases live with
          | none => exact absurd rfl hback.1
          | some live =>
            dsimp only
            rw [hback.2]
            exact .inl ⟨error, congrArg _ (putCredentials_putCredentials hread _)⟩

/-- A switch of Claude Code signs in to the account of the slot. -/
theorem switched_liveKey {merged : Value}
    (h : s.mergeClaudeConfig slot = .ok merged) : (s.switched slot merged).liveKey lib .claudeCode = slot.names lib .claudeCode := by
  obtain ⟨hobj, hoau, -⟩ := mergeClaudeConfig_spec h
  rw [liveKey_claudeCode]
  change (readJson (.holds merged)).bind _ = _
  rw [readJson_holds hobj, Option.bind_some, hoau]
  rfl

theorem switched_stored (s : Stores) (slot : Slot) (merged : Value) : (s.switched slot merged).stored .claudeCode =
      some (composeClaudeCredentials slot.credentials (s.readable .claudeCode)) :=
  stored_putCredentials s _

/-- The stores after a switch of Codex. -/
def switchedCodex (s : Stores) (slot : Slot) : Stores := { s with codexAuthFile := .holds slot.credentials }

theorem activateCodex_cases (s : Stores) (slot : Slot) (world : World) : (∃ error, s.activateCodex slot world = (.error error, s)) ∨
      s.activateCodex slot world = (.ok (), s.switchedCodex slot) := by
  unfold activateCodex
  cases world.writeAuth with
  | some error => exact .inl ⟨error, rfl⟩
  | none => exact .inr rfl

theorem switchedCodex_liveKey (s : Stores) {key : String}
    (h : slot.names lib .codex = some key) : (s.switchedCodex slot).liveKey lib .codex = some key := by
  obtain ⟨detected, hpar, rfl⟩ := Option.map_eq_some_iff.mp h
  change ((readJson (.holds slot.credentials)).bind _).map _ = _
  rw [readJson_holds (parseCodexAuth_isObject hpar), Option.bind_some, hpar]
  rfl

end Stores

/-! ### What runs keep -/

/-- A slot that holds a login of the account it names, under that account's id. -/
structure OwnSlot (lib : Libraries) (owns : HarnessId → String → Value → Prop) (harness : HarnessId) (id : String)
    (slot : Slot) : Prop where
  id : id = lib.slotIdFor harness slot.accountKey
  own : owns harness slot.accountKey (personal harness slot.credentials)
  named : slot.names lib harness = some slot.accountKey

/-- Stores in which the live identity and the live credentials belong together, and each saved login is its account's. -/
structure Consistent (lib : Libraries) (owns : HarnessId → String → Value → Prop) (s : Stores) : Prop where
  live : ∀ harness key credentials, s.liveKey lib harness = some key → s.stored harness = some credentials →
    owns harness key (personal harness credentials)
  slots : ∀ harness id slot, s.readSlot harness id = some slot → OwnSlot lib owns harness id slot
  keyed : ∀ harness, Assoc.Keyed (s.slotsDir harness)

/-- A switch that writes the credentials and then cannot write the identity has credentials to put back, and puts them
back. -/
def Restores (lib : Libraries) (s : Stores) (harness : HarnessId) (world : World) : Operation → Prop
  | .activate accountId =>
    harness = .claudeCode → ∀ slot merged, (s.prepare lib harness accountId world).1 = .ok slot →
      s.mergeClaudeConfig slot = .ok merged → world.writeCredentials = none → world.writeConfig ≠ none →
      s.readable .claudeCode ≠ none ∧ world.restoreCredentials = none
  | _ => True

/-- The stores that operations lead to, when each switch restores what it cannot finish. -/
inductive Reach (lib : Libraries) (s₀ : Stores) : Stores → Prop
  | start : Reach lib s₀ s₀
  | step {s : Stores} (harness : HarnessId) (world : World) (operation : Operation) : Reach lib s₀ s →
    Restores lib s harness world operation → Reach lib s₀ (s.perform lib harness world operation)

namespace Consistent

variable {lib : Libraries} {owns : HarnessId → String → Value → Prop} {s : Stores}

/-- Saving the live login keeps the stores consistent. -/
theorem refreshLive (h : Consistent lib owns s) (harness : HarnessId) (world : World) :
    Consistent lib owns (s.refreshLive lib harness world).2 := by
  rcases s.refreshLive_cases lib _ _ with
    ⟨error, heq⟩ | ⟨-, heq⟩ | ⟨detected, credentials, createdAt, hdet, hcre, heq⟩
  · rw [heq]
    exact h
  · rw [heq]
    exact h
  · rw [heq]
    have hkey : s.liveKey lib harness = some detected.accountKey := by
      rw [← Stores.detect_key, hdet]
      rfl
    have hstor := Stores.stored_of_readable ((Stores.detect_credentials hdet).mp hcre)
    refine ⟨h.live, fun other id slot hslot => ?_, fun other => ?_⟩
    · rw [Stores.readSlot_save] at hslot
      split at hslot
      · rename_i hsame
        obtain ⟨hoth, hid⟩ := hsame
        obtain rfl := some.inj hslot
        obtain rfl : other = harness := hoth
        exact ⟨hid, h.live _ _ _ hkey hstor, Stores.slotOf_names hdet hcre _ _⟩
      · exact h.slots _ _ _ hslot
    · change Assoc.Keyed (if other = harness then _ else _)
      split
      · exact (h.keyed _).update _ _
      · exact h.keyed _

theorem switched (h : Consistent lib owns s) {id : String} {slot : Slot} {merged : Value}
    (hslot : s.readSlot .claudeCode id = some slot) (hmer : s.mergeClaudeConfig slot = .ok merged) :
    Consistent lib owns (s.switched slot merged) := by
  obtain ⟨-, hcod, hslo⟩ := s.putCredentials_config _
  have hown := h.slots _ _ _ hslot
  refine ⟨fun harness key credentials hkey hstor => ?_, fun harness other saved hsav => ?_, fun harness => ?_⟩
  · cases harness with
    | claudeCode =>
      rw [Stores.switched_liveKey hmer, hown.named] at hkey
      rw [Stores.switched_stored] at hstor
      obtain rfl := some.inj hkey
      obtain rfl := some.inj hstor
      rw [personal_composeClaudeCredentials]
      exact hown.own
    | codex =>
      refine h.live _ key _ ?_ ?_
      · rw [← hkey]
        change _ = ((readJson (s.putCredentials _).codexAuthFile).bind _).map _
        rw [hcod]
        rfl
      · rw [← hstor]
        change _ = (s.putCredentials _).codexAuthFile.content
        rw [hcod]
        rfl
    | opencode => nomatch hkey
  · refine h.slots _ _ _ ?_
    rw [← hsav]
    change _ = (Assoc.get other ((s.putCredentials _).slotsDir harness)).bind _
    rw [hslo]
    rfl
  · change Assoc.Keyed ((s.putCredentials _).slotsDir harness)
    rw [hslo]
    exact h.keyed _

theorem switchedCodex (h : Consistent lib owns s) {id : String} {slot : Slot} (hslot : s.readSlot .codex id = some slot) :
    Consistent lib owns (s.switchedCodex slot) := by
  have hown := h.slots _ _ _ hslot
  refine ⟨fun harness key credentials hkey hstor => ?_, h.slots, h.keyed⟩
  cases harness with
  | claudeCode => exact h.live _ key _ hkey hstor
  | codex =>
    rw [Stores.switchedCodex_liveKey s hown.named] at hkey
    obtain rfl := some.inj hkey
    obtain rfl := some.inj hstor
    exact hown.own
  | opencode => nomatch hkey

theorem remove (h : Consistent lib owns s) (harness : HarnessId) (accountId : String) :
    Consistent lib owns (s.setSlots harness (Assoc.erase accountId (s.slotsDir harness))) := by
  refine ⟨h.live, fun other id slot hslot => ?_, fun other => ?_⟩
  · rw [Stores.readSlot_setSlots] at hslot
    split at hslot
    · rename_i hoth
      subst hoth
      rw [Assoc.get_erase (h.keyed _)] at hslot
      split at hslot
      · exact absurd hslot.symm (some_ne_none _)
      · exact h.slots _ _ _ hslot
    · exact h.slots _ _ _ hslot
  · change Assoc.Keyed (if other = harness then _ else _)
    split
    · exact (h.keyed _).erase _
    · exact h.keyed _

end Consistent

/-- What a switch that succeeds leaves: the login of the slot, with the live login from before in its own slot. -/
structure Switched (lib : Libraries) (s : Stores) (harness : HarnessId) (accountId : String) (slot : Slot) (s' : Stores) :
    Prop where
  chosen : s'.readSlot harness accountId = some slot
  saved : (∀ key, s.liveKey lib harness = some key → lib.slotIdFor harness key ≠ accountId) → s.readSlot harness accountId = some slot
  key : s'.liveKey lib harness = some slot.accountKey
  identity : harness = .claudeCode →
    ((readJson s'.claudeConfigFile).bind fun config => config.get "oauthAccount") = some (Stores.oauthAccountOf slot)
  credentials : ∃ credentials, s'.stored harness = some credentials ∧
    Composed harness slot.credentials (s.readable harness) credentials
  own : (s'.stored harness).map (personal harness) = some (personal harness slot.credentials)
  backup : ∀ key credentials, s.liveKey lib harness = some key → s.readable harness = some credentials →
    ∃ saved, s'.readSlot harness (lib.slotIdFor harness key) = some saved ∧ saved.accountKey = key ∧ saved.credentials = credentials

namespace Stores

variable {lib : Libraries} {s : Stores} {harness : HarnessId} {accountId : String}

/-- A slot that is not the live account's is the one that was saved before. -/
theorem readSlot_refreshLive (world : World) (h : ∀ key, s.liveKey lib harness = some key → lib.slotIdFor harness key ≠ accountId) :
    (s.refreshLive lib harness world).2.readSlot harness accountId = s.readSlot harness accountId := by
  rcases s.refreshLive_cases lib _ _ with
    ⟨error, heq⟩ | ⟨-, heq⟩ | ⟨detected, credentials, createdAt, hdet, -, heq⟩
  · rw [heq]
  · rw [heq]
  · have hkey : s.liveKey lib harness = some detected.accountKey := by
      rw [← detect_key, hdet]
      rfl
    rw [heq, readSlot_save, if_neg]
    rintro ⟨-, hid⟩
    exact h _ hkey hid.symm

/-- A switch fails and leaves the live login, or succeeds; it keeps the stores consistent either way. -/
theorem activate_spec {owns : HarnessId → String → Value → Prop} {world : World} (h : Consistent lib owns s)
    (hres : Restores lib s harness world (.activate accountId)) :
    (∃ error s', s.activate lib harness accountId world = (.error error, s') ∧ s.SameLive s' ∧ Consistent lib owns s') ∨
    ∃ slot s', s.activate lib harness accountId world = (.ok (), s') ∧ Switched lib s harness accountId slot s' ∧
      Consistent lib owns s' := by
  have href := h.refreshLive harness world
  have hsame := s.refreshLive_sameLive lib harness world
  unfold activate
  rcases s.prepare_cases lib _ _ _ with ⟨error, heq | heq⟩ | ⟨live, slot, s', hrefr, hslot, heq⟩
  · rw [heq]
    exact .inl ⟨error, s, rfl, SameLive.refl s, h⟩
  · rw [heq]
    exact .inl ⟨error, _, rfl, hsame, href⟩
  · have hbac : ∀ key credentials, s.liveKey lib harness = some key → s.readable harness = some credentials →
        ∃ saved, s'.readSlot harness (lib.slotIdFor harness key) = some saved ∧ saved.accountKey = key ∧
          saved.credentials = credentials := fun _ _ hkey hread => refreshLive_saves hrefr hkey hread
    have hsav : (∀ key, s.liveKey lib harness = some key → lib.slotIdFor harness key ≠ accountId) →
        some slot = s.readSlot harness accountId := by
      intro hno
      have hread := readSlot_refreshLive world hno
      rw [hrefr] at hread
      exact hslot.symm.trans hread
    rw [hrefr] at href hsame
    dsimp only at href hsame
    rw [heq]
    have hown := href.slots _ _ _ hslot
    cases harness with
    | claudeCode =>
      have hmerS : s'.mergeClaudeConfig slot = s.mergeClaudeConfig slot := by
        rw [hsame]
        rfl
      have hback : ∀ merged, s'.mergeClaudeConfig slot = .ok merged → world.writeCredentials = none →
          world.writeConfig ≠ none → s'.readable .claudeCode ≠ none ∧ world.restoreCredentials = none := by
        intro merged hmer hwri hcon
        rw [hsame.readable]
        exact hres rfl slot _ (by rw [heq]) (hmerS ▸ hmer) hwri hcon
      rcases activateClaude_cases hback with ⟨error, herr⟩ | ⟨merged, hmer, hok⟩
      · exact .inl ⟨error, s', herr, hsame, href⟩
      · have hslo : (s'.switched slot merged).slotsDir = s'.slotsDir := (s'.putCredentials_config _).2.2
        have hread : ∀ harness id, (s'.switched slot merged).readSlot harness id = s'.readSlot harness id := by
          intro harness id
          unfold readSlot
          rw [hslo]
        obtain ⟨hobj, hoau, -⟩ := mergeClaudeConfig_spec hmer
        refine .inr ⟨slot, _, hok, ⟨(hread _ _).trans hslot, fun hno => (hsav hno).symm, ?_, fun _ => ?_, ?_, ?_, ?_⟩,
          href.switched hslot hmer⟩
        · rw [switched_liveKey hmer]
          exact hown.named
        · change ((readJson (.holds merged)).bind _) = _
          rw [readJson_holds hobj, Option.bind_some, hoau]
        · refine ⟨_, switched_stored s' slot _, ?_⟩
          rw [hsame.readable]
          exact composed_composeClaudeCredentials _ _
        · rw [switched_stored]
          exact congrArg some (personal_composeClaudeCredentials _ _)
        · intro key credentials hkey hcre
          rw [hread]
          exact hbac key _ hkey hcre
    | codex =>
      rcases activateCodex_cases s' slot _ with ⟨error, herr⟩ | hok
      · exact .inl ⟨error, s', herr, hsame, href⟩
      · refine .inr ⟨slot, _, hok, ⟨hslot, fun hno => (hsav hno).symm, switchedCodex_liveKey s' hown.named,
          fun hhar => (nomatch hhar), ⟨_, rfl, .inr ⟨fun hcla => (nomatch hcla.1), rfl⟩⟩,
          rfl, hbac⟩,
          href.switchedCodex hslot⟩
    | opencode => exact .inl ⟨_, s', rfl, hsame, href⟩

end Stores

namespace Consistent

variable {lib : Libraries} {owns : HarnessId → String → Value → Prop} {s : Stores}

/-- An operation keeps the stores consistent. -/
theorem perform (h : Consistent lib owns s) {harness : HarnessId} {world : World} {operation : Operation}
    (hres : Restores lib s harness world operation) : Consistent lib owns (s.perform lib harness world operation) := by
  have href := h.refreshLive harness world
  cases operation with
  | list =>
    change Consistent lib owns (s.list lib harness world).2
    unfold Stores.list
    cases hrefr : s.refreshLive lib _ _ with
    | mk result s' =>
      rw [hrefr] at href
      cases result with
      | error error => exact href
      | ok live =>
        dsimp only [Result.andThen]
        split <;> exact href
  | activate accountId =>
    change Consistent lib owns (s.activate lib harness accountId world).2
    rcases Stores.activate_spec h hres with ⟨error, s', heq, -, haft⟩ | ⟨-, s', heq, -, haft⟩
    · rw [heq]
      exact haft
    · rw [heq]
      exact haft
  | usageRequest accountId =>
    change Consistent lib owns (s.usageRequest lib harness accountId world).2
    have hboth : ∀ isLive : Bool, Consistent lib owns
        (if isLive then s.refreshLive lib harness world else ((.ok none, s) : Result (Option Detected))).2 := by
      intro isLive
      cases isLive with
      | true => exact href
      | false => exact h
    unfold Stores.usageRequest
    split
    · dsimp only
      specialize hboth ((s.liveKey lib harness).any fun key => lib.slotIdFor harness key == accountId)
      generalize (if ((s.liveKey lib harness).any fun key => lib.slotIdFor harness key == accountId) = true then
        s.refreshLive lib harness world else ((.ok none, s) : Result (Option Detected))) = refreshed at hboth ⊢
      obtain ⟨result, s'⟩ := refreshed
      cases result with
      | error error => exact hboth
      | ok live =>
        dsimp only [Result.andThen]
        split
        · exact hboth
        · split
          · exact hboth
          · split <;> exact hboth
    · exact h
  | remove accountId =>
    change Consistent lib owns (s.remove lib harness accountId world).2
    unfold Stores.remove
    split
    · cases hrefr : s.refreshLive lib _ _ with
      | mk result s' =>
        rw [hrefr] at href
        cases result with
        | error error => exact href
        | ok live =>
          dsimp only [Result.andThen]
          split
          · exact href
          · split
            · exact href
            · exact href.remove _ _
    · exact h

theorem reach {s₀ : Stores} (h : Consistent lib owns s₀) (hrch : Reach lib s₀ s) : Consistent lib owns s := by
  induction hrch with
  | start => exact h
  | step harness world operation _ hres ih => exact ih.perform hres

end Consistent

/-- Along every run whose switches restore what they cannot finish, each saved login is its account's; a switch that fails
leaves the live login, a switch that succeeds signs in to the login of the slot and saves the one it replaces; and switching
to a login and back brings its credentials back. -/
theorem logins_kept {lib : Libraries} {owns : HarnessId → String → Value → Prop} {s₀ s : Stores}
    (h : Consistent lib owns s₀) (hreach : Reach lib s₀ s) :
    (∀ harness id slot, s.readSlot harness id = some slot →
      owns harness slot.accountKey (personal harness slot.credentials)) ∧
    (∀ harness accountId world, Restores lib s harness world (.activate accountId) →
      (∀ error s', s.activate lib harness accountId world = (.error error, s') → s.SameLive s') ∧
      (∀ s', s.activate lib harness accountId world = (.ok (), s') →
        ∃ slot, Switched lib s harness accountId slot s')) ∧
    (∀ harness key credentials accountId world s₁ s₂ world' s₃, s.liveKey lib harness = some key →
      s.readable harness = some credentials → Restores lib s harness world (.activate accountId) →
      s.activate lib harness accountId world = (.ok (), s₁) → Reach lib s₁ s₂ →
      Restores lib s₂ harness world' (.activate (lib.slotIdFor harness key)) →
      s₂.activate lib harness (lib.slotIdFor harness key) world' = (.ok (), s₃) →
      s₃.liveKey lib harness = some key ∧
        (s₃.stored harness).map (personal harness) = some (personal harness credentials)) := by
  have hs := h.reach hreach
  refine ⟨fun harness id slot hslot => (hs.slots harness id slot hslot).own, fun harness accountId world hrestores => ?_, ?_⟩
  · rcases Stores.activate_spec hs hrestores with ⟨error, s', heq, hsame, -⟩ | ⟨slot, s', heq, hswitched, -⟩
    · refine ⟨fun error' s'' heq' => ?_, fun s'' heq' => ?_⟩
      · rw [heq] at heq'
        rw [← (Prod.mk.inj heq').2]
        exact hsame
      · rw [heq] at heq'
        nomatch heq'
    · refine ⟨fun error' s'' heq' => ?_, fun s'' heq' => ?_⟩
      · rw [heq] at heq'
        nomatch heq'
      · rw [heq] at heq'
        rw [← (Prod.mk.inj heq').2]
        exact ⟨slot, hswitched⟩
  · intro harness key credentials accountId world s₁ s₂ world' s₃ hkey hread hrestores hto hreach' hrestores' hback
    -- The accounts with the id of the account that is left are that account, with the credentials it was left with.
    let owns' : HarnessId → String → Value → Prop := fun other otherKey value => other = harness →
      lib.slotIdFor harness otherKey = lib.slotIdFor harness key → otherKey = key ∧ value = personal harness credentials
    have hleft : Consistent lib owns' s₁ := by
      rcases Stores.activate_spec hs hrestores with ⟨error, s', heq, -, -⟩ | ⟨slot, s', heq, hswitched, hafter⟩
      · rw [heq] at hto
        nomatch hto
      rw [heq] at hto
      obtain rfl := (Prod.mk.inj hto).2
      obtain ⟨saved, hsaved, hsavedKey, hsavedCredentials⟩ := hswitched.backup key credentials hkey hread
      have hslots : ∀ id found, s'.readSlot harness id = some found →
          lib.slotIdFor harness found.accountKey = lib.slotIdFor harness key →
          found.accountKey = key ∧ personal harness found.credentials = personal harness credentials := by
        intro id found hfound hid
        rw [(hafter.slots _ _ _ hfound).id, hid, hsaved] at hfound
        obtain rfl := Option.some.inj hfound
        exact ⟨hsavedKey, congrArg (personal harness) hsavedCredentials⟩
      refine ⟨?_, ?_, hafter.keyed⟩
      · intro other otherKey value hotherKey hvalue hother hid
        subst hother
        rw [hswitched.key] at hotherKey
        obtain rfl := Option.some.inj hotherKey
        obtain ⟨hsame, hpersonal⟩ := hslots _ _ hswitched.chosen hid
        have hown := hswitched.own
        rw [hvalue] at hown
        exact ⟨hsame, (Option.some.inj hown).trans hpersonal⟩
      · intro other id found hfound
        refine ⟨(hafter.slots _ _ _ hfound).id, ?_, (hafter.slots _ _ _ hfound).named⟩
        intro hother hid
        subst hother
        exact hslots _ _ hfound hid
    have hthere := hleft.reach hreach'
    rcases Stores.activate_spec hthere hrestores' with ⟨error, s', heq, -, -⟩ | ⟨slot, s', heq, hswitched, hafter⟩
    · rw [heq] at hback
      nomatch hback
    · rw [heq] at hback
      obtain rfl := (Prod.mk.inj hback).2
      have hslot := hafter.slots _ _ _ hswitched.chosen
      obtain ⟨hslotKey, hpersonal⟩ := hslot.own rfl hslot.id.symm
      rw [hswitched.key, hswitched.own, hslotKey, hpersonal]
      exact ⟨rfl, rfl⟩

/-! ### Two accounts -/

/-- Libraries that have the digests of two accounts. -/
def demoLibraries : Libraries where
  sha256 text :=
    if text = "claude-code:uuid-alice" then [44, 173, 10, 240, 67, 9, 69, 195]
    else if text = "claude-code:uuid-bob" then [243, 9, 15, 189, 142, 148, 136, 26]
    else []
  jwtClaims _ := none
  toUppercase c := String.singleton c.toUpper

def demoOauthAccount (uuid email : String) : Value :=
  .object [("accountUuid", .string uuid), ("emailAddress", .string email)]

def demoOauth (token : String) : Value := .object [("claudeAiOauth", .object [("accessToken", .string token)])]

/-- The token of Claude Code's credentials. -/
def demoToken (credentials : Value) : Option String :=
  (credentials.pointer ["claudeAiOauth", "accessToken"]).bind Value.asStr

/-- The second account's saved login. -/
def demoSlot (credentials : Value) : Slot where
  id := "f3090fbd8e94881a"
  harness := .claudeCode
  accountKey := "uuid-bob"
  profile := { email := "bob@example.com", displayName := none, organization := none, plan := none }
  credentials := credentials
  claudeConfig := some (.object [("oauthAccount", demoOauthAccount "uuid-bob" "bob@example.com")])
  savedAt := 1
  createdAt := some 1

/-- The first account is named; the second is saved. -/
def demoStores (live : File Value) (saved : Value) : Stores where
  claudeConfigFile := .holds (.object [("oauthAccount", demoOauthAccount "uuid-alice" "alice@example.com")])
  claudeCredentialsFile := live
  codexAuthFile := .absent
  keychain := none
  slotsDir harness := if harness = .claudeCode then [("f3090fbd8e94881a", .holds (demoSlot saved))] else []

/-- Each of the two accounts has its token. -/
def demoOwns (_ : HarnessId) (key : String) (credentials : Value) : Prop :=
  demoToken credentials = some (if key = "uuid-alice" then "token-alice" else "token-bob")

/-- Nothing fails. -/
def demoWorld : World where
  now := 2
  readDir := none
  writeSlot := none
  writeConfig := none
  writeCredentials := none
  restoreCredentials := none
  writeAuth := none
  removeSlot := none

theorem demoStores_consistent {live : File Value}
    (h : ∀ credentials, live.content = some credentials → demoOwns .claudeCode "uuid-alice" (personal .claudeCode credentials)) :
    Consistent demoLibraries demoOwns (demoStores live (demoOauth "token-bob")) := by
  refine ⟨fun harness key credentials hkey hstor => ?_, fun harness id slot hslot => ?_, fun harness => ?_⟩
  · cases harness with
    | claudeCode =>
      obtain rfl : "uuid-alice" = key := some.inj hkey
      exact h _ hstor
    | codex => nomatch hkey
    | opencode => nomatch hkey
  · cases harness with
    | claudeCode =>
      obtain ⟨file, hfile, hcont⟩ := Option.bind_eq_some_iff.mp hslot
      obtain ⟨rfl, rfl⟩ := Prod.mk.inj (mem_singleton.mp (Assoc.mem_of_get hfile))
      obtain rfl := some.inj hcont
      exact ⟨rfl, rfl, rfl⟩
    | codex => nomatch hslot
    | opencode => nomatch hslot
  · cases harness with
    | claudeCode => exact nodup_singleton _
    | codex => exact nodup_nil
    | opencode => exact nodup_nil

theorem signedIn_consistent :
    Consistent demoLibraries demoOwns (demoStores (.holds (demoOauth "token-alice")) (demoOauth "token-bob")) := by
  refine demoStores_consistent fun credentials h => ?_
  obtain rfl := some.inj h
  rfl

/-- After the live login has been listed, a switch signs in to the second account and keeps the first's login. -/
theorem logins_kept_switch :
    ∃ slot, Switched demoLibraries
      ((demoStores (.holds (demoOauth "token-alice")) (demoOauth "token-bob")).perform demoLibraries .claudeCode demoWorld .list)
      .claudeCode "f3090fbd8e94881a" slot
      (((demoStores (.holds (demoOauth "token-alice")) (demoOauth "token-bob")).perform demoLibraries .claudeCode demoWorld
        .list).activate demoLibraries .claudeCode "f3090fbd8e94881a" demoWorld).2 :=
  ((logins_kept
    signedIn_consistent
    (Reach.step .claudeCode demoWorld .list Reach.start trivial)).2.1 .claudeCode "f3090fbd8e94881a" demoWorld
      (fun _ _ _ _ _ _ hconfig => absurd rfl hconfig)).2 _ rfl

/-- Without live credentials, a switch that cannot write the identity fails and leaves the credentials of the slot, which the
next list saves as those of the account that is named. And credentials that are no login keep their own shared tokens. -/
theorem switch_not_undone :
    (∃ reason, ((demoStores .absent (demoOauth "token-bob")).activate demoLibraries .claudeCode "f3090fbd8e94881a"
      { demoWorld with writeConfig := some "disk full" }).1 = .error reason) ∧
    Consistent demoLibraries demoOwns (demoStores .absent (demoOauth "token-bob")) ∧
    (demoStores .absent (demoOauth "token-bob")).stored .claudeCode = none ∧
    (((demoStores .absent (demoOauth "token-bob")).perform demoLibraries .claudeCode
      { demoWorld with writeConfig := some "disk full" } (.activate "f3090fbd8e94881a")).stored .claudeCode).bind demoToken =
      some "token-bob" ∧
    (∃ slot, (((demoStores .absent (demoOauth "token-bob")).perform demoLibraries .claudeCode
      { demoWorld with writeConfig := some "disk full" } (.activate "f3090fbd8e94881a")).perform demoLibraries .claudeCode
      demoWorld .list).readSlot .claudeCode "2cad0af0430945c3" = some slot ∧ slot.accountKey = "uuid-alice" ∧
      ¬demoOwns .claudeCode slot.accountKey (personal .claudeCode slot.credentials)) ∧
    ((demoStores (.holds (.object [("claudeAiOauth", .null), ("mcpOAuth", .string "live")]))
      (.object [("apiKey", .string "sk-x"), ("mcpOAuth", .string "stale")])).activate demoLibraries .claudeCode
      "f3090fbd8e94881a" demoWorld).1 = .ok () ∧
    (((demoStores (.holds (.object [("claudeAiOauth", .null), ("mcpOAuth", .string "live")]))
      (.object [("apiKey", .string "sk-x"), ("mcpOAuth", .string "stale")])).perform demoLibraries .claudeCode demoWorld
      (.activate "f3090fbd8e94881a")).stored .claudeCode).bind (fun credentials => credentials.get "mcpOAuth") =
      some (.string "stale") := by
  refine ⟨⟨_, rfl⟩, demoStores_consistent (fun _ h => (nomatch h)), rfl, rfl, ⟨_, rfl, rfl, ?_⟩, rfl, rfl⟩
  intro h
  have htoken : some "token-bob" = some "token-alice" := h
  exact absurd htoken (by decide)

end Accounts

end Wu
