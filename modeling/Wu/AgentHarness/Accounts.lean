import Wu.Assoc
import Wu.AgentHarness.Value

/-!
# Saved logins

The logins of a harness that are saved in slots and switched between. Claude Code keeps the identity of its login in a
configuration file and the credentials in the keychain or in a file; Codex keeps one file. A file is written at once or not
at all.
-/

namespace Wu.Accounts

inductive HarnessId where
  | claudeCode
  | codex
  | opencode
  deriving DecidableEq, Repr

/-- The keys of the tokens that the logins of a machine share. -/
def claudeSharedCredentialKeys : List String :=
  ["mcpOAuth", "mcpOAuthClientConfig", "mcpXaaIdp", "mcpXaaIdpConfig", "pluginSecrets"]

structure Account where
  id : String
  harness : HarnessId
  label : String
  plan : Option String
  active : Bool

def opencodeNoAccounts : String :=
  "OpenCode manages its own provider logins (`opencode auth login`); Wu can't switch them"

def opencodeNoUsage : String := "OpenCode doesn't report plan usage"

structure Profile where
  email : String
  displayName : Option String
  organization : Option String
  plan : Option String

structure Slot where
  id : String
  harness : HarnessId
  accountKey : String
  profile : Profile
  credentials : Value
  claudeConfig : Option Value
  savedAt : Int
  createdAt : Option Int

/-- When the slot came to be. -/
def Slot.created (self : Slot) : Int := self.createdAt.getD self.savedAt

structure Detected where
  accountKey : String
  profile : Profile
  credentials : Except String (Option Value)
  claudeConfig : Option Value

structure UsageRequest where
  url : String
  headers : List (String × String)
  planLabel : Option String

/-- What is at a path: nothing, what cannot be parsed, or a content. -/
inductive File (α : Type) where
  | absent
  | unreadable
  | holds (content : α)

namespace File

variable {α : Type}

def isThere : File α → Bool
  | absent => false
  | _ => true

def content : File α → Option α
  | holds content => some content
  | _ => none

end File

/-- The item of Claude Code in the keychain, and whether reading it is denied. -/
structure Keychain where
  item : File Value
  denied : Bool

namespace Keychain

def hasItem (self : Keychain) : Bool := self.item.isThere

def read (self : Keychain) : Except String (Option Value) :=
  match self.item with
  | .absent => .ok none
  | .unreadable =>
    .error (if self.denied then "macOS Keychain denied access to the Claude Code login"
      else "The Claude Code Keychain entry could not be read")
  | .holds credentials =>
    if self.denied then .error "macOS Keychain denied access to the Claude Code login" else .ok (some credentials)

end Keychain

structure Stores where
  claudeConfigFile : File Value
  claudeCredentialsFile : File Value
  codexAuthFile : File Value
  keychain : Option Keychain
  /-- The files of the saved logins of a harness, by their names without the extension. -/
  slotsDir : HarnessId → List (String × File Slot)

/-- The libraries that the source uses: the digest of a text, the claims of a JSON web token, a letter in upper case. -/
structure Libraries where
  sha256 : String → List UInt8
  jwtClaims : String → Option Value
  toUppercase : Char → String

/-- What an operation meets: the time, and the error of each of its writes that fails. -/
structure World where
  now : Int
  readDir : Option String
  writeSlot : Option String
  writeConfig : Option String
  writeCredentials : Option String
  restoreCredentials : Option String
  writeAuth : Option String
  removeSlot : Option String

/-! ### Reading JSON -/

/-- The object that a file holds. -/
def readJson (file : File Value) : Option Value := file.content.filter Value.isObject

/-- A string that is not empty. -/
def strField (value : Value) (key : String) : Option String :=
  ((value.get key).bind Value.asStr).filter fun text => text ≠ ""

def harnessSlug : HarnessId → String
  | .claudeCode => "claude-code"
  | .codex => "codex"
  | .opencode => "opencode"

def hexDigit (n : Nat) : Char := if n < 10 then Char.ofNat (48 + n) else Char.ofNat (87 + n)

def hex (bytes : List UInt8) : String :=
  String.ofList (bytes.flatMap fun byte => [hexDigit (byte.toNat / 16), hexDigit (byte.toNat % 16)])

def Libraries.slotIdFor (lib : Libraries) (harness : HarnessId) (accountKey : String) : String :=
  hex ((lib.sha256 (harnessSlug harness ++ ":" ++ accountKey)).take 8)

/-- Whether an account id may name a slot: sixteen digits in base 16. -/
def isSlotId (accountId : String) : Bool :=
  accountId.toList.length == 16 && accountId.toList.all fun c => ('0' ≤ c && c ≤ '9') || ('a' ≤ c && c ≤ 'f')

/-! ### Plans and requests of usage -/

/-- The multiple at the end of a tier: digits after `_` and before `x`. -/
def tierMultiple (tier : String) : Option String :=
  match tier.toList.reverse with
  | 'x' :: stem =>
    let digits := (stem.takeWhile Char.isDigit).reverse
    let preceded := (stem.dropWhile Char.isDigit).head? == some '_'
    if !digits.isEmpty && preceded then some (String.ofList digits) else none
  | _ => none

def claudePlan (orgType tier : Option String) : Option String :=
  let base : Option String :=
    match orgType with
    | some "claude_max" => some "Max"
    | some "claude_pro" => some "Pro"
    | some "claude_team" => some "Team"
    | some "claude_enterprise" => some "Enterprise"
    | _ => none
  base.map fun base =>
    match tier.bind tierMultiple with
    | some multiple => base ++ " " ++ multiple ++ "×"
    | none => base

def codexPlan (lib : Libraries) (plan : Option String) : Option String :=
  match plan.map String.toList with
  | some (first :: rest) => some ("ChatGPT " ++ lib.toUppercase first ++ String.ofList rest)
  | _ => none

def claudeUsageRequest (credentials : Value) : Except String UsageRequest :=
  match credentials.get "claudeAiOauth" with
  | none => .error "Usage is only reported for Claude subscriptions"
  | some oauth =>
    match strField oauth "accessToken" with
    | none => .error "Sign in to Claude Code to see usage"
    | some accessToken =>
      .ok {
        url := "https://api.anthropic.com/api/oauth/usage"
        headers := [("Authorization", "Bearer " ++ accessToken), ("anthropic-beta", "oauth-2025-04-20"),
          ("Content-Type", "application/json")]
        planLabel := claudePlan ((strField oauth "subscriptionType").map ("claude_" ++ ·)) (strField oauth "rateLimitTier") }

def codexUsageRequest (auth : Value) : Except String UsageRequest :=
  match auth.get "tokens" with
  | none =>
    .error (if (strField auth "OPENAI_API_KEY").isSome then "Usage isn't reported for API keys"
      else "Sign in to Codex to see usage")
  | some tokens =>
    match strField tokens "access_token" with
    | none => .error "Sign in to Codex to see usage"
    | some accessToken =>
      .ok {
        url := "https://chatgpt.com/backend-api/wham/usage"
        headers := [("Authorization", "Bearer " ++ accessToken), ("chatgpt-account-id", (strField tokens "account_id").getD "")]
        planLabel := none }

/-! ### The live login -/

/-- The account that Claude Code's configuration names: its key, its profile, and what of the configuration is saved. -/
def identityOf (config : Value) : Option (String × Profile × Value) := do
  let oauth ← config.get "oauthAccount"
  let email ← strField oauth "emailAddress"
  let accountKey := (strField oauth "accountUuid").getD email
  let profile : Profile := {
    email := email
    displayName := strField oauth "displayName"
    organization := strField oauth "organizationName"
    plan := claudePlan (strField oauth "organizationType") (strField oauth "organizationRateLimitTier") }
  let userId := match (config.get "userID").bind Value.asStr with
    | some userId => [("userID", Value.string userId)]
    | none => []
  return (accountKey, profile, .object (("oauthAccount", oauth) :: userId))

/-- The login that an `auth.json` of Codex holds; the key of the account comes from the login itself. -/
def parseCodexAuth (lib : Libraries) (auth : Value) : Option Detected :=
  match (auth.pointer ["tokens", "id_token"]).bind Value.asStr with
  | some idToken =>
    let claims := (lib.jwtClaims idToken).getD (.object [])
    let openai := (claims.get "https://api.openai.com/auth").getD .null
    (strField claims "email").map fun email =>
      let workspace := strField openai "chatgpt_account_id"
      let user := (strField openai "chatgpt_user_id").or (strField openai "user_id")
      {
        accountKey := match user, workspace with
          | some user, some workspace => user ++ "::" ++ workspace
          | none, some workspace => workspace
          | _, none => email
        profile := {
          email := email
          displayName := strField claims "name"
          organization := none
          plan := codexPlan lib (strField openai "chatgpt_plan_type") }
        credentials := .ok (some auth)
        claudeConfig := none }
  | none =>
    (strField auth "OPENAI_API_KEY").map fun apiKey =>
      {
        accountKey := "api-key:" ++ hex ((lib.sha256 apiKey).take 6)
        profile := {
          email := "API key ·…" ++ String.ofList (apiKey.toList.drop (apiKey.toList.length - 4))
          displayName := none
          organization := none
          plan := some "API key" }
        credentials := .ok (some auth)
        claudeConfig := none }

/-- The credentials of a slot with the machine-shared keys of the live credentials. -/
def composeClaudeCredentials (target : Value) (live : Option Value) : Value :=
  match live, target with
  | some (.object live), .object entries =>
    if (target.get "claudeAiOauth").isSome then
      let composed := entries.filter fun entry => entry.1 ∉ claudeSharedCredentialKeys
      .object (claudeSharedCredentialKeys.foldl (fun composed key =>
        match Value.lookupEntry key live with
        | some value => Value.insertEntry key value composed
        | none => composed) composed)
    else target
  | _, _ => target

/-! ### The stores -/

/-- What an operation returns, and the stores after it. -/
abbrev Result (α : Type) := Except String α × Stores

/-- Go on from a result, unless it is an error. -/
def Result.andThen {α β : Type} (result : Result α) (next : α → Stores → Result β) : Result β :=
  match result with
  | (.ok value, s) => next value s
  | (.error error, s) => (.error error, s)

namespace Stores

def claudeIdentity (s : Stores) : Option (String × Profile × Value) := (readJson s.claudeConfigFile).bind identityOf

/-- The keychain comes first: the file may be stale beside it. -/
def readClaudeCredentials (s : Stores) : Except String (Option Value) :=
  match s.keychain with
  | none => .ok (readJson s.claudeCredentialsFile)
  | some keychain =>
    match keychain.read with
    | .error error => .error error
    | .ok (some credentials) => .ok (some credentials)
    | .ok none => .ok (readJson s.claudeCredentialsFile)

def claudeLoginPresent (s : Stores) : Bool :=
  (s.keychain.any fun keychain => keychain.hasItem) || s.claudeCredentialsFile.isThere

def writeClaudeCredentials (s : Stores) (credentials : Value) (failure : Option String) : Result Unit :=
  match failure with
  | some error => (.error error, s)
  | none =>
    match s.keychain with
    | some keychain =>
      if keychain.hasItem || !s.claudeCredentialsFile.isThere then
        (.ok (), { s with keychain := some { keychain with item := .holds credentials } })
      else (.ok (), { s with claudeCredentialsFile := .holds credentials })
    | none => (.ok (), { s with claudeCredentialsFile := .holds credentials })

def detectClaude (s : Stores) : Option Detected :=
  s.claudeIdentity.map fun (accountKey, profile, claudeConfig) =>
    { accountKey, profile, credentials := s.readClaudeCredentials, claudeConfig := some claudeConfig }

def detectCodex (lib : Libraries) (s : Stores) : Option Detected := (readJson s.codexAuthFile).bind (parseCodexAuth lib)

def detect (lib : Libraries) (s : Stores) : HarnessId → Option Detected
  | .claudeCode => s.detectClaude
  | .codex => s.detectCodex lib
  | .opencode => none

/-! ### Slots -/

/-- The login saved under an id. -/
def readSlot (s : Stores) (harness : HarnessId) (id : String) : Option Slot :=
  (Assoc.get id (s.slotsDir harness)).bind File.content

/-- The saved logins, the oldest first. -/
def readSlots (s : Stores) (harness : HarnessId) (world : World) : Except String (List Slot) :=
  match world.readDir with
  | some error => .error error
  | none =>
    let slots := (s.slotsDir harness).filterMap fun entry => entry.2.content
    .ok (slots.mergeSort fun a b => a.created < b.created || (a.created == b.created && decide (a.id ≤ b.id)))

def setSlots (s : Stores) (harness : HarnessId) (slots : List (String × File Slot)) : Stores :=
  { s with slotsDir := fun other => if other = harness then slots else s.slotsDir other }

/-- Save a login; a new one comes after all others. -/
def writeSlot (s : Stores) (slot : Slot) (world : World) : Result Unit :=
  let createdAt :=
    match s.readSlot slot.harness slot.id with
    | some existing => existing.created
    | none =>
      slot.createdAt.getD <|
        match s.readSlots slot.harness world with
        | .ok siblings => siblings.foldl (fun latest sibling => max latest (sibling.created + 1)) slot.savedAt
        | .error _ => slot.savedAt
  let full := { slot with createdAt := some createdAt }
  match world.writeSlot with
  | some error => (.error error, s)
  | none => (.ok (), s.setSlots slot.harness (Assoc.update slot.id (fun _ => .holds full) (s.slotsDir slot.harness)))

/-- The slot in which a live login is saved. -/
def slotOf (lib : Libraries) (harness : HarnessId) (live : Detected) (credentials : Value) (now : Int) : Slot where
  id := lib.slotIdFor harness live.accountKey
  harness := harness
  accountKey := live.accountKey
  profile := live.profile
  credentials := credentials
  claudeConfig := live.claudeConfig
  savedAt := now
  createdAt := none

/-- Find the live login and save it in its slot, when its credentials can be read. -/
def refreshLive (lib : Libraries) (s : Stores) (harness : HarnessId) (world : World) : Result (Option Detected) :=
  let live := s.detect lib harness
  match live with
  | some detected =>
    match detected.credentials with
    | .ok (some credentials) =>
      (s.writeSlot (slotOf lib harness detected credentials world.now) world).andThen fun _ s => (.ok live, s)
    | _ => (.ok live, s)
  | none => (.ok live, s)

/-! ### The operations -/

def list (lib : Libraries) (s : Stores) (harness : HarnessId) (world : World) : Result (List Account) :=
  (s.refreshLive lib harness world).andThen fun live s =>
    match s.readSlots harness world with
    | .error error => (.error error, s)
    | .ok slots =>
      let liveKey := live.map fun live => live.accountKey
      let accounts := slots.map fun slot =>
        { id := slot.id, harness, label := slot.profile.email, plan := slot.profile.plan,
          active := liveKey == some slot.accountKey }
      let unsaved := live.toList.filter fun live => slots.all fun slot => slot.accountKey ≠ live.accountKey
      (.ok (accounts ++ unsaved.map fun live =>
        { id := lib.slotIdFor harness live.accountKey, harness, label := live.profile.email, plan := live.profile.plan,
          active := true }), s)

/-- Why the live login is not switched away from. -/
def refusal (s : Stores) (harness : HarnessId) (live : Option Detected) : Option String :=
  match live with
  | some live =>
    match live.credentials with
    | .error reason => some ("Couldn't back up the current login before switching: " ++ reason)
    | .ok _ => none
  | none =>
    match harness with
    | .codex =>
      if s.codexAuthFile.isThere then
        some "Codex's auth.json holds a login that couldn't be read, so it can't be backed up. Not switching."
      else none
    | .claudeCode =>
      if s.claudeLoginPresent then
        some ("Claude Code is signed in, but ~/.claude.json doesn't say which account it is, " ++
          "so the login can't be backed up. Not switching.")
      else none
    | .opencode => none

/-- Back the live login up and read the slot to switch to. -/
def prepare (lib : Libraries) (s : Stores) (harness : HarnessId) (accountId : String) (world : World) : Result Slot :=
  if isSlotId accountId then
    (s.refreshLive lib harness world).andThen fun live s =>
      match s.refusal harness live with
      | some reason => (.error reason, s)
      | none =>
        match s.readSlot harness accountId with
        | some slot => (.ok slot, s)
        | none => (.error "That saved login no longer exists. Refresh and try again.", s)
  else (.error "Unknown account", s)

/-- The entry of the configuration that names the account of a slot. -/
def oauthAccountOf (slot : Slot) : Value :=
  (slot.claudeConfig.bind fun config => config.get "oauthAccount").getD (.object [ ("accountUuid", .string slot.accountKey),
    ("emailAddress", .string slot.profile.email),
    ("organizationName", (slot.profile.organization.map Value.string).getD .null),
    ("displayName", (slot.profile.displayName.map Value.string).getD .null)])

/-- Claude Code's configuration with the account of a slot in it. -/
def mergeClaudeConfig (s : Stores) (slot : Slot) : Except String Value :=
  if (readJson s.claudeConfigFile).isNone && s.claudeConfigFile.isThere then
    .error ("~/.claude.json exists but couldn't be parsed, so it was left alone. Fix or " ++ "remove the file and try again.")
  else
    match (readJson s.claudeConfigFile).getD (.object []) with
    | .object entries =>
      let entries := Value.insertEntry "oauthAccount" (oauthAccountOf slot) entries
      match (slot.claudeConfig.bind fun config => config.get "userID").bind Value.asStr with
      | some userId => .ok (.object (Value.insertEntry "userID" (.string userId) entries))
      | none => .ok (.object (entries.filter fun entry => entry.1 ≠ "userID"))
    | _ => .error "~/.claude.json is not a JSON object. Not switching."

def activateClaude (s : Stores) (slot : Slot) (world : World) : Result Unit :=
  match s.mergeClaudeConfig slot with
  | .error error => (.error error, s)
  | .ok merged =>
    match s.readClaudeCredentials with
    | .error error => (.error error, s)
    | .ok live =>
      let credentials := composeClaudeCredentials slot.credentials live
      (s.writeClaudeCredentials credentials world.writeCredentials).andThen fun _ s =>
        match world.writeConfig with
        | none => (.ok (), { s with claudeConfigFile := .holds merged })
        | some error =>
          match live with
          -- An error of this write is only logged.
          | some live => (.error error, (s.writeClaudeCredentials live world.restoreCredentials).2)
          | none => (.error error, s)

def activateCodex (s : Stores) (slot : Slot) (world : World) : Result Unit :=
  match world.writeAuth with
  | some error => (.error error, s)
  | none => (.ok (), { s with codexAuthFile := .holds slot.credentials })

/-- Switch to the login of a slot. -/
def switchTo (s : Stores) (harness : HarnessId) (slot : Slot) (world : World) : Result Unit :=
  match harness with
  | .claudeCode => s.activateClaude slot world
  | .codex => s.activateCodex slot world
  | .opencode => (.error opencodeNoAccounts, s)

def activate (lib : Libraries) (s : Stores) (harness : HarnessId) (accountId : String) (world : World) : Result Unit :=
  (s.prepare lib harness accountId world).andThen fun slot s => s.switchTo harness slot world

/-- The key of the live account. -/
def liveKey (lib : Libraries) (s : Stores) : HarnessId → Option String
  | .claudeCode => s.claudeIdentity.map fun identity => identity.1
  | .codex => (s.detectCodex lib).map fun live => live.accountKey
  | .opencode => none

def usageRequest (lib : Libraries) (s : Stores) (harness : HarnessId) (accountId : String) (world : World) : Result UsageRequest :=
  if isSlotId accountId then
    let isLive := (s.liveKey lib harness).any fun key => lib.slotIdFor harness key == accountId
    let refreshed : Result (Option Detected) :=
      if isLive then s.refreshLive lib harness world else (.ok none, s)
    refreshed.andThen fun live s =>
      match live.map Detected.credentials with
      | some (.error reason) => (.error reason, s)
      | _ =>
        match s.readSlot harness accountId with
        | none => (.error "That saved login no longer exists", s)
        | some slot =>
          match harness with
          | .claudeCode => (claudeUsageRequest slot.credentials, s)
          | .codex => (codexUsageRequest slot.credentials, s)
          | .opencode => (.error opencodeNoUsage, s)
  else (.error "Unknown account", s)

def remove (lib : Libraries) (s : Stores) (harness : HarnessId) (accountId : String) (world : World) : Result Unit :=
  if isSlotId accountId then
    (s.refreshLive lib harness world).andThen fun live s =>
      if live.any fun live => lib.slotIdFor harness live.accountKey == accountId then
        (.error "That account is signed in right now. Switch to another account before removing it.", s)
      else
        match world.removeSlot with
        | some error => (.error error, s)
        | none => (.ok (), s.setSlots harness (Assoc.erase accountId (s.slotsDir harness)))
  else (.error "Unknown account", s)

end Stores

/-- An operation on the saved logins of a harness. -/
inductive Operation where
  | list
  | activate (accountId : String)
  | usageRequest (accountId : String)
  | remove (accountId : String)

/-- The stores after an operation. -/
def Stores.perform (lib : Libraries) (s : Stores) (harness : HarnessId) (world : World) : Operation → Stores
  | .list => (s.list lib harness world).2
  | .activate accountId => (s.activate lib harness accountId world).2
  | .usageRequest accountId => (s.usageRequest lib harness accountId world).2
  | .remove accountId => (s.remove lib harness accountId world).2

end Wu.Accounts
