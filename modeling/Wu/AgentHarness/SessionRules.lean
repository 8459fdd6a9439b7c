import Wu.AgentChat.Session
import Wu.Wildcard

/-!
# The permission rules of an OpenCode session

OpenCode reads a list of rules from its end: the last rule whose wildcards stand for the permission and the resource decides.
The rules of a session come after those of its agent. They restate the agent's rules for some permissions, with `ask` in place of
`allow` where the chat's mode wants to be asked.
-/

namespace Wu.OpenCode

open List

open Wildcard AgentChat

/-- The permissions whose rules a session restates. -/
def sessionRulePermissions : List String := ["edit", "bash", "webfetch", "task"]

/-- A rule: what it says about the resources a wildcard stands for, for the permissions another one stands for. -/
structure Rule where
  permission : String
  pattern : String
  action : String
  deriving DecidableEq

namespace Rule

/-- A rule in JSON. A value without one of the strings is no rule. -/
def ofValue (rule : Value) : Option Rule :=
  (rule.get "permission").bind fun permission => permission.asStr.bind fun permission =>
    (rule.get "pattern").bind fun pattern => pattern.asStr.bind fun pattern =>
      (rule.get "action").bind fun action => action.asStr.map fun action => ⟨permission, pattern, action⟩

def toValue (rule : Rule) : Value :=
  .object [("permission", .string rule.permission), ("pattern", .string rule.pattern), ("action", .string rule.action)]

@[simp] theorem ofValue_toValue (rule : Rule) : ofValue rule.toValue = some rule := by
  simp [ofValue, toValue, Value.get, Value.lookupEntry, Value.asStr]

end Rule

/-- The rules of a JSON array. -/
def readRules (rules : Value) : List Rule := (rules.asArray.getD []).filterMap Rule.ofValue

/-- The position of the last element with a property. -/
def rposition {T : Type} (p : T → Bool) : List T → Option Nat
  | [] => none
  | x :: xs =>
    match rposition p xs with
    | some n => some (n + 1)
    | none => if p x then some 0 else none

/-- The rules that restate the agent's rules for a permission: those from the last catch-all on. -/
def restated (rules : List Rule) (forced : List String) (permission : String) : List Rule :=
  let matching := rules.filter fun rule => wildcardMatches rule.permission permission
  let effectiveStart := (rposition (fun rule => rule.pattern == "*") matching).getD 0
  (matching.drop effectiveStart).map fun rule =>
    { permission, pattern := rule.pattern
      action := if rule.action == "allow" && forced.contains permission then "ask" else rule.action }

/-- The rules of a session. -/
def sessionRules (agentRules : Value) (forced : List String) : List Value :=
  sessionRulePermissions.flatMap fun permission => (restated (readRules agentRules) forced permission).map Rule.toValue

/-! ## What rules say -/

/-- Whether a rule is about a permission and a resource. -/
def Rule.covers (permission resource : String) (rule : Rule) : Bool :=
  wildcardMatches rule.permission permission && wildcardMatches rule.pattern resource

/-- What rules say about a permission and a resource: what the last rule about them says. -/
def action (rules : List Rule) (permission resource : String) : Option String :=
  ((rules.filter (Rule.covers permission resource)).getLast?).map Rule.action

theorem action_append (rules later : List Rule) (permission resource : String) :
    action (rules ++ later) permission resource = (action later permission resource).or (action rules permission resource) := by
  unfold action
  rw [filter_append, List.getLast?_append]
  cases (later.filter _).getLast? <;> rfl

variable {permission : String}

/-- Rules that are not about a permission say nothing about it. -/
theorem action_eq_none {rules : List Rule}
    (h : ∀ rule ∈ rules, wildcardMatches rule.permission permission = false) (resource : String) :
    action rules permission resource = none := by
  have hnil : rules.filter (Rule.covers permission resource) = [] := by
    rw [filter_eq_nil_iff]
    intro rule hrule
    simp [Rule.covers, h rule hrule]
  rw [action, hnil]
  rfl

/-- The names that are restated are read as they are: they have no wildcards. -/
theorem plain_of_mem (h : permission ∈ sessionRulePermissions) : ∀ w ∈ permission.toList, w ≠ '*' ∧ w ≠ '?' := by
  have hall : (permission.toList.all fun w => w != '*' && w != '?') = true := by
    simp only [sessionRulePermissions, mem_cons, not_mem_nil, or_false] at h
    rcases h with rfl | rfl | rfl | rfl <;> rfl
  intro w hw
  have hpln := all_eq_true.mp hall w hw
  rw [Bool.and_eq_true, bne_iff_ne, bne_iff_ne] at hpln
  exact hpln

/-- The elements from the last one with a property on, or all of them. -/
theorem drop_rposition {T : Type} (p : T → Bool) (l : List T) :
    rposition p l = none ∨ ∃ before x after, l = before ++ x :: after ∧ p x = true ∧ rposition p l = some before.length := by
  induction l with
  | nil => exact .inl rfl
  | cons y ys ih =>
    rcases ih with hnone | ⟨before, x, after, rfl, hx, hpos⟩
    · by_cases hy : p y = true
      · exact .inr ⟨[], y, ys, rfl, hy, by simp [rposition, hnone, hy]⟩
      · exact .inl (by simp [rposition, hnone, hy])
    · exact .inr ⟨y :: before, x, after, rfl, hx, by simp [rposition, hpos]⟩

/-- The rules before the last catch-all decide nothing. -/
theorem getLast?_filter_drop (matching : List Rule) (resource : String) :
    ((matching.drop ((rposition (fun rule => rule.pattern == "*") matching).getD 0)).filter
      fun rule => wildcardMatches rule.pattern resource).getLast? =
    (matching.filter fun rule => wildcardMatches rule.pattern resource).getLast? := by
  rcases drop_rposition _ _ with hnone | ⟨before, x, after, hl, hx, hpos⟩
  · rw [hnone, Option.getD_none, drop_zero]
  · have hstar : wildcardMatches x.pattern resource = true := by
      rw [eq_of_beq hx]
      exact wildcardMatches_star _
    rw [hpos, Option.getD_some, hl, drop_left, filter_append, List.getLast?_append,
      filter_cons, if_pos hstar, List.getLast?_cons, Option.some_or]

/-- What is done with the action of a rule that is restated. -/
def restate (forced : List String) (permission action : String) : String :=
  if action == "allow" && forced.contains permission then "ask" else action

/-- The rules that restate the agent's rules for a permission say what the agent's rules say, `ask` for a forced `allow`. -/
theorem action_restated (h : permission ∈ sessionRulePermissions) (rules : List Rule) (forced : List String) (resource : String) :
    action (restated rules forced permission) permission resource =
      (action rules permission resource).map (restate forced permission) := by
  have hself : wildcardMatches permission permission = true := by
    rw [wildcardMatches_plain (plain_of_mem h)]
    exact decide_eq_true rfl
  unfold action restated
  rw [filter_map, List.getLast?_map]
  have hcov : (Rule.covers permission resource ∘ fun rule : Rule =>
      { permission, pattern := rule.pattern
        action := if rule.action == "allow" && forced.contains permission then "ask" else rule.action }) =
      fun rule => wildcardMatches rule.pattern resource := by
    funext rule
    simp [Rule.covers, hself]
  have hboth : rules.filter (Rule.covers permission resource) =
      (rules.filter fun rule => wildcardMatches rule.permission permission).filter
        fun rule => wildcardMatches rule.pattern resource := by
    rw [filter_filter]
    refine filter_congr ?_
    intro rule _
    exact Bool.and_comm _ _
  rw [hcov, getLast?_filter_drop, hboth, Option.map_map, Option.map_map]
  rfl

theorem action_restated_ne {name : String} (h : name ∈ sessionRulePermissions) (hne : name ≠ permission)
    (rules : List Rule) (forced : List String) (resource : String) :
    action (restated rules forced name) permission resource = none := by
  refine action_eq_none ?_ _
  intro rule hrule
  obtain ⟨-, -, rfl⟩ := mem_map.mp hrule
  rw [wildcardMatches_plain (plain_of_mem h)]
  exact decide_eq_false hne

/-- The rules of a session, read from JSON. -/
theorem read_sessionRules (agentRules : Value) (forced : List String) : (sessionRules agentRules forced).filterMap Rule.ofValue =
      sessionRulePermissions.flatMap (restated (readRules agentRules) forced) := by
  unfold sessionRules
  rw [filterMap_flatMap]
  congr 1
  funext permission
  rw [filterMap_map]
  have hsome : Rule.ofValue ∘ Rule.toValue = some := funext Rule.ofValue_toValue
  rw [hsome, filterMap_some]

/-- Rules that restate different permissions, one after another, say about one of them what its own say. -/
theorem action_flatMap_restated {names : List String} (hn : names.Nodup) (hs : names ⊆ sessionRulePermissions)
    (rules : List Rule) (forced : List String) (permission resource : String) :
    action (names.flatMap (restated rules forced)) permission resource =
      if permission ∈ names then (action rules permission resource).map (restate forced permission) else none := by
  induction names with
  | nil => rfl
  | cons name names ih =>
    obtain ⟨hname, hn⟩ := nodup_cons.mp hn
    obtain ⟨hmem, hs⟩ := cons_subset.mp hs
    rw [flatMap_cons, action_append, ih hn hs]
    by_cases heq : name = permission
    · subst heq
      rw [if_neg hname, if_pos (mem_cons_self ..), action_restated hmem, Option.none_or]
    · rw [action_restated_ne hmem heq]
      simp [Ne.symm heq]

/-- The agent's rules followed by those of the session, in JSON. -/
def withSessionRules (agentRules : Value) (forced : List String) : Value :=
  .array (agentRules.asArray.getD [] ++ sessionRules agentRules forced)

theorem action_withSessionRules (agentRules : Value) (forced : List String) (permission resource : String) :
    action (readRules (withSessionRules agentRules forced)) permission resource = if permission ∈ sessionRulePermissions then
        (action (readRules agentRules) permission resource).map (restate forced permission)
      else action (readRules agentRules) permission resource := by
  have hread : readRules (withSessionRules agentRules forced) =
      readRules agentRules ++ sessionRulePermissions.flatMap (restated (readRules agentRules) forced) := by
    rw [← read_sessionRules]
    exact filterMap_append
  rw [hread, action_append, action_flatMap_restated (by decide) (List.Subset.refl _)]
  split
  · cases action _ _ _ <;> rfl
  · rw [Option.none_or]

/-- The rules of a session never weaken those of its agent: with them the agent's rules say what they say without them, but
that a forced permission asks where it was allowed. -/
theorem session_rules_never_weaken (agentRules : Value) (forced : List String) (permission resource : String) :
    action (readRules (withSessionRules agentRules forced)) permission resource =
      (action (readRules agentRules) permission resource).map fun action =>
        if permission ∈ sessionRulePermissions ∧ permission ∈ forced ∧ action = "allow" then "ask" else action := by
  rw [action_withSessionRules]
  by_cases hp : permission ∈ sessionRulePermissions
  · rw [if_pos hp]
    congr 1
    funext act
    simp [restate, hp, and_comm]
  · rw [if_neg hp]
    simp [hp]

end Wu.OpenCode
