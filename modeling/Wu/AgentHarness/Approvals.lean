import Wu.AgentHarness.ServerRequests

/-!
# Approvals

Every request of the app-server is replied to once, under its id. A reply grants what is asked when prompts are skipped and
the request is an approval, or when an answer to the question of that very request has the label of a choice that allows it.
The reply depends on the answers to the questions of the request only.
-/

namespace Wu

open List Function

namespace Strings

theorem eqIgnoreAsciiCase_comm (a b : String) : eqIgnoreAsciiCase a b = eqIgnoreAsciiCase b a := Bool.beq_comm

end Strings

namespace Codex

/-! ## What a reply grants -/

/-- A reply that grants something. -/
def Grants (line : Value) : Prop :=
  line.pointer ["result", "decision"] = some (.string "accept") ∨
  line.pointer ["result", "action"] = some (.string "accept") ∨
  line.pointer ["result", "scope"] = some (.string "turn") ∨
  ∃ permissions, line.pointer ["result", "permissions"] = some permissions ∧ permissions ≠ .object []

/-- The choices that allow what a request asks, with the results they make. -/
def allowingChoices (newMessageId : Nat → String) (request : ServerRequest) : List (String × Value) :=
  if request.method = "item/tool/requestUserInput" then []
  else if request.method = "mcpServer/elicitation/request" then
    ((elicitationQuestion newMessageId request.params).elim [] Prod.snd).filter fun choice => choice.1 ≠ permissionDeny
  else if request.method = "item/permissions/requestApproval" then [(permissionAllow, granted request.params)]
  else if isApproval request.method then [(permissionAllow, decision "accept")]
  else []

/-- A request for permissions, to run a command or to change files. -/
def IsApprovalOrPermissions (request : ServerRequest) : Prop :=
  isApproval request.method = true ∨ request.method = "item/permissions/requestApproval"

/-- The answers have the label of a choice that allows what the request asks, for a question of the request; the reply is the
one of that choice. -/
def Consented (newMessageId : Nat → String) (request : ServerRequest) (questions : List UserInputQuestion)
    (answers : List UserInputAnswer) (line : Value) : Prop :=
  ∃ choice ∈ allowingChoices newMessageId request, line = respond request.id choice.2 ∧
    ∃ answer ∈ answers, ∃ question ∈ questions, answer.questionId = question.id ∧
      ∃ label ∈ answer.labels, Strings.eqIgnoreAsciiCase label choice.1 = true

section Replies

variable {id : Value} {newMessageId : Nat → String} {request : ServerRequest} {questions : List UserInputQuestion}
  {reply : List UserInputAnswer → Value} {answers answers' : List UserInputAnswer}

theorem not_grants_decline : ¬Grants (respond id decline) := by
  rintro (h | h | h | ⟨_, h, -⟩)
  · nomatch h
  · have heq := Value.string.inj (Option.some.inj h)
    exact absurd heq (by decide)
  · nomatch h
  · nomatch h

theorem not_grants_decision : ¬Grants (respond id (decision "decline")) := by
  rintro (h | h | h | ⟨_, h, -⟩)
  · have heq := Value.string.inj (Option.some.inj h)
    exact absurd heq (by decide)
  · nomatch h
  · nomatch h
  · nomatch h

theorem not_grants_permissions : ¬Grants (respond id (.object [("permissions", .object [])])) := by
  rintro (h | h | h | ⟨permissions, h, hne⟩)
  · nomatch h
  · nomatch h
  · nomatch h
  · exact hne (Option.some.inj h).symm

theorem not_grants_answers (entries : List (String × Value)) : ¬Grants (respond id (.object [("answers", .object entries)])) := by
  rintro (h | h | h | ⟨_, h, -⟩) <;> nomatch h

theorem not_grants_error (code : Int) (message : String) : ¬Grants (respondError id code message) := by
  rintro (h | h | h | ⟨_, h, -⟩) <;> nomatch h

/-! ## Answers -/

theorem allows_iff {id : String} : allows answers id = true ↔
    ∃ a ∈ answers, a.questionId = id ∧ ∃ label ∈ a.labels, Strings.eqIgnoreAsciiCase label permissionAllow = true := by
  unfold allows
  simp

/-- Whether something is allowed depends on the answers to the question, in any order. -/
theorem allows_perm {id : String}
    (h : (answers.filter fun a => a.questionId == id).Perm (answers'.filter fun a => a.questionId == id)) :
    allows answers id = allows answers' id := by
  have hmem : ∀ a, a ∈ answers ∧ a.questionId = id ↔ a ∈ answers' ∧ a.questionId = id := by
    intro a
    simpa only [mem_filter, beq_iff_eq] using h.mem_iff
  rw [Bool.eq_iff_iff, allows_iff, allows_iff]
  constructor
  · rintro ⟨a, ha, hid, hlab⟩
    obtain ⟨ha', -⟩ := (hmem a).mp ⟨ha, hid⟩
    exact ⟨a, ha', hid, hlab⟩
  · rintro ⟨a, ha, hid, hlab⟩
    obtain ⟨ha', -⟩ := (hmem a).mpr ⟨ha, hid⟩
    exact ⟨a, ha', hid, hlab⟩

theorem labelsOf_eq (answers : List UserInputAnswer) (id : String) :
    labelsOf answers id = ((answers.filter fun a => a.questionId == id).head?.map UserInputAnswer.labels).getD [] := by
  unfold labelsOf
  rw [head?_filter]

/-- The reply to an elicitation is the one of a choice that is the label of an answer to it, or declines. -/
theorem elicitationReply_spec (id : String) (replies : List (String × Value)) (answers : List UserInputAnswer) :
    elicitationReply id replies answers = decline ∨
    ∃ choice ∈ replies, elicitationReply id replies answers = choice.2 ∧ ∃ answer ∈ answers, answer.questionId = id ∧
        ∃ label ∈ answer.labels, Strings.eqIgnoreAsciiCase label choice.1 = true := by
  unfold elicitationReply
  cases hrep : List.findSome? _
      _ with
  | none => exact .inl rfl
  | some result =>
    obtain ⟨label, hlab, hfnd⟩ := List.exists_of_findSome?_eq_some hrep
    obtain ⟨choice, hcho, rfl⟩ := Option.map_eq_some_iff.mp hfnd
    obtain ⟨answer, hans, hin⟩ := mem_flatMap.mp hlab
    obtain ⟨hmem, hid⟩ := mem_filter.mp hans
    have heq := (List.find?_eq_some_iff_append.mp hcho).1
    refine .inr ⟨choice, List.mem_of_find?_eq_some hcho, rfl, answer, hmem, eq_of_beq hid, label, hin, ?_⟩
    rw [Strings.eqIgnoreAsciiCase_comm]
    exact heq

/-- The choice that denies an elicitation declines it. -/
theorem elicitationReplies_deny {persist : List String} {choice : String × Value}
    (h : choice ∈ elicitationReplies persist) (hdeny : choice.1 = permissionDeny) : choice.2 = decline := by
  unfold elicitationReplies at h
  simp only [mem_append, mem_singleton] at h
  rcases h with ((rfl | h) | h) | rfl
  · exact absurd hdeny (by decide)
  · split at h
    · obtain rfl := mem_singleton.mp h
      exact absurd hdeny (by decide)
    · nomatch h
  · split at h
    · obtain rfl := mem_singleton.mp h
      exact absurd hdeny (by decide)
    · nomatch h
  · rfl

theorem elicitationQuestion_replies {params : Value} {question : UserInputQuestion} {replies : List (String × Value)}
    (h : elicitationQuestion newMessageId params = some (question, replies)) :
    question.id = newMessageId 0 ∧ ∃ persist, replies = elicitationReplies persist := by
  unfold elicitationQuestion at h
  split at h
  · nomatch h
  · split at h
    · nomatch h
    · split at h
      · nomatch h
      · cases h
        exact ⟨rfl, _, rfl⟩

/-! ## Requests -/

/-- How a request comes to be asked about. -/
inductive Asks (newMessageId : Nat → String) (request : ServerRequest) :
    List UserInputQuestion → (List UserInputAnswer → Value) → Prop where
  | userInput (method : request.method = "item/tool/requestUserInput") :
      Asks newMessageId request ((userInputQuestions newMessageId request.params).map Prod.snd) fun answers =>
        respond request.id (.object [("answers", .object (answersById (userInputQuestions newMessageId request.params) answers))])
  | elicitation (method : request.method = "mcpServer/elicitation/request") (question : UserInputQuestion)
      (replies : List (String × Value))
      (asked : elicitationQuestion newMessageId request.params = some (question, replies)) :
      Asks newMessageId request [question] fun answers => respond request.id (elicitationReply question.id replies answers)
  | permissions (method : request.method = "item/permissions/requestApproval") (prompts : request.skipPrompts = false) :
      Asks newMessageId request [permissionsQuestion newMessageId request.params] fun answers =>
        respond request.id (if allows answers (permissionsQuestion newMessageId request.params).id then granted request.params
          else .object [("permissions", .object [])])
  | approval (method : isApproval request.method = true) (prompts : request.skipPrompts = false) :
      Asks newMessageId request [approvalQuestion newMessageId request.method request.params] fun answers =>
        respond request.id (decision (if allows answers (approvalQuestion newMessageId request.method request.params).id then "accept"
          else "decline"))

theorem asks_of_asking (h : handleServerRequest newMessageId request = .asking questions reply) :
    Asks newMessageId request questions reply := by
  unfold handleServerRequest at h
  split at h
  · rename_i hmet
    unfold handleUserInput at h
    dsimp only at h
    split at h
    · nomatch h
    · cases h
      exact .userInput hmet
  · split at h
    · rename_i hmet
      unfold handleElicitation at h
      split at h
      · nomatch h
      · rename_i question replies hask
        cases h
        exact .elicitation hmet _ _ hask
    · split at h
      · rename_i hmet
        unfold handlePermissions at h
        split at h
        · nomatch h
        · rename_i hpro
          cases h
          exact .permissions hmet (Bool.eq_false_iff.mpr hpro)
      · split at h
        · rename_i hmet
          unfold handleApproval at h
          split at h
          · nomatch h
          · rename_i hpro
            cases h
            exact .approval hmet (Bool.eq_false_iff.mpr hpro)
        · nomatch h

/-- A reply at once has the id of the request, and grants nothing unless prompts are skipped and the request is an
approval. -/
theorem replied_spec {line : Value} (h : handleServerRequest newMessageId request = .replied line) :
    line.get "id" = some request.id ∧ (Grants line → request.skipPrompts = true ∧ IsApprovalOrPermissions request) := by
  unfold handleServerRequest at h
  split at h
  · unfold handleUserInput at h
    dsimp only at h
    split at h
    · cases h
      exact ⟨rfl, fun hgra => absurd hgra (not_grants_answers _)⟩
    · nomatch h
  · split at h
    · unfold handleElicitation at h
      split at h
      · cases h
        exact ⟨rfl, fun hgra => absurd hgra not_grants_decline⟩
      · nomatch h
    · split at h
      · rename_i hmet
        unfold handlePermissions at h
        split at h
        · rename_i hskip
          cases h
          exact ⟨rfl, fun _ => ⟨hskip, .inr hmet⟩⟩
        · nomatch h
      · split at h
        · rename_i hmet
          unfold handleApproval at h
          split at h
          · rename_i hskip
            cases h
            exact ⟨rfl, fun _ => ⟨hskip, .inl hmet⟩⟩
          · nomatch h
        · cases h
          exact ⟨rfl, fun hgra => absurd hgra (not_grants_error _ _)⟩

/-- The content of questions is never answered without the user. -/
theorem handle_skipPrompts (h : ¬IsApprovalOrPermissions request) (skip : Bool) :
    handleServerRequest newMessageId { request with skipPrompts := skip } = handleServerRequest newMessageId request := by
  unfold handleServerRequest
  rw [if_neg fun hmet => h (.inr hmet), if_neg fun hmet => h (.inl hmet),
    if_neg fun hmet => h (.inr hmet), if_neg fun hmet => h (.inl hmet)]
  rfl

/-- A reply to answers has the id of the request. -/
theorem Asks.get_id (h : Asks newMessageId request questions reply) (answers : List UserInputAnswer) :
    (reply answers).get "id" = some request.id := by
  cases h <;> rfl

/-- The questions of a request have the next ids of the generator. -/
theorem Asks.question_ids (h : Asks newMessageId request questions reply) :
    questions.map UserInputQuestion.id = (List.range questions.length).map newMessageId := by
  cases h with
  | userInput method =>
    refine ext_getElem (by simp) fun ix h h' => ?_
    simp [userInputQuestions, userInputQuestion]
  | elicitation method question replies asked =>
    obtain ⟨hid, -⟩ := elicitationQuestion_replies asked
    exact congrArg (fun id => [id]) hid
  | permissions method prompts => rfl
  | approval method prompts => rfl

theorem allowingChoices_approval (h : isApproval request.method = true) :
    allowingChoices newMessageId request = [(permissionAllow, decision "accept")] := by
  unfold allowingChoices
  rw [if_neg, if_neg, if_neg, if_pos h]
  all_goals
    intro hmet
    rw [hmet] at h
    exact absurd h (by decide)

section

variable (h : Asks newMessageId request questions reply)
include h

/-- A reply to answers grants nothing that they do not allow. -/
theorem Asks.consented (hgra : Grants (reply answers)) : Consented newMessageId request questions answers (reply answers) := by
  cases h with
  | userInput method => exact absurd hgra (not_grants_answers _)
  | elicitation method question replies asked =>
    obtain ⟨-, persist, rfl⟩ := elicitationQuestion_replies asked
    rcases elicitationReply_spec _ _ _ with
      hdec | ⟨choice, hcho, hres, answer, hans, hid, hlab⟩
    · dsimp only at hgra
      rw [hdec] at hgra
      exact absurd hgra not_grants_decline
    · refine ⟨choice, ?_, congrArg _ hres, answer, hans, question, .head _, hid, hlab⟩
      have hallo : allowingChoices newMessageId request =
          (elicitationReplies persist).filter fun choice => choice.1 ≠ permissionDeny := by
        unfold allowingChoices
        rw [if_neg (by rw [method]; decide), if_pos method, asked]
        rfl
      rw [hallo]
      refine mem_filter.mpr ⟨hcho, decide_eq_true fun hdeny => ?_⟩
      dsimp only at hgra
      rw [hres, elicitationReplies_deny hcho hdeny] at hgra
      exact not_grants_decline hgra
  | permissions method prompts =>
    dsimp only at hgra ⊢
    split at hgra
    · rename_i hall
      obtain ⟨answer, hans, hid, hlab⟩ := allows_iff.mp hall
      rw [if_pos hall]
      refine ⟨(permissionAllow, granted _), ?_, rfl, answer, hans, _, .head _, hid, hlab⟩
      unfold allowingChoices
      rw [if_neg (by rw [method]; decide), if_neg (by rw [method]; decide), if_pos method]
      exact .head _
    · exact absurd hgra not_grants_permissions
  | approval method prompts =>
    dsimp only at hgra ⊢
    split at hgra
    · rename_i hall
      obtain ⟨answer, hans, hid, hlab⟩ := allows_iff.mp hall
      rw [if_pos hall]
      refine ⟨(permissionAllow, decision _), ?_, rfl, answer, hans, _, .head _, hid, hlab⟩
      rw [allowingChoices_approval method]
      exact .head _
    · exact absurd hgra not_grants_decision

/-- The reply depends on the answers to the questions of the request only. -/
theorem Asks.reply_congr (hanss : ∀ question ∈ questions, (answers.filter fun a => a.questionId == question.id) =
      answers'.filter fun a => a.questionId == question.id) : reply answers = reply answers' := by
  cases h with
  | userInput method =>
    refine congrArg (fun entries => respond _ (.object [("answers", .object entries)])) ?_
    refine foldl_ext _ _ _ fun byId entry hent => ?_
    unfold insertLabels
    rw [labelsOf_eq, labelsOf_eq, hanss _ (mem_map_of_mem hent)]
  | elicitation method question replies asked =>
    dsimp only
    unfold elicitationReply
    rw [hanss _ (.head _)]
  | permissions method prompts | approval method prompts =>
    dsimp only
    rw [allows_perm (List.Perm.of_eq (hanss _ (.head _)))]

/-- The reply to an approval depends on the answers to its question, in any order. -/
theorem Asks.reply_perm (happ : IsApprovalOrPermissions request)
    (hanss : ∀ question ∈ questions, (answers.filter fun a => a.questionId == question.id).Perm
      (answers'.filter fun a => a.questionId == question.id)) : reply answers = reply answers' := by
  cases h with
  | userInput method | elicitation method question replies asked =>
    unfold IsApprovalOrPermissions at happ
    rw [method] at happ
    exact absurd happ (by decide)
  | permissions method prompts | approval method prompts =>
    dsimp only
    rw [allows_perm (hanss _ (.head _))]

end

/-- The entry of a question whose wire id no later question has. -/
theorem lookupEntry_answersById {before after : List (String × UserInputQuestion)} {q : String × UserInputQuestion}
    (hlast : ∀ later ∈ after, later.1 ≠ q.1) :
    Value.lookupEntry q.1 (answersById (before ++ q :: after) answers) =
      some (.object [("answers", .array ((labelsOf answers q.2.id).map Value.string))]) := by
  unfold answersById
  rw [foldl_append, foldl_cons]
  have hlat : ∀ byId, Value.lookupEntry q.1 (after.foldl (insertLabels answers) byId) = Value.lookupEntry q.1 byId := by
    induction after with
    | nil => exact fun _ => rfl
    | cons later after ih =>
      intro byId
      rw [foldl_cons, ih fun other hoth => hlast _ (.tail _ hoth)]
      unfold insertLabels
      rw [Value.lookupEntry_insertEntry, if_neg (hlast _ (mem_cons_self ..)).symm]
  rw [hlat]
  unfold insertLabels
  rw [Value.lookupEntry_insertEntry, if_pos rfl]

/-- A question of a request for the user's input gets its labels under its wire id, unless a later question has that too. -/
theorem Asks.labels (h : Asks newMessageId request questions reply) (hmet : request.method = "item/tool/requestUserInput")
    {before after : List (String × UserInputQuestion)} {q : String × UserInputQuestion}
    (hque : userInputQuestions newMessageId request.params = before ++ q :: after)
    (hlast : ∀ later ∈ after, later.1 ≠ q.1) (answers : List UserInputAnswer) :
    (reply answers).pointer ["result", "answers", q.1] =
      some (.object [("answers", .array ((labelsOf answers q.2.id).map Value.string))]) := by
  cases h with
  | userInput method =>
    have hent : Value.lookupEntry q.1 (answersById (before ++ q :: after) answers) = _ := lookupEntry_answersById hlast
    rw [← hque] at hent
    change (Value.lookupEntry q.1 _).bind _ = _
    rw [hent]
    rfl
  | elicitation method question replies asked => exact absurd (hmet.symm.trans method) (by decide)
  | permissions method prompts => exact absurd (hmet.symm.trans method) (by decide)
  | approval method prompts =>
    rw [hmet] at method
    exact absurd method (by decide)

end Replies

/-! ## Runs -/

/-- How a request stands: what waits for the answers, what the answering side has done, and the lines that are queued. -/
inductive Handling.Stands : Handling → Option (List UserInputAnswer → Value) → Option (Option (List UserInputAnswer)) →
    List Value → Prop where
  | replied (line : Value) : Stands (.replied line) none none [line]
  | waiting (questions : List UserInputQuestion) (reply : List UserInputAnswer → Value) :
      Stands (.asking questions reply) (some reply) none []
  | answered (questions : List UserInputQuestion) (reply : List UserInputAnswer → Value)
      (answers : Option (List UserInputAnswer)) :
      Stands (.asking questions reply) none (some answers) [reply (answers.getD [])]

/-- The questions that are asked. -/
def Handling.questions : Handling → List UserInputQuestion
  | .replied _ => []
  | .asking questions _ => questions

namespace Requests

variable {newMessageId : Nat → String} {session session' : Requests} {n first : Nat} {request : ServerRequest}

/-- What a request leads to, when some ids were generated before. -/
def handling (newMessageId : Nat → String) (first : Nat) (request : ServerRequest) : Handling :=
  handleServerRequest (fun ix => newMessageId (first + ix)) request

/-- What holds in every run. -/
structure Inv (newMessageId : Nat → String) (session : Requests) : Prop where
  stands : ∀ (n : Nat) (first : Nat) (request : ServerRequest), session.requests[n]? = some (first, request) →
    (handling newMessageId first request).Stands (session.tasks n) (session.given n) (session.linesOf n)
  unknown : ∀ n ≥ session.requests.length, session.tasks n = none ∧ session.given n = none ∧ session.linesOf n = []
  before : ∀ (n : Nat) (first : Nat) (request : ServerRequest), session.requests[n]? = some (first, request) →
    first + (handling newMessageId first request).questions.length ≤ session.generated
  later : ∀ (n m first first' : Nat) (request request' : ServerRequest), n < m →
    session.requests[n]? = some (first, request) → session.requests[m]? = some (first', request') →
    first + (handling newMessageId first request).questions.length ≤ first'

theorem inv_new : Inv newMessageId new where
  stands _ _ _ h := nomatch h
  unknown _ _ := ⟨rfl, rfl, rfl⟩
  before _ _ _ h := nomatch h
  later _ _ _ _ _ _ _ h := nomatch h

theorem linesOf_concat {m : Nat} {line : Value} (hline : session'.lines = session.lines ++ [(m, line)]) (n : Nat) :
    session'.linesOf n = session.linesOf n ++ if m = n then [line] else [] := by
  unfold linesOf
  rw [hline]
  by_cases h : m = n <;> simp [h]

/-- What handling a request does. -/
structure Handled (newMessageId : Nat → String) (session : Requests) (request : ServerRequest) (session' : Requests) :
    Prop where
  requests : session'.requests = session.requests ++ [(session.generated, request)]
  generated : session'.generated = session.generated + (handling newMessageId session.generated request).questions.length
  others : ∀ n ≠ session.requests.length,
    session'.tasks n = session.tasks n ∧ session'.given n = session.given n ∧ session'.linesOf n = session.linesOf n
  stands : (handling newMessageId session.generated request).Stands (session'.tasks session.requests.length)
    (session'.given session.requests.length) (session'.linesOf session.requests.length)

theorem Inv.handled (inv : Inv newMessageId session) (request : ServerRequest) :
    Handled newMessageId session request (session.handle newMessageId request) := by
  obtain ⟨htask, hgiv, hlin⟩ := inv.unknown _ le_rfl
  unfold handle
  split
  · rename_i line hrep
    let handled : Requests :=
      { session with
        requests := session.requests ++ [(session.generated, request)]
        lines := session.lines ++ [(session.requests.length, line)] }
    have hline : ∀ n, handled.linesOf n = session.linesOf n ++ if session.requests.length = n then [line] else [] :=
      linesOf_concat rfl
    refine ⟨rfl, ?_, fun n hn => ⟨rfl, rfl, ?_⟩, ?_⟩
    · unfold handling
      rw [hrep]
      rfl
    · rw [hline, if_neg hn.symm, append_nil]
    · unfold handling
      rw [hline, if_pos rfl, hlin, htask, hgiv, hrep]
      exact .replied line
  · rename_i questions reply hask
    refine ⟨rfl, ?_, fun n hn => ⟨update_of_ne hn _ _, rfl, rfl⟩, ?_⟩
    · unfold handling
      rw [hask]
      rfl
    · unfold handling
      change Handling.Stands _ (Function.update session.tasks session.requests.length (some reply) session.requests.length)
        (session.given session.requests.length) (session.linesOf session.requests.length)
      rw [hask, update_self, hgiv, hlin]
      exact .waiting _ _

theorem Inv.handle (inv : Inv newMessageId session) (request : ServerRequest) :
    Inv newMessageId (session.handle newMessageId request) := by
  obtain ⟨hreqs, hgen, hoth, hsta⟩ := inv.handled _
  have hcase : ∀ (n first' : Nat) (request' : ServerRequest),
      (session.handle newMessageId request).requests[n]? = some (first', request') →
      session.requests[n]? = some (first', request') ∧ n < session.requests.length ∨
      n = session.requests.length ∧ first' = session.generated ∧ request' = request := by
    intro n first' request' h
    rw [hreqs, List.getElem?_append] at h
    split at h
    · rename_i hlt
      exact .inl ⟨h, hlt⟩
    · have hn : n - session.requests.length = 0 := by
        by_contra hne
        obtain ⟨k, hk⟩ := Nat.exists_eq_succ_of_ne_zero hne
        rw [hk] at h
        nomatch h
      rw [hn] at h
      cases h
      exact .inr ⟨by omega, rfl, rfl⟩
  constructor
  case stands =>
    intro n first' request' h
    rcases hcase n _ _ h with ⟨h, hlt⟩ | ⟨rfl, rfl, rfl⟩
    · obtain ⟨htask, hgiv, hline⟩ := hoth n (by omega)
      rw [htask, hgiv, hline]
      exact inv.stands n _ _ h
    · exact hsta
  case unknown =>
    intro n hn
    rw [hreqs, length_append, length_singleton] at hn
    obtain ⟨htask, hgiv, hline⟩ := hoth n (by omega)
    rw [htask, hgiv, hline]
    exact inv.unknown n (by omega)
  case before =>
    intro n first' request' h
    rw [hgen]
    rcases hcase n _ _ h with ⟨h, -⟩ | ⟨-, rfl, rfl⟩
    · have := inv.before n _ _ h
      omega
    · exact le_rfl
  case later =>
    intro n m first₁ first₂ request₁ request₂ hnm hn hm
    rcases hcase n _ _ hn with ⟨hbef, -⟩ | ⟨rfl, -, -⟩
    · rcases hcase m _ _ hm with ⟨hlat, -⟩ | ⟨-, rfl, -⟩
      · exact inv.later n m _ _ _ _ hnm hbef hlat
      · exact inv.before n _ _ hbef
    · rcases hcase m _ _ hm with ⟨-, hlt⟩ | ⟨rfl, -, -⟩ <;> omega

theorem Inv.answer (inv : Inv newMessageId session) {n : Nat} {reply : List UserInputAnswer → Value}
    (hask : session.tasks n = some reply) (answers : Option (List UserInputAnswer)) :
    Inv newMessageId (session.answer n reply answers) := by
  have hlin : ∀ m, (session.answer n reply answers).linesOf m =
      session.linesOf m ++ if n = m then [reply (answers.getD [])] else [] := linesOf_concat rfl
  have hoth : ∀ m ≠ n, (session.answer n reply answers).tasks m = session.tasks m ∧
      (session.answer n reply answers).given m = session.given m ∧
      (session.answer n reply answers).linesOf m = session.linesOf m := by
    intro m hm
    refine ⟨update_of_ne hm _ _, update_of_ne hm _ _, ?_⟩
    rw [hlin, if_neg hm.symm, append_nil]
  constructor
  case stands =>
    intro m first request h
    by_cases hm : m = n
    · subst hm
      have hsta := inv.stands m _ _ h
      rw [hask] at hsta
      rw [hlin, if_pos rfl]
      have htask : (session.answer m reply answers).tasks m = none := update_self _ _ _
      have hgiv : (session.answer m reply answers).given m = some answers := update_self _ _ _
      rw [htask, hgiv]
      generalize handling newMessageId first request = handling at hsta ⊢
      generalize session.given m = given, session.linesOf m = lines at hsta ⊢
      cases hsta with
      | waiting questions reply => exact .answered _ _ _
    · obtain ⟨htask, hgiv, hline⟩ := hoth m hm
      rw [htask, hgiv, hline]
      exact inv.stands m _ _ h
  case unknown =>
    intro m hm
    have hne : m ≠ n := by
      rintro rfl
      rw [(inv.unknown m hm).1] at hask
      nomatch hask
    obtain ⟨htask, hgiv, hline⟩ := hoth m hne
    rw [htask, hgiv, hline]
    exact inv.unknown m hm
  case before => exact inv.before
  case later => exact inv.later

theorem Reachable.inv (h : Reachable newMessageId session) : Inv newMessageId session := by
  induction h with
  | refl => exact inv_new
  | tail _ hstep ih =>
    cases hstep with
    | handle request => exact ih.handle _
    | answer n reply asked answers => exact ih.answer asked _

/-! ## Every request -/

/-- What is said of a request of a run. -/
structure Answered (newMessageId : Nat → String) (session : Requests) (n first : Nat) (request : ServerRequest) : Prop where
  /-- There is one line, unless the answers have not come. -/
  stands : (handling newMessageId first request).Stands (session.tasks n) (session.given n) (session.linesOf n)
  /-- Whatever the answering side does, the line follows. -/
  replies : ∀ reply, session.tasks n = some reply → ∀ answers, Step newMessageId session (session.answer n reply answers) ∧
    (session.answer n reply answers).linesOf n = [reply (answers.getD [])]
  id : ∀ line ∈ session.linesOf n, line.get "id" = some request.id
  granted : ∀ line ∈ session.linesOf n, Grants line → request.skipPrompts = true ∧ IsApprovalOrPermissions request ∨
    ∃ answers, session.given n = some (some answers) ∧ Consented (fun ix => newMessageId (first + ix)) request
      (handling newMessageId first request).questions answers line
  content : ¬IsApprovalOrPermissions request → ∀ skip,
    handling newMessageId first { request with skipPrompts := skip } = handling newMessageId first request
  own : ∀ (m first' : Nat) (request' : ServerRequest), m ≠ n → session.requests[m]? = some (first', request') →
    ∀ question ∈ (handling newMessageId first request).questions,
      ∀ question' ∈ (handling newMessageId first' request').questions, question.id ≠ question'.id
  congr : ∀ questions reply, handling newMessageId first request = .asking questions reply → ∀ answers answers',
    (∀ question ∈ questions, (answers.filter fun a => a.questionId == question.id) =
      answers'.filter fun a => a.questionId == question.id) → reply answers = reply answers'
  perm : IsApprovalOrPermissions request → ∀ questions reply, handling newMessageId first request = .asking questions reply →
    ∀ answers answers', (∀ question ∈ questions, (answers.filter fun a => a.questionId == question.id).Perm
      (answers'.filter fun a => a.questionId == question.id)) → reply answers = reply answers'
  labels : request.method = "item/tool/requestUserInput" →
    ∀ questions reply, handling newMessageId first request = .asking questions reply →
    ∀ before q after, userInputQuestions (fun ix => newMessageId (first + ix)) request.params = before ++ q :: after →
    (∀ later ∈ after, later.1 ≠ q.1) → ∀ answers, (reply answers).pointer ["result", "answers", q.1] =
      some (.object [("answers", .array ((labelsOf answers q.2.id).map Value.string))])

/-- The ids of the questions of a request are those that were generated for it. -/
theorem exists_question_id {first : Nat} {request : ServerRequest} {question : UserInputQuestion}
    (h : question ∈ (handling newMessageId first request).questions) :
    ∃ ix < (handling newMessageId first request).questions.length, question.id = newMessageId (first + ix) := by
  cases hhan : handling _ _ _ with
  | replied line =>
    rw [hhan] at h
    nomatch h
  | asking questions reply =>
    rw [hhan] at h
    have hids := (asks_of_asking hhan).question_ids
    have hid : question.id ∈ questions.map UserInputQuestion.id := mem_map_of_mem h
    rw [hids] at hid
    obtain ⟨ix, hix, heq⟩ := mem_map.mp hid
    exact ⟨ix, mem_range.mp hix, heq.symm⟩

theorem Inv.own (inv : Inv newMessageId session) (hinj : Function.Injective newMessageId) {n m first first' : Nat}
    {request request' : ServerRequest} (hnm : n < m) (hn : session.requests[n]? = some (first, request))
    (hm : session.requests[m]? = some (first', request')) :
    ∀ question ∈ (handling newMessageId first request).questions,
      ∀ question' ∈ (handling newMessageId first' request').questions, question.id ≠ question'.id := by
  intro question hque question' hque' heq
  obtain ⟨ix, hix, hid⟩ := exists_question_id hque
  obtain ⟨ix', -, hid'⟩ := exists_question_id hque'
  rw [hid, hid'] at heq
  have hsame := hinj heq
  have := inv.later n m _ _ _ _ hnm hn hm
  omega

/-- Every request of a run is answered. -/
theorem server_requests_answered (newMessageId : Nat → String) (hinj : Function.Injective newMessageId) (session : Requests)
    (h : Reachable newMessageId session) (n first : Nat) (request : ServerRequest)
    (hn : session.requests[n]? = some (first, request)) : Answered newMessageId session n first request := by
  have inv := h.inv
  have hstands := inv.stands n first request hn
  constructor
  case stands => exact hstands
  case replies =>
    intro reply hasked answers
    refine ⟨.answer n reply hasked answers, ?_⟩
    have hlines : (session.answer n reply answers).linesOf n =
        session.linesOf n ++ if n = n then [reply (answers.getD [])] else [] := linesOf_concat rfl n
    rw [hasked] at hstands
    rw [hlines, if_pos rfl]
    generalize handling newMessageId first request = handling at hstands
    generalize session.given n = given, session.linesOf n = lines at hstands ⊢
    cases hstands with
    | waiting questions reply => rfl
  case id =>
    intro line hline
    generalize session.tasks n = task, session.given n = given, session.linesOf n = lines at hstands hline
    generalize hhandling : handling newMessageId first request = handling at hstands
    cases hstands with
    | replied line' =>
      obtain rfl := mem_singleton.mp hline
      exact (replied_spec hhandling).1
    | waiting questions reply => nomatch hline
    | answered questions reply answers =>
      obtain rfl := mem_singleton.mp hline
      exact (asks_of_asking hhandling).get_id _
  case granted =>
    intro line hline hgrants
    generalize session.tasks n = task, session.given n = given, session.linesOf n = lines at hstands hline ⊢
    generalize hhandling : handling newMessageId first request = handling at hstands ⊢
    cases hstands with
    | replied line' =>
      obtain rfl := mem_singleton.mp hline
      exact .inl ((replied_spec hhandling).2 hgrants)
    | waiting questions reply => nomatch hline
    | answered questions reply answers =>
      obtain rfl := mem_singleton.mp hline
      have hconsented := (asks_of_asking hhandling).consented hgrants
      cases answers with
      | some answers => exact .inr ⟨answers, rfl, hconsented⟩
      | none =>
        obtain ⟨_, _, _, answer, hanswer, _⟩ := hconsented
        nomatch hanswer
  case content => exact fun hnot skip => handle_skipPrompts hnot skip
  case own =>
    intro m first' request' hne hm question hquestion question' hquestion'
    rcases Nat.lt_or_gt_of_ne hne with hlt | hgt
    · exact (inv.own hinj hlt hm hn question' hquestion' question hquestion).symm
    · exact inv.own hinj hgt hn hm question hquestion question' hquestion'
  case congr => exact fun questions reply hasking answers answers' => (asks_of_asking hasking).reply_congr
  case perm => exact fun happroval questions reply hasking answers answers' => (asks_of_asking hasking).reply_perm happroval
  case labels =>
    exact fun hmethod questions reply hasking before q after hquestions hlast =>
      (asks_of_asking hasking).labels hmethod hquestions hlast

end Requests

/-- Ids for the questions of a run. -/
def demoMessageId (n : Nat) : String := String.ofList (replicate (n + 1) 'a')

theorem injective_demoMessageId : Function.Injective demoMessageId := by
  intro a b h
  have hlen := congrArg (fun id => id.toList.length) h
  simpa [demoMessageId] using hlen

/-- A request to run a command. -/
def demoCommand : ServerRequest :=
  ⟨.int 7, "item/commandExecution/requestApproval", .object [("command", .string "ls")], false⟩

/-- The reply to the answers to it. -/
def demoReply (answers : List UserInputAnswer) : Value :=
  respond (.int 7) (decision (if allows answers "a" then "accept" else "decline"))

/-- The user allows a command. -/
theorem server_requests_answered_command :
    let session := (Requests.new.handle demoMessageId demoCommand).answer 0 demoReply (some [⟨"a", ["allow"]⟩])
    Requests.Answered demoMessageId session 0 0 demoCommand ∧
      session.linesOf 0 = [respond (.int 7) (decision "accept")] := by
  intro session
  have hhandle : Requests.Step demoMessageId .new (Requests.new.handle demoMessageId demoCommand) := .handle demoCommand
  have hreach : Requests.Reachable demoMessageId session :=
    (Relation.ReflTransGen.single hhandle).tail (.answer 0 demoReply rfl _)
  exact ⟨Requests.server_requests_answered demoMessageId injective_demoMessageId session hreach 0 0 demoCommand rfl, rfl⟩

/-- The labels that a reply has under a wire id. -/
def labelsAt (line : Value) (wireId : String) : List String :=
  strings (line.pointer ["result", "answers", wireId, "answers"])

/-- A request for the user's input whose second question has no wire id. -/
def demoUserInput : ServerRequest :=
  ⟨.int 7, "item/tool/requestUserInput", .object [("questions", .array [.object [("id", .string "q1")], .object []])], false⟩

/-- The first of two answers to one question counts, and the first of two questions with one wire id is not answered. -/
theorem server_requests_diverge : ∃ questions reply,
    handleServerRequest demoMessageId demoUserInput = .asking questions reply ∧
    (∃ answers answers' : List UserInputAnswer, answers.Perm answers' ∧ reply answers ≠ reply answers') ∧
    (userInputQuestions demoMessageId demoUserInput.params).map (fun q => (q.1, q.2.id)) = [("q1", "a"), ("q1", "aa")] ∧
    ∃ answers : List UserInputAnswer, labelsOf answers "a" = ["yes"] ∧ labelsAt (reply answers) "q1" = ["no"] := by
  refine ⟨_, _, rfl, ⟨[⟨"aa", ["yes"]⟩, ⟨"aa", ["no"]⟩], [⟨"aa", ["no"]⟩, ⟨"aa", ["yes"]⟩], .swap .., fun h => ?_⟩,
    by decide, [⟨"a", ["yes"]⟩, ⟨"aa", ["no"]⟩], by decide, by decide⟩
  have hlabels := congrArg (labelsAt · "q1") h
  revert hlabels
  decide

end Codex

end Wu
