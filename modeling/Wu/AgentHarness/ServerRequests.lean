import Mathlib.Data.List.Infix
import Wu.AgentHarness.JsonRpc

/-!
# Requests of the app-server

A request is replied to at once, or after the user has answered the questions that it is asked about. The ids of questions
come one after another from a generator, which is a parameter.
-/

namespace Wu

/-- A question to the user. -/
structure UserInputQuestion where
  id : String
  header : String
  question : String
  options : List String
  multiSelect : Bool
  prefill : Option String
  multiline : Bool

/-- The labels that the user has chosen for a question. -/
structure UserInputAnswer where
  questionId : String
  labels : List String

namespace Codex

def permissionAllow : String := "Allow"

def permissionDeny : String := "Deny"

def permissionHeader : String := "Permission"

def elicitationAllowForChat : String := "Allow for this chat"

def elicitationAlwaysAllow : String := "Always allow"

/-- The string at the first of some keys that has one. -/
def field (q : Value) (keys : List String) : String := (keys.findSome? fun key => (q.get key).bind Value.asStr).getD ""

/-- The strings of an array; none when there is no array. -/
def strings (value : Option Value) : List String := ((value.bind Value.asArray).getD []).filterMap Value.asStr

/-! ## Replies -/

/-- The line of a reply. -/
def respond (id result : Value) : Value := .object [("jsonrpc", .string "2.0"), ("id", id), ("result", result)]

/-- The line of a reply with an error. -/
def respondError (id : Value) (code : Int) (message : String) : Value :=
  .object [("jsonrpc", .string "2.0"), ("id", id), ("error", .object [("code", .int code), ("message", .string message)])]

/-- The result with a decision. -/
def decision (choice : String) : Value := .object [("decision", .string choice)]

/-- The result that declines an elicitation. -/
def decline : Value := .object [("action", .string "decline")]

/-- The result that accepts an elicitation. -/
def accept : Option String → Value
  | some persist =>
    .object [("action", .string "accept"), ("content", .object []), ("_meta", .object [("persist", .string persist)])]
  | none => .object [("action", .string "accept"), ("content", .object [])]

/-- The result that grants the permissions that are requested. -/
def granted (params : Value) : Value :=
  .object [("permissions", (params.get "permissions").getD (.object [])), ("scope", .string "turn")]

/-! ## Questions -/

/-- The label of an option. -/
def optionLabel : Value → String
  | .string s => s
  | other => (((other.get "label").or (other.get "value")).bind Value.asStr).getD ""

/-- The wire id of a question, which the reply is keyed by. -/
def wireId (ix : Nat) (q : Value) : String :=
  let id := field q ["id", "questionId", "question_id"]
  if id.isEmpty then "q" ++ toString ix else id

/-- The question to the user for a question of the request. -/
def userInputQuestion (id : String) (q : Value) : UserInputQuestion where
  id := id
  header :=
    let h := field q ["header", "title", "label"]
    if h.isEmpty then "Codex question" else h
  question := field q ["question", "prompt", "text"]
  options := (((q.get "options").bind Value.asArray).getD []).map optionLabel
  multiSelect := (["multiSelect", "multi_select"].findSome? fun key => (q.get key).bind Value.asBool).getD false
  prefill := none
  multiline := false

/-- The questions of a request for the user's input, each with its wire id. -/
def userInputQuestions (newMessageId : Nat → String) (params : Value) : List (String × UserInputQuestion) :=
  (((params.get "questions").bind Value.asArray).getD []).mapIdx fun ix q =>
    (wireId ix q, userInputQuestion (newMessageId ix) q)

/-- The choices of an elicitation with the replies they make. -/
def elicitationReplies (persist : List String) : List (String × Value) :=
  [(permissionAllow, accept none)] ++ (if "session" ∈ persist then [(elicitationAllowForChat, accept (some "session"))] else []) ++
    (if "always" ∈ persist then [(elicitationAlwaysAllow, accept (some "always"))] else []) ++
    [(permissionDeny, decline)]

/-- The question of an elicitation. Forms and links are declined because the chat can't show them. -/
def elicitationQuestion (newMessageId : Nat → String) (params : Value) : Option (UserInputQuestion × List (String × Value)) :=
  if (params.get "mode").bind Value.asStr ≠ some "form" then none
  else if
      ((params.pointer ["requestedSchema", "properties"]).bind Value.asObject).any fun properties => !properties.isEmpty then
    none
  else
    match ((params.get "message").bind Value.asStr).filter fun message => !(Strings.trim message).isEmpty with
    | none => none
    | some message =>
      let meta_ := params.get "_meta"
      let name := (meta_.bind fun value => value.get "connector_name").or (params.get "serverName")
      let replies := elicitationReplies (strings (meta_.bind fun value => value.get "persist"))
      some
        ({ id := newMessageId 0
           header := (name.bind Value.asStr).getD "Codex"
           question := message
           options := replies.map Prod.fst
           multiSelect := false
           prefill := none
           multiline := false },
          replies)

/-- The question whether to allow something. -/
def permissionQuestion (id question : String) : UserInputQuestion where
  id := id
  header := permissionHeader
  question := question
  options := [permissionAllow, permissionDeny]
  multiSelect := false
  prefill := none
  multiline := false

/-- What is wanted of the files. -/
def fileWants (fileSystem : Option Value) (key : String) : List String :=
  let paths := strings (fileSystem.bind fun value => value.get key)
  if paths.isEmpty then [] else [key ++ " access to " ++ ", ".intercalate paths]

/-- The question of a request for permissions. -/
def permissionsQuestion (newMessageId : Nat → String) (params : Value) : UserInputQuestion :=
  let permissions := params.get "permissions"
  let network := ((permissions.bind fun value => value.pointer ["network", "enabled"]).bind Value.asBool) == some true
  let fileSystem := permissions.bind fun value => value.get "fileSystem"
  let wants := (if network then ["network access"] else []) ++ fileWants fileSystem "read" ++ fileWants fileSystem "write"
  let hasEntries :=
    ((fileSystem.bind fun value => value.get "entries").bind Value.asArray).any fun entries => !entries.isEmpty
  let wants := if hasEntries && wants.all (· == "network access") then wants ++ ["more file access"] else wants
  let question :=
    if wants.isEmpty then "Codex wants more access. Allow it?"
    else "Codex wants " ++ " and ".intercalate wants ++ ". Allow it?"
  let question :=
    match ((params.get "reason").bind Value.asStr).filter fun reason => !(Strings.trim reason).isEmpty with
    | some reason => question ++ "\n\n" ++ reason
    | none => question
  permissionQuestion (newMessageId 0) question

/-- The command of a request to run one. -/
def commandText (params : Value) : String :=
  match params.get "command" with
  | some (.string s) => s
  | some (.array parts) => " ".intercalate (parts.filterMap Value.asStr)
  | _ => ""

/-- The question of a request to run a command or to change files. -/
def approvalQuestion (newMessageId : Nat → String) (method : String) (params : Value) : UserInputQuestion :=
  permissionQuestion (newMessageId 0) (if "commandExecution".toList <:+: method.toList then
      let command := commandText params
      if command.isEmpty then "Codex wants to run a command. Allow it?"
      else "Codex wants to run \x60" ++ command ++ "\x60. Allow it?"
    else
      let paths := (((params.get "changes").bind Value.asArray).getD []).filterMap fun c => (c.get "path").bind Value.asStr
      if paths.isEmpty then "Codex wants to modify files. Allow it?"
      else "Codex wants to modify " ++ ", ".intercalate paths ++ ". Allow it?")

/-! ## Answers -/

/-- Whether the answers allow what a question asks. -/
def allows (answers : List UserInputAnswer) (id : String) : Bool :=
  answers.any fun a => a.questionId == id && a.labels.any fun l => Strings.eqIgnoreAsciiCase l permissionAllow

/-- The labels of the first answer to a question. -/
def labelsOf (answers : List UserInputAnswer) (id : String) : List String :=
  ((answers.find? fun a => a.questionId == id).map UserInputAnswer.labels).getD []

/-- The labels of the answer to a question, under its wire id. -/
def insertLabels (answers : List UserInputAnswer) (byId : List (String × Value)) (q : String × UserInputQuestion) :
    List (String × Value) :=
  Value.insertEntry q.1 (.object [("answers", .array ((labelsOf answers q.2.id).map Value.string))]) byId

/-- The answers to the user's input by wire id. -/
def answersById (questions : List (String × UserInputQuestion)) (answers : List UserInputAnswer) : List (String × Value) :=
  questions.foldl (insertLabels answers) []

/-- The reply of the first label of the answers to an elicitation that is one of its choices. -/
def elicitationReply (id : String) (replies : List (String × Value)) (answers : List UserInputAnswer) : Value :=
  ((((answers.filter fun answer => answer.questionId == id).flatMap UserInputAnswer.labels).findSome? fun label =>
    (replies.find? fun choice => Strings.eqIgnoreAsciiCase choice.1 label).map Prod.snd)).getD decline

/-! ## Requests -/

/-- A request of the app-server, and whether prompts are skipped when it comes. -/
structure ServerRequest where
  id : Value
  method : String
  params : Value
  skipPrompts : Bool

/-- What a request leads to: a reply at once, or questions to the user and the reply to the answers. -/
inductive Handling where
  | replied (line : Value)
  | asking (questions : List UserInputQuestion) (reply : List UserInputAnswer → Value)

/-- What a request for the user's input leads to. A content question, so never auto-approved. -/
def handleUserInput (newMessageId : Nat → String) (request : ServerRequest) : Handling :=
  let questions := userInputQuestions newMessageId request.params
  if questions.isEmpty then .replied (respond request.id (.object [("answers", .object [])]))
  else
    .asking (questions.map Prod.snd) fun answers =>
      respond request.id (.object [("answers", .object (answersById questions answers))])

/-- What an elicitation leads to. -/
def handleElicitation (newMessageId : Nat → String) (request : ServerRequest) : Handling :=
  match elicitationQuestion newMessageId request.params with
  | none => .replied (respond request.id decline)
  | some (question, replies) =>
    .asking [question] fun answers => respond request.id (elicitationReply question.id replies answers)

/-- What a request for permissions leads to. -/
def handlePermissions (newMessageId : Nat → String) (request : ServerRequest) : Handling :=
  if request.skipPrompts then .replied (respond request.id (granted request.params))
  else
    let question := permissionsQuestion newMessageId request.params
    .asking [question] fun answers =>
      respond request.id (if allows answers question.id then granted request.params else .object [("permissions", .object [])])

/-- What a request to run a command or to change files leads to. -/
def handleApproval (newMessageId : Nat → String) (request : ServerRequest) : Handling :=
  if request.skipPrompts then .replied (respond request.id (decision "accept"))
  else
    let question := approvalQuestion newMessageId request.method request.params
    .asking [question] fun answers =>
      respond request.id (decision (if allows answers question.id then "accept" else "decline"))

/-- Whether a method is a request to run a command or to change files. -/
def isApproval (method : String) : Bool :=
  method == "item/commandExecution/requestApproval" || method == "item/fileChange/requestApproval"

/-- What a request leads to. -/
def handleServerRequest (newMessageId : Nat → String) (request : ServerRequest) : Handling :=
  if request.method = "item/tool/requestUserInput" then handleUserInput newMessageId request
  else if request.method = "mcpServer/elicitation/request" then handleElicitation newMessageId request
  else if request.method = "item/permissions/requestApproval" then handlePermissions newMessageId request
  else if isApproval request.method then handleApproval newMessageId request
  else .replied (respondError request.id (-32601) ("unsupported method: " ++ request.method))

/-- The session as far as the requests of the app-server go. `requests` and `given` are records of the run: the requests with
the number of ids that were generated before, and what the answering side has done, `none` being that it has dropped the
channel. -/
structure Requests where
  generated : Nat
  requests : List (Nat × ServerRequest)
  tasks : Nat → Option (List UserInputAnswer → Value)
  given : Nat → Option (Option (List UserInputAnswer))
  lines : List (Nat × Value)

namespace Requests

variable (newMessageId : Nat → String)

/-- No request has come. -/
def new : Requests where
  generated := 0
  requests := []
  tasks _ := none
  given _ := none
  lines := []

/-- The lines that have been queued for a request. -/
def linesOf (self : Requests) (n : Nat) : List Value := (self.lines.filter fun line => line.1 = n).map Prod.snd

/-- A request is handled. -/
def handle (self : Requests) (request : ServerRequest) : Requests :=
  let n := self.requests.length
  let handled := { self with requests := self.requests ++ [(self.generated, request)] }
  match handleServerRequest (fun ix => newMessageId (self.generated + ix)) request with
  | .replied line => { handled with lines := self.lines ++ [(n, line)] }
  | .asking questions reply =>
    { handled with
      generated := self.generated + questions.length
      tasks := Function.update self.tasks n (some reply) }

/-- The answers come to the task of a request, or their channel is dropped. -/
def answer (self : Requests) (n : Nat) (reply : List UserInputAnswer → Value) (answers : Option (List UserInputAnswer)) :
    Requests :=
  { self with
    tasks := Function.update self.tasks n none
    given := Function.update self.given n (some answers)
    lines := self.lines ++ [(n, reply (answers.getD []))] }

/-- One step of a run. -/
inductive Step (self : Requests) : Requests → Prop where
  | handle (request : ServerRequest) : Step self (self.handle newMessageId request)
  | answer (n : Nat) (reply : List UserInputAnswer → Value) (asked : self.tasks n = some reply)
      (answers : Option (List UserInputAnswer)) : Step self (self.answer n reply answers)

/-- What a run leads to. -/
def Reachable : Requests → Prop := Relation.ReflTransGen (Step newMessageId) new

end Requests

end Codex

end Wu
