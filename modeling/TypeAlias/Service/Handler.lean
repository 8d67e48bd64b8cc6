import TypeAlias.Data.Json.Reader
import TypeAlias.Definitions.Issues
import TypeAlias.Definitions.Validation
import TypeAlias.Diagnostics.Members
import TypeAlias.Service.Resource
import TypeAlias.Service.Store
import TypeAlias.Text.Encoding

/-!
# Answering requests

The service keeps the environments that are handed in and answers questions about them. A request
that is refused changes nothing, except that what a question has brought to light stays known.
-/

namespace TypeAlias.Service

open Data Definitions

/-- A request; its body, if it has one, is meant to be JSON. -/
structure Request where
  method : String
  /-- The path that the request is sent to, as it is written. -/
  target : String
  body : Option String := none

/-- What an answer holds. -/
inductive Payload where
  | data (v : Value)
  | text (s : String)

/-- The answer to a request. -/
structure Response where
  status : Nat
  body : Payload

/-- Why a request is refused. -/
inductive Refusal where
  | unknownPath
  | methodNotAllowed
  | unknownEnvironment
  /-- The body cannot be read. -/
  | unreadable
  /-- The body is not what it should be. -/
  | invalid (issues : List Issue)
  /-- The body does not describe an environment. -/
  | registration (e : RegistrationError)
  | query (e : QueryError)

namespace Refusal

/-- The status of the answer. -/
def status : Refusal → Nat
  | unreadable => 400
  | unknownPath | unknownEnvironment | query (.lookup _) => 404
  | methodNotAllowed => 405
  | query (.cyclic _) => 409
  | invalid _ | registration _ | query (.malformed _) => 422

/-- What the answer tells. -/
def detail : Refusal → Value
  | unknownPath => .str "Not Found"
  | methodNotAllowed => .str "Method Not Allowed"
  | unknownEnvironment => .str "Environment not found"
  | unreadable => .str "There was an error parsing the body"
  | invalid issues => .list (issues.map Issue.toValue)
  | registration e => .str e.message
  | query (.cyclic e) =>
    .object [("message", .str (e.message TypeName.toString)), ("cycle", namesValue e.members)]
  | query e => .str e.message

/-- Whether the answer can be written. It holds what was found in the body, and there is no way to
write a number that is not finite. -/
def isWritable : Refusal → Bool
  | invalid issues => issues.all fun i => i.found.isFinite
  | _ => true

/-- The answer to a request that is refused. -/
def response (r : Refusal) : Response :=
  if r.isWritable then { status := r.status, body := .data (.object [("detail", r.detail)]) }
  else { status := 500, body := .text "Internal Server Error" }

end Refusal

/-! ## Bodies -/

/-- A check whose issues make a request be refused. -/
def accepted {α : Type} : Checked α → Except Refusal α
  | .valid a => .ok a
  | .invalid issues => .error (.invalid issues)

/-- The refusal of a body with one problem at a place. -/
def refusedBody {α : Type} (place : List Place) (problem : Problem) : Except Refusal α :=
  .error (.invalid [⟨.member "body" :: place, problem, .ofScalar .null⟩])

/-- Reads a body and checks its members. -/
def readBody {α : Type} (body : Option String) (check : Validation.Object → Checked α) :
    Except Refusal α :=
  let sent := (body.getD "").toUTF8.toList
  if sent.isEmpty then refusedBody [] .missing
  else
    match Text.Encoding.decode? sent with
    | none => .error .unreadable
    | some text =>
      match Json.read text with
      | .ok v =>
        accepted ((Validation.object .request "" check (.ofValue v)).atMember "body")
      | .error e =>
        if e.fault.isMalformed then refusedBody [.item (e.position text : Nat)] .notJson
        else .error .unreadable

/-- The members of an environment that is handed in. -/
def environmentMembers (o : Validation.Object) : Checked (Document × Bool) :=
  Prod.mk <$> Validation.documentMembers .request o <*>
    Validation.memberOr o "guarded_recursion" false Validation.bool

/-- The member that names an environment. -/
def idMember (o : Validation.Object) : Checked String :=
  Validation.member o "env_id" Validation.text

/-- The members that name an environment and an alias. -/
def aliasMembers (o : Validation.Object) : Checked (String × String) :=
  Prod.mk <$> idMember o <*> Validation.member o "name" Validation.text

/-! ## Actions -/

/-- An action on the store. -/
abbrev Handler (α : Type) := ExceptT Refusal (StateM Store) α

/-- The members of a body. -/
def content {α : Type} (body : Option String) (check : Validation.Object → Checked α) :
    Handler α :=
  match readBody body check with
  | .ok a => return a
  | .error e => throw e

/-- What is stored under an identifier. -/
def stored (id : String) : Handler Stored := do
  match (← get).get? id with
  | some s => return s
  | none => throw .unknownEnvironment

/-- Puts a question to a stored environment. -/
def ask {α : Type} (id : String) (question : Environment → Query α) : Handler α := do
  let s ← stored id
  let (answer, session) := s.session.ask question
  modify fun store => store.update id session
  match answer with
  | .ok a => return a
  | .error e => throw (.query e)

/-- The description of a stored environment. -/
def describe (id : String) (s : Stored) : Value :=
  .object [("env_id", .str id), ("aliases", .nat s.session.env.size),
    ("guarded_recursion", .bool s.session.deps.guarded), ("timestamp", .str s.timestamp)]

/-- Stores an environment. -/
def create (now : String) (body : Option String) : Handler Value := do
  let (document, guarded) ← content body environmentMembers
  match Session.ofDocument guarded document with
  | .error e => throw (.registration e)
  | .ok session =>
    let (id, store) := (← get).add session now
    set store
    return describe id { session, timestamp := now }

/-- Answers a question about an environment. -/
def inquire (inquiry : Inquiry) (body : Option String) : Handler Value := do
  match inquiry with
  | .deps =>
    let (id, name) ← content body aliasMembers
    let profile ← ask id (Query.profile name)
    return .object (("name", .str name) :: profile.members)
  | .circular =>
    let id ← content body idMember
    return .object (("env_id", .str id) :: (← ask id Query.summary).members)
  | .order =>
    let id ← content body idMember
    return .object [("env_id", .str id), ("order", namesValue (← ask id Query.order))]
  | .components =>
    let id ← content body idMember
    return .object
      [("env_id", .str id), ("components", componentsValue (← ask id Query.components))]

/-- Does what is asked for at a given time. -/
def perform (now : String) (body : Option String) : Action → Handler Payload
  | .showPage => return .text ""
  | .health => return .data (.object [("status", .str "ok")])
  | .create => .data <$> create now body
  | .describe id => do return .data (describe id (← stored id))
  | .listAliases id => do
    let names := (← stored id).session.env.aliasNames
    return .data (.object [("env_id", .str id), ("aliases", namesValue names)])
  | .delete id => do
    let _ ← stored id
    modify fun store => store.erase id
    return .data (.object [("deleted", .str id)])
  | .inquire inquiry => .data <$> inquire inquiry body

/-- What a request asks for. -/
def Request.action (r : Request) : Except Refusal Action :=
  match Resource.ofTarget? r.target with
  | none => .error .unknownPath
  | some resource =>
    match resource.action? r.method.toUpper with
    | none => .error .methodNotAllowed
    | some action => .ok action

/-- Answers a request at a given time, with everything that there is to tell. -/
def answer (now : String) (store : Store) (r : Request) : Response × Store :=
  match r.action with
  | .error e => (e.response, store)
  | .ok action =>
    match (perform now r.body action).run.run store with
    | (.error e, store) => (e.response, store)
    | (.ok body, store) => ({ status := 200, body }, store)

/-- Answers a request at a given time. Who asks only about the answer is not told what it holds. -/
def handle (now : String) (store : Store) (r : Request) : Response × Store :=
  let (response, store) := answer now store r
  (if r.method.toUpper = "HEAD" then { response with body := .text "" } else response, store)

/-- Answers requests one after the other. -/
def handleAll (now : String) : Store → List Request → List Response
  | _, [] => []
  | store, r :: rs =>
    let (response, store) := handle now store r
    response :: handleAll now store rs

end TypeAlias.Service
