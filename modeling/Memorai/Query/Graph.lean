import Memorai.Gateway.Lifetime
import Memorai.Retrieval.Proximity

/-! The query graph: a question is authorized, retrieved for, checked and answered. Every retrieved object is checked before
anything is assembled, and what none of them passes is declined. -/
namespace Memorai.Query
open Schema Storage Text Wire Retrieval
open History (Denial)
open Nearby (sortedSet pretty)
open Gateway (GatewayError scopeIntrospect)

inductive QueryError where
  /-- "a grant_token is required; a caller-supplied scope is not trusted" -/
  | callerScope
  | noGrantToken
  | gateway (error : GatewayError)
  | notActive
  | invalidScope
  | division (error : ZeroDivisionError)
  deriving DecidableEq, Repr

/-- What a caller hands in. -/
structure QueryState (jwt : Jwt) where
  question : String
  grantToken : Option jwt.Token := none
  scope : Option Json := none
  topK : Nat := 8

structure AnswerCitation where
  objectId : String
  label : Label
  source : String
  url : Option String
  occurredAtMs : Int
  ingestedAtMs : Option Int
  deriving DecidableEq, Repr

structure QueryAnswer where
  question : String
  answered : Bool
  text : String
  citations : List AnswerCitation := []
  denied : List Denial := []
  considered : Nat := 0
  deriving DecidableEq, Repr

section Authorize
variable (jwt : Jwt) (secret : String)

/-- The client of the gateway: the scope that an active grant holds. -/
def introspectScope (grantToken : jwt.Token) (nowSecs : Nat) : Except QueryError Scope :=
  match scopeIntrospect jwt secret grantToken nowSecs with
  | .error e => .error (.gateway e)
  | .ok resp =>
    if resp.active then
      match Scope.modelValidate resp.scope.toJson with
      | some scope => .ok scope
      | none => .error .invalidScope
    else .error .notActive

/-- Resolves the grant token into the scope. What the caller says about its scope is never used. -/
def authorize (state : QueryState jwt) (nowSecs : Nat) : Except QueryError Scope :=
  match state.grantToken with
  | none => if state.scope.isSome then .error .callerScope else .error .noGrantToken
  | some token => introspectScope jwt secret token nowSecs

end Authorize

/-- The store is asked twice, and may be written in between. -/
def retrieve {Vector : Type} {similarity : Vector → String → ℚ} {v : Vector} (exp : ℚ → ℚ) (found linked : Store)
    (index : VectorIndex similarity v found.nodes) (ownerId : String) (topK : Nat) (nowMs : Int) :
    Except ZeroDivisionError (List RankedNode) :=
  let candidates := vectorSearch index ownerId (topK * 2)
  if candidates = [] then .ok []
  else (rank exp candidates (linked.neighbourIds ownerId (seedIds candidates) 2) nowMs).map (List.take topK)

theorem retrieve_same {Vector : Type} {similarity : Vector → String → ℚ} {v : Vector} (exp : ℚ → ℚ) (s : Store)
    (index : VectorIndex similarity v s.nodes) (ownerId : String) (topK : Nat) (nowMs : Int) :
    retrieve exp s s index ownerId topK nowMs = retrieveStored exp s index ownerId topK nowMs := rfl

/-- One turn of the loop over the candidates. -/
def checkOne (scope : Scope) (nowMs : Int) (checked : List MemoryNode × List Denial) (node : MemoryNode) :
    List MemoryNode × List Denial :=
  match evaluate scope node.acl nowMs with
  | .allow => (checked.1 ++ [node], checked.2)
  | .deny reason => (checked.1, checked.2 ++ [⟨node.id, reason⟩])

def checkPermissions (scope : Scope) (nowMs : Int) (candidates : List MemoryNode) : List MemoryNode × List Denial :=
  candidates.foldl (checkOne scope nowMs) ([], [])

def declineText (considered : Nat) (reasons : List String) : String :=
  if considered = 0 then "No memory matches this question."
  else "Declining to answer: " ++ toString considered ++ " candidate memory object(s) matched, " ++
    "but none are within the requesting agent's scope (" ++ pretty reasons ++ ")."

def lineOf : MemoryNode → String
  | .claim c =>
    let marker := if c.status = .active then "" else " [" ++ c.status.value ++ "]"
    "- " ++ c.statement ++ marker ++ " (" ++ c.id ++ ")"
  | .event e => "- " ++ e.summary ++ " (" ++ e.id ++ ")"
  | .entity e => "- " ++ e.kind.value ++ ": " ++ e.name ++ " (" ++ e.id ++ ")"

def citationOf (node : MemoryNode) : AnswerCitation where
  objectId := node.id
  label := labelOf node
  source := join "," (node.acl.sources.map Subtype.val)
  url := node.citations.head?.bind (fun first => first.source.url)
  occurredAtMs := node.acl.occurredAtMs
  ingestedAtMs := node.citations.head?.map (fun first => first.source.ingestedAtMs)

def assemble (question : String) (considered : Nat) (permitted : List MemoryNode) (denials : List Denial) : QueryAnswer :=
  if permitted = [] then
    { question := question
      answered := false
      text := declineText considered (sortedSet (denials.map (fun d => d.reason.value)))
      denied := denials
      considered := considered }
  else
    { question := question
      answered := true
      text := join "\n" (permitted.map lineOf)
      citations := permitted.map citationOf
      denied := denials
      considered := considered }

/-- What is answered from these candidates under this scope. -/
def answerFrom (scope : Scope) (question : String) (nowMs : Int) (candidates : List MemoryNode) : QueryAnswer :=
  let (permitted, denials) := checkPermissions scope nowMs candidates
  assemble question candidates.length permitted denials

/-- The clocks of one query: at the gateway in seconds, at retrieval and at the check in milliseconds. -/
structure Clocks where
  introspected : Nat
  retrieved : Nat
  checked : Nat

section Run
variable {Vector : Type} {similarity : Vector → String → ℚ} {v : Vector} (exp : ℚ → ℚ) (found linked : Store)
  (index : VectorIndex similarity v found.nodes)

/-- The graph from its second node on. -/
def answerUnder (scope : Scope) (question : String) (topK : Nat) (retrieved checked : Nat) : Except QueryError QueryAnswer :=
  match retrieve exp found linked index scope.ownerId topK retrieved with
  | .error e => .error (.division e)
  | .ok ranked => .ok (answerFrom scope question checked (ranked.map (fun r => r.node.payload)))

/-- The whole graph. -/
def runQuery (jwt : Jwt) (secret : String) (state : QueryState jwt) (clocks : Clocks) : Except QueryError QueryAnswer :=
  match authorize jwt secret state clocks.introspected with
  | .error e => .error e
  | .ok scope => answerUnder exp found linked index scope state.question state.topK clocks.retrieved clocks.checked

end Run
end Memorai.Query
