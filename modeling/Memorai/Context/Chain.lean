import Memorai.Nearby.Read
import Memorai.Storage.CitesReads

/-! What one object was derived from, and what was derived from it. The walk is blind to permissions, and
every walked object is checked as in a neighbourhood read. Denied objects stay, as an id and a reason. -/
namespace Memorai.Context
open Schema Storage Text
open History (Verdicts Denial)
open Nearby (checkPermissions nearer sortedSet pretty)

structure Walk where
  candidates : List MemoryNode := []
  edges : List (String × String) := []
  hopOf : List (String × Nat) := []
  deriving DecidableEq, Repr

/-- The stored event's own `SourceRef`. -/
structure SourceView where
  connector : String
  externalId : String
  url : Option String
  occurredAtMs : Int
  ingestedAtMs : Int
  deriving DecidableEq, Repr

inductive Content where
  | event (summary : String) (source : SourceView)
  | claim (statement : String) (status : ClaimStatus)
  | entity (name : String)
  deriving DecidableEq, Repr

inductive NodeView where
  | withheld (id : String) (hops : Nat) (reason : DenyReason)
  | shown (id : String) (label : Label) (hops : Nat) (sources : List SourceId) (content : Content)
  deriving DecidableEq, Repr

namespace NodeView

def id : NodeView → String
  | withheld id _ _ => id
  | shown id _ _ _ _ => id

def hops : NodeView → Nat
  | withheld _ hops _ => hops
  | shown _ _ hops _ _ => hops

/-- `view.get("sources", [])` -/
def sources : NodeView → List SourceId
  | withheld _ _ _ => []
  | shown _ _ _ sources _ => sources

def content? : NodeView → Option Content
  | withheld _ _ _ => none
  | shown _ _ _ _ content => some content

end NodeView

structure ContextChain where
  objectId : String
  answered : Bool
  text : String
  hops : Nat := 0
  nodes : List NodeView := []
  edges : List (String × String) := []
  sources : List String := []
  denied : List Denial := []
  considered : Nat := 0
  deriving DecidableEq, Repr

def sourceView (event : Event) : SourceView where
  connector := event.source.connector
  externalId := event.source.externalId
  url := event.source.url
  occurredAtMs := event.source.occurredAtMs
  ingestedAtMs := event.source.ingestedAtMs

def contentOf : MemoryNode → Content
  | .event e => .event e.summary (sourceView e)
  | .claim c => .claim c.statement c.status
  | .entity e => .entity e.name

def nodeView (node : MemoryNode) (hops : Nat) : Option DenyReason → NodeView
  | some reason => .withheld node.id hops reason
  | none => .shown node.id (labelOf node) hops node.acl.sources (contentOf node)

/-- One line of the text. An event is told by its own connector, anything else by all of its sources. -/
def viewText : NodeView → String
  | .withheld id hops reason => "- [" ++ toString hops ++ " hop] withheld (" ++ reason.value ++ ") " ++ id
  | .shown id _ hops sources content =>
    let ofSources := join "," (sources.map Subtype.val)
    let (source, label) := match content with
      | .event summary source => (if source.connector = "" then ofSources else source.connector, summary)
      | .claim statement _ => (ofSources, statement)
      | .entity name => (ofSources, name)
    "- [" ++ toString hops ++ " hop] " ++ source ++ ": " ++ label ++ " (" ++ id ++ ")"

def contextText (objectId : String) (views : List NodeView) (sources : List String) : String :=
  let reach := views.filter (fun v => 0 < v.hops)
  if reach = [] then objectId ++ " cites nothing and nothing cites it."
  else
    let shown := join ", " sources
    let head := objectId ++ ": " ++ toString reach.length ++ " object(s) in the citation chain " ++
      "across " ++ toString sources.length ++ " source(s) (" ++ (if shown = "" then "none visible" else shown) ++ ")."
    join "\n" (head :: views.map viewText)

def walk (rows : RowOrder Row) (s : Store) (scope : Scope) (objectId : String) (hops : Nat) : Walk :=
  let (reached, edges) := s.citesChain scope.ownerId objectId hops
  let hopOf := (objectId, 0) :: reached.filter (fun p => p.1 ≠ objectId)
  { candidates := (s.getMany rows scope.ownerId (hopOf.map Prod.fst)).map Row.payload
    edges := edges
    hopOf := hopOf }

def assemble (repr : String → String) (objectId : String) (hops : Nat) (walk : Walk) (verdicts : Verdicts)
    (denials : List Denial) : ContextChain :=
  let nodes := Dict.collect MemoryNode.id id walk.candidates
  if nodes = [] then
    { objectId := objectId
      answered := false
      text := "No object " ++ repr objectId ++ " is present in this memory."
      hops := hops }
  else if nodes.all (fun p => (verdicts.reason p.1).isSome) then
    let reasons := sortedSet (denials.map (fun d => d.reason.value))
    { objectId := objectId
      answered := false
      text := "Declining to answer: " ++ toString nodes.length ++ " object(s) form this " ++
        "context chain, but none are within the requesting " ++ "agent's scope (" ++ pretty reasons ++ ")."
      hops := hops
      denied := denials
      considered := nodes.length }
  else
    let ordered := (nodes.map Prod.snd).insertionSort (nearer walk.hopOf)
    let views := ordered.map (fun n => nodeView n ((walk.hopOf.lookup n.id).getD 0) (verdicts.reason n.id))
    let sources := sortedSet (views.flatMap (fun v => v.sources.map Subtype.val))
    { objectId := objectId
      answered := true
      text := contextText objectId views sources
      hops := hops
      nodes := views
      edges := walk.edges
      sources := sources
      denied := denials
      considered := nodes.length }

/-- The read under an introspected grant. -/
def contextChain (repr : String → String) (rows : RowOrder Row) (s : Store) (scope : Scope) (objectId : String)
    (hops : Nat) (nowMs : Int) : ContextChain :=
  let walked := walk rows s scope objectId hops
  let (verdicts, denials) := checkPermissions scope nowMs walked.candidates
  assemble repr objectId hops walked verdicts denials

end Memorai.Context
