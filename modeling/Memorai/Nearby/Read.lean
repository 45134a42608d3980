import Memorai.History.Shift
import Memorai.Storage.NeighbourReads

/-! The nodes and edges around one or more seeds. The walk is blind to permissions, and every walked
object is checked before anything is assembled. Denied objects are dropped and counted. -/
namespace Memorai.Nearby
open Schema Storage Text
open History (Verdicts Denial)

structure Walk where
  candidates : List MemoryNode := []
  edges : List (String × String × String) := []
  hopOf : List (String × Nat) := []
  deriving DecidableEq, Repr

structure NodeView where
  id : String
  label : Label
  hops : Nat
  sources : List SourceId
  occurredAtMs : Int
  status : Option ClaimStatus := none
  isCommitment : Bool := false
  text : String
  /-- only the view of an event has this key -/
  url : Option (Option String) := none
  deriving DecidableEq, Repr

structure EdgeView where
  fromId : String
  type : String
  toId : String
  deriving DecidableEq, Repr

structure Neighbourhood where
  seedIds : List String
  answered : Bool
  text : String
  hops : Nat := 2
  nodes : List NodeView := []
  edges : List EdgeView := []
  sources : List String := []
  withheld : Nat := 0
  withheldReasons : List String := []
  withheldEdges : Nat := 0
  considered : Nat := 0
  deriving DecidableEq, Repr

/-- `list(dict.fromkeys(seed_ids))` -/
def distinct (seedIds : List String) : List String := (Dict.collect id (fun _ => ()) seedIds).map Prod.fst

section Read
variable (rows : RowOrder Row) (s : Store) (scope : Scope) (nowMs : Int)

/-- Owner-constrained at both ends of every path. -/
def walk (seedIds : List String) (hops : Nat) : Walk :=
  let seeds := distinct seedIds
  let present := (s.getMany rows scope.ownerId seeds).map (fun r => r.key.id)
  if present = [] then {}
  else
    let reached := s.neighbourIds scope.ownerId present hops
    let near := (seeds.filter (· ∈ present)).map (fun sid => (sid, 0))
    let hopOf := near ++ reached.filter (fun p => p.1 ∉ near.map Prod.fst)
    let ids := hopOf.map Prod.fst
    { candidates := (s.getMany rows scope.ownerId ids).map Row.payload
      edges := s.edgesAmong scope.ownerId ids
      hopOf := hopOf }

def verdict (node : MemoryNode) : Option DenyReason :=
  match evaluate scope node.acl nowMs with
  | .allow => none
  | .deny reason => some reason

/-- One `evaluate` per walked object, before anything is assembled. -/
def checkPermissions (candidates : List MemoryNode) : Verdicts × List Denial :=
  (Dict.collect MemoryNode.id (verdict scope nowMs) candidates,
    candidates.filterMap (fun node => (verdict scope nowMs node).map (Denial.mk node.id)))

end Read

def nodeView (node : MemoryNode) (hops : Nat) : NodeView :=
  let view (text : String) : NodeView :=
    { id := node.id, label := labelOf node, hops := hops, sources := node.acl.sources,
      occurredAtMs := node.acl.occurredAtMs, text := text }
  match node with
  | .event e => { view e.summary with url := some e.source.url }
  | .claim c => { view c.statement with status := some c.status, isCommitment := c.commitment.isSome }
  | .entity e => view (e.kind.value ++ ": " ++ e.name)

def textOf (seeds : List String) (nodes edges withheld : Nat) (sources : List String) : String :=
  let shown := join ", " sources
  let head := toString nodes ++ " node(s) and " ++ toString edges ++ " edge(s) around " ++ join ", " seeds ++
    " across " ++ toString sources.length ++ " source(s) (" ++ (if shown = "" then "none visible" else shown) ++ ")."
  if withheld = 0 then head
  else head ++ " " ++ toString withheld ++ " further object(s) in this neighbourhood are outside " ++
    "the grant and are not shown -- neither they nor their edges are " ++
    "counted above, so this picture is partial."

/-- `sorted({..})` -/
def sortedSet (values : List String) : List String := values.dedup.insertionSort (· ≤ ·)

/-- `(hop_of.get(n.id, 0), n.id)` -/
def nearer (hopOf : List (String × Nat)) (a b : MemoryNode) : Prop :=
  let near (n : MemoryNode) := (hopOf.lookup n.id).getD 0
  near a < near b ∨ near a = near b ∧ a.id ≤ b.id

instance (hopOf : List (String × Nat)) : DecidableRel (nearer hopOf) := fun a b => by unfold nearer; infer_instance

def pretty (reasons : List String) : String :=
  join ", " (reasons.map (fun r => r.map (fun c => if c = '_' then ' ' else c)))

def assemble (repr : String → String) (seedIds : List String) (hops : Nat) (walk : Walk) (verdicts : Verdicts)
    (denials : List Denial) : Neighbourhood :=
  let seeds := distinct seedIds
  let walked := Dict.collect MemoryNode.id id walk.candidates
  let reasons := sortedSet (denials.map (fun d => d.reason.value))
  if walked = [] then
    { seedIds := seeds
      answered := false
      hops := hops
      text := "No object among " ++ repr (join ", " seeds) ++ " is present in this memory." }
  else
    let visible := walked.filter (fun p => verdicts.reason p.1 = none)
    let edges := (walk.edges.filter (fun e => e.1 ∈ visible.map Prod.fst ∧ e.2.2 ∈ visible.map Prod.fst)).map
      (fun e => EdgeView.mk e.1 e.2.1 e.2.2)
    let withheldEdges := walk.edges.length - edges.length
    if visible = [] then
      { seedIds := seeds
        answered := false
        hops := hops
        text := "Declining to answer: " ++ toString walked.length ++ " object(s) are in this " ++
          "neighbourhood, but none are within the requesting agent's scope (" ++ pretty reasons ++ ")."
        withheld := walked.length
        withheldReasons := reasons
        withheldEdges := withheldEdges
        considered := walked.length }
    else
      let ordered := (visible.map Prod.snd).insertionSort (nearer walk.hopOf)
      let nodes := ordered.map (fun n => nodeView n ((walk.hopOf.lookup n.id).getD 0))
      let sources := sortedSet (nodes.flatMap (fun v => v.sources.map Subtype.val))
      { seedIds := seeds
        answered := true
        hops := hops
        text := textOf seeds nodes.length edges.length denials.length sources
        nodes := nodes
        edges := edges
        sources := sources
        withheld := denials.length
        withheldReasons := reasons
        withheldEdges := withheldEdges
        considered := walked.length }

/-- The read under an introspected grant. -/
def neighbourhood (repr : String → String) (rows : RowOrder Row) (s : Store) (scope : Scope) (seedIds : List String)
    (hops : Nat) (nowMs : Int) : Neighbourhood :=
  let walked := walk rows s scope seedIds hops
  let (verdicts, denials) := checkPermissions scope nowMs walked.candidates
  assemble repr seedIds hops walked verdicts denials

end Memorai.Nearby
