import Memorai.Graph.PropertyGraph
import Memorai.Schema.Records
import Memorai.Text.Strings

/-! The memory store: a property graph whose nodes carry an object as payload, together with
the columns lifted out of it. -/
namespace Memorai.Storage
open Schema Text Memorai.Graph

inductive Label where
  | entity | event | claim
  deriving DecidableEq, Repr

def labelOf : MemoryNode → Label
  | .entity _ => .entity
  | .event _ => .event
  | .claim _ => .claim

def textOf : MemoryNode → String
  | .entity e => join " " (e.name :: e.aliases)
  | .event e => strip (e.summary ++ " " ++ e.body.getD "")
  | .claim c => c.statement

def occurredAt : MemoryNode → Int
  | .entity e => e.lastSeenAtMs
  | .event e => e.source.occurredAtMs
  | .claim c => c.assertedAtMs

/-- Claim fields lifted out of the payload into columns. Other nodes have none of them. -/
structure Promoted where
  claimStatus : Option ClaimStatus := none
  commitmentFulfillment : Option FulfillmentStatus := none
  commitmentDueAtMs : Option Int := none
  commitmentOwedBy : Option String := none
  commitmentOwedTo : Option String := none
  deriving DecidableEq, Repr

def promoted : MemoryNode → Promoted
  | .claim c =>
    { claimStatus := some c.status
      commitmentFulfillment := c.commitment.map Commitment.fulfillment
      commitmentDueAtMs := c.commitment.bind Commitment.dueAtMs
      commitmentOwedBy := c.commitment.map Commitment.owedByEntityId
      commitmentOwedTo := c.commitment.bind Commitment.owedToEntityId }
  | _ => {}

/-- One stored node. The embedding column is represented by the text that was embedded. -/
structure Row where
  payload : MemoryNode
  ownerId : String
  text : String
  occurredAtMs : Int
  aclSources : List SourceId
  aclSensitivity : Sensitivity
  aclEntityKinds : List EntityKind
  embedding : String
  promoted : Promoted
  deriving DecidableEq, Repr

structure NodeKey where
  label : Label
  id : String
  deriving DecidableEq, Repr

inductive Rel where
  | mentions | cites | about | owedBy | owedTo | supersedes | contradicts
  | other (name : String)
  deriving DecidableEq, Repr

namespace Row

/-- The uniqueness constraint is per label, so a node is keyed by label and id. -/
def key (r : Row) : NodeKey := ⟨labelOf r.payload, r.payload.id⟩

def of (node : MemoryNode) (embedded : String) : Row where
  payload := node
  ownerId := node.ownerId
  text := textOf node
  occurredAtMs := occurredAt node
  aclSources := node.acl.sources
  aclSensitivity := node.acl.sensitivity
  aclEntityKinds := node.acl.entityKinds
  embedding := embedded
  promoted := Storage.promoted node

def claim? (r : Row) : Option Claim :=
  match r.payload with
  | .claim c => some c
  | _ => none

def entity? (r : Row) : Option Entity :=
  match r.payload with
  | .entity e => some e
  | _ => none

def event? (r : Row) : Option Event :=
  match r.payload with
  | .event e => some e
  | _ => none

/-- Read, mutate and write back a claim's payload and its promoted columns. -/
def mutateClaim (mutate : Claim → Claim) (r : Row) : Row :=
  match r.payload with
  | .claim c => { r with payload := .claim (mutate c), promoted := Storage.promoted (.claim (mutate c)) }
  | _ => r

theorem key_mutateClaim (mutate : Claim → Claim) (h : ∀ c, (mutate c).id = c.id) (r : Row) :
    (r.mutateClaim mutate).key = r.key := by
  obtain ⟨payload, _, _, _, _, _, _, _, _⟩ := r
  cases payload <;> simp [mutateClaim, key, labelOf, MemoryNode.id, h]

@[simp] theorem claim?_mutateClaim (mutate : Claim → Claim) (r : Row) :
    (r.mutateClaim mutate).claim? = r.claim?.map mutate := by
  obtain ⟨payload, _, _, _, _, _, _, _, _⟩ := r
  cases payload <;> rfl

@[simp] theorem ownerId_mutateClaim (mutate : Claim → Claim) (r : Row) :
    (r.mutateClaim mutate).ownerId = r.ownerId := by
  obtain ⟨payload, _, _, _, _, _, _, _, _⟩ := r
  cases payload <;> rfl

theorem claim?_eq_some_iff (r : Row) (c : Claim) : r.claim? = some c ↔ r.payload = .claim c := by
  obtain ⟨payload, _, _, _, _, _, _, _, _⟩ := r
  cases payload <;> simp [claim?]

theorem claim?_isSome_of_label {r : Row} (h : r.key.label = .claim) : ∃ c, r.claim? = some c := by
  obtain ⟨payload, _, _, _, _, _, _, _, _⟩ := r
  cases payload <;> simp_all [key, labelOf, claim?]

theorem event?_isSome_of_label {r : Row} (h : r.key.label = .event) : ∃ e, r.event? = some e := by
  obtain ⟨payload, _, _, _, _, _, _, _, _⟩ := r
  cases payload <;> simp_all [key, labelOf, event?]

theorem key_of_event? {r : Row} {e : Event} (h : r.event? = some e) : r.key = ⟨.event, e.id⟩ := by
  obtain ⟨payload, _, _, _, _, _, _, _, _⟩ := r
  cases payload with
  | event d =>
    obtain rfl := Option.some.inj h
    rfl
  | entity d => exact absurd h (by simp [event?])
  | claim d => exact absurd h (by simp [event?])

theorem key_of_claim? {r : Row} {c : Claim} (h : r.claim? = some c) : r.key = ⟨.claim, c.id⟩ := by
  rw [key, (claim?_eq_some_iff r c).mp h]; rfl

end Row

abbrev Store := PropertyGraph Row.key Rel

/-- The statements ingestion sends to the store, each of them atomic. -/
inductive StoreOp where
  | upsert (node : MemoryNode) (embedded : String)
  | link (source : String) (rel : Rel) (target : String)
  | setClaimStatus (claimId : String) (status : ClaimStatus)
  deriving DecidableEq, Repr

namespace Store

def upsert (s : Store) (node : MemoryNode) (embedded : String) : Store := s.merge (Row.of node embedded)

/-- Ids are matched over every label, as `MATCH (n:Memory {id: ..})` does. -/
def link (s : Store) (source : String) (rel : Rel) (target : String) : Store :=
  PropertyGraph.link s (fun k => k.id = source) rel (fun k => k.id = target)

/-- Moves the epistemic axis only. -/
def setClaimStatus (s : Store) (claimId : String) (status : ClaimStatus) : Store :=
  s.modify ⟨.claim, claimId⟩ (Row.mutateClaim (fun c => { c with status := status }))
    (Row.key_mutateClaim _ (fun _ => rfl))

def get (s : Store) (nodeId : String) : Option Row := s.nodes.find? (fun r => r.key.id = nodeId)

/-- `MATCH (c:Claim {owner_id})-[:ABOUT]->(e:Entity) WHERE e.id IN ..`, hydrated. -/
def claimsAbout (s : Store) (ownerId : String) (entityIds : List String) : List Claim :=
  (s.nodes.filter (fun r => r.ownerId = ownerId ∧ r.key.label = .claim ∧
    s.edges.any (fun e => e.1 = r.key ∧ e.2.1 = .about ∧ e.2.2.label = .entity ∧ e.2.2.id ∈ entityIds))
  ).filterMap Row.claim?

/-- The stored claim with this id. -/
def claim? (s : Store) (claimId : String) : Option Claim :=
  (s.find? ⟨.claim, claimId⟩).bind Row.claim?

def entity? (s : Store) (entityId : String) : Option Entity :=
  (s.find? ⟨.entity, entityId⟩).bind Row.entity?

def event? (s : Store) (eventId : String) : Option Event :=
  (s.find? ⟨.event, eventId⟩).bind Row.event?

end Store

def StoreOp.exec (s : Store) : StoreOp → Store
  | .upsert node embedded => s.upsert node embedded
  | .link source rel target => s.link source rel target
  | .setClaimStatus claimId status => s.setClaimStatus claimId status

/-- The order the database returns rows in. Without an `ORDER BY` it is any. -/
structure RowOrder (α : Type) where
  order : List α → List α
  perm : ∀ rows, (order rows).Perm rows

def RowOrder.asStored {α : Type} : RowOrder α := ⟨id, fun _ => .refl _⟩

def execAll (ops : List StoreOp) (s : Store) : Store := ops.foldl StoreOp.exec s

end Memorai.Storage
