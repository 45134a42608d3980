import Memorai.Schema.Permissions

/-! The resolved memory schema: entities, events and claims, and the raw records and
candidates they come from. -/
namespace Memorai.Schema

structure SourceRef where
  connector : SourceId
  externalId : String
  url : Option String := none
  /-- when the thing happened -/
  occurredAtMs : Int
  /-- when we learned about it -/
  ingestedAtMs : Int
  deriving DecidableEq, Repr

structure Citation where
  eventId : String
  source : SourceRef
  quote : Option String := none
  deriving DecidableEq, Repr

structure Provenance where
  citations : List Citation := []
  derivedBy : String
  createdAtMs : Int
  deriving DecidableEq, Repr

structure EncryptedContentRef where
  keyId : String
  scheme : String
  blobId : Option String := none
  byteLen : Nat
  deriving DecidableEq, Repr

structure Entity where
  id : String
  ownerId : String
  kind : EntityKind
  name : String
  aliases : List String := []
  firstSeenAtMs : Int
  lastSeenAtMs : Int
  provenance : Provenance
  acl : ObjectAcl
  deriving DecidableEq, Repr

structure Event where
  id : String
  ownerId : String
  summary : String
  body : Option String := none
  entityIds : List String := []
  source : SourceRef
  encryptedContent : Option EncryptedContentRef := none
  provenance : Provenance
  acl : ObjectAcl
  deriving DecidableEq, Repr

/-- The commitment facet of a claim: someone owes something. -/
structure Commitment where
  owedByEntityId : String
  owedToEntityId : Option String := none
  dueAtMs : Option Int := none
  fulfillment : FulfillmentStatus := .open
  settledAtMs : Option Int := none
  deriving DecidableEq, Repr

structure Claim where
  id : String
  ownerId : String
  statement : String
  subjectEntityIds : List String := []
  status : ClaimStatus := .active
  supersedes : List String := []
  contradicts : List String := []
  reconciledInto : Option String := none
  commitment : Option Commitment := none
  assertedAtMs : Int
  provenance : Provenance
  acl : ObjectAcl
  deriving DecidableEq, Repr

inductive MemoryNode where
  | entity (e : Entity)
  | event (e : Event)
  | claim (c : Claim)
  deriving DecidableEq, Repr

/-- `metadata`, as far as extraction reads it: the `cites` entries, each as its string. -/
structure RecordMetadata where
  cites : List String := []
  deriving DecidableEq, Repr

structure RawRecord where
  externalId : String
  connector : SourceId
  occurredAtMs : Int
  title : String
  body : String
  url : Option String := none
  sensitive : Bool := false
  participants : List String := []
  metadata : RecordMetadata := {}
  deriving DecidableEq, Repr

/-- Extractor output, before resolution against what is already stored. -/
structure Candidate where
  entities : List Entity := []
  events : List Event := []
  claims : List Claim := []
  deriving DecidableEq, Repr

def SourceRef.unstamped (r : SourceRef) : SourceRef := { r with ingestedAtMs := 0 }

def Citation.unstamped (c : Citation) : Citation := { c with source := c.source.unstamped }

/-- Without the times at which a record happened to be ingested. -/
def Provenance.unstamped (p : Provenance) : Provenance :=
  { p with citations := p.citations.map Citation.unstamped, createdAtMs := 0 }

def Entity.unstamped (e : Entity) : Entity := { e with provenance := e.provenance.unstamped }

def Event.unstamped (e : Event) : Event :=
  { e with source := e.source.unstamped, provenance := e.provenance.unstamped }

def Claim.unstamped (c : Claim) : Claim := { c with provenance := c.provenance.unstamped }

def Candidate.unstamped (c : Candidate) : Candidate where
  entities := c.entities.map Entity.unstamped
  events := c.events.map Event.unstamped
  claims := c.claims.map Claim.unstamped

namespace MemoryNode

def id : MemoryNode → String
  | .entity e => e.id
  | .event e => e.id
  | .claim c => c.id

def ownerId : MemoryNode → String
  | .entity e => e.ownerId
  | .event e => e.ownerId
  | .claim c => c.ownerId

def acl : MemoryNode → ObjectAcl
  | .entity e => e.acl
  | .event e => e.acl
  | .claim c => c.acl

def provenance : MemoryNode → Provenance
  | .entity e => e.provenance
  | .event e => e.provenance
  | .claim c => c.provenance

def citations (n : MemoryNode) : List Citation := n.provenance.citations

end MemoryNode
end Memorai.Schema
