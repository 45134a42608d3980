import Memorai.Schema.Records

/-! What ingestion may rely on about an extractor's output. Candidates are unresolved: the
extractor does not know what is already stored. -/
namespace Memorai.Extraction
open Schema

/-- `_acl`: every object of a record is guarded by the record's own connector and sensitivity. -/
def acl (ownerId : String) (record : RawRecord) (kinds : List EntityKind) : ObjectAcl where
  ownerId := ownerId
  sources := [record.connector]
  sensitivity := if record.sensitive then .confidential else .personal
  entityKinds := kinds
  occurredAtMs := record.occurredAtMs
  deniedAgents := []

/-- `ids` names entities of the candidate only. -/
def Names (candidate : Candidate) (ids : List String) : Prop := ∀ x ∈ ids, ∃ e ∈ candidate.entities, e.id = x

instance (candidate : Candidate) (ids : List String) : Decidable (Names candidate ids) := by
  unfold Names; infer_instance

def parties (claim : Claim) : List String :=
  (claim.commitment.map Commitment.owedByEntityId).toList ++ (claim.commitment.bind Commitment.owedToEntityId).toList

/-- `ids` names some entities of the candidate, and `kinds` are the kinds of these. -/
def KindsOf (candidate : Candidate) (ids : List String) (kinds : List EntityKind) : Prop :=
  ∃ named : List Entity, (∀ e ∈ named, e ∈ candidate.entities) ∧ ids = named.map Entity.id ∧
    ∀ k, k ∈ kinds ↔ ∃ e ∈ named, e.kind = k

/-- The part of the contract every extractor is documented to keep: a claim of this owner about
entities of its own candidate, never marked as superseding or contradicting anything. -/
structure Unresolved (ownerId : String) (candidate : Candidate) (claim : Claim) : Prop where
  owner : claim.ownerId = ownerId
  status : claim.status = .active
  supersedes : claim.supersedes = []
  contradicts : claim.contradicts = []
  subjects : Names candidate claim.subjectEntityIds
  owed : Names candidate (parties claim)
  named : "" ∉ parties claim

/-- Ids as `stable_id` builds them: what an object is stands in front of the digest. -/
structure TypedIds (candidate : Candidate) : Prop where
  entities : ∀ e ∈ candidate.entities, ∃ digest, e.id = "ent_" ++ digest
  events : ∀ e ∈ candidate.events, ∃ digest, e.id = "evt_" ++ digest
  claims : ∀ c ∈ candidate.claims, ∃ digest, c.id = "clm_" ++ digest

theorem KindsOf.names {candidate : Candidate} {ids : List String} {kinds : List EntityKind}
    (h : KindsOf candidate ids kinds) : Names candidate ids := by
  obtain ⟨named, hin, rfl, _⟩ := h
  intro x hx
  obtain ⟨e, he, rfl⟩ := List.mem_map.mp hx
  exact ⟨e, hin e he, rfl⟩

structure EntityOf (ownerId : String) (record : RawRecord) (event : Event) (entity : Entity) : Prop where
  owner : entity.ownerId = ownerId
  seen : entity.firstSeenAtMs = record.occurredAtMs ∧ entity.lastSeenAtMs = record.occurredAtMs
  cites : ∀ c ∈ entity.provenance.citations, c.eventId = event.id ∧ c.source = event.source
  guard : entity.acl = acl ownerId record [entity.kind]

structure ClaimOf (ownerId : String) (record : RawRecord) (candidate : Candidate) (event : Event)
    (claim : Claim) : Prop extends Unresolved ownerId candidate claim where
  reconciled : claim.reconciledInto = none
  asserted : claim.assertedAtMs = record.occurredAtMs
  cites : ∀ c ∈ claim.provenance.citations, c.eventId = event.id ∧ c.source = event.source
  guard : ∃ kinds, claim.acl = acl ownerId record kinds ∧
    KindsOf candidate (claim.subjectEntityIds ++ parties claim) kinds

structure EventOf (ownerId : String) (record : RawRecord) (candidate : Candidate) (event : Event) : Prop where
  owner : event.ownerId = ownerId
  connector : event.source.connector = record.connector
  externalId : event.source.externalId = record.externalId
  occurred : event.source.occurredAtMs = record.occurredAtMs
  body : event.body = if record.sensitive then none else some record.body
  entities : event.entityIds = candidate.entities.map Entity.id
  clear : event.encryptedContent = none
  own : ∃ c ∈ event.provenance.citations, c.eventId = event.id ∧ c.source = event.source
  guard : ∃ kinds, event.acl = acl ownerId record kinds ∧ KindsOf candidate event.entityIds kinds

/-- `candidate` is what an extractor may return for `record`: one event, and entities and
claims that belong to it. -/
structure Extracts (ownerId : String) (record : RawRecord) (candidate : Candidate) : Prop where
  event : ∃ event, candidate.events = [event] ∧ EventOf ownerId record candidate event ∧
    (∀ entity ∈ candidate.entities, EntityOf ownerId record event entity) ∧
    ∀ claim ∈ candidate.claims, ClaimOf ownerId record candidate event claim
  typed : TypedIds candidate

/-- All that an event says in words, but for its body: the title of its record. -/
structure TitleOnly (record : RawRecord) (event : Event) : Prop where
  summary : event.summary = record.title
  quotes : ∀ c ∈ event.provenance.citations, ∀ quote, c.quote = some quote → quote = record.title

theorem Extracts.unresolved {ownerId : String} {record : RawRecord} {candidate : Candidate}
    (h : Extracts ownerId record candidate) : ∀ claim ∈ candidate.claims, Unresolved ownerId candidate claim := by
  obtain ⟨_, _, _, _, hclaims⟩ := h.event
  exact fun claim hc => (hclaims claim hc).toUnresolved

end Memorai.Extraction
