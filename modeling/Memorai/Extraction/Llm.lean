import Memorai.Extraction.Contract
import Memorai.Text.Strings

/-! The model-backed extractor: what it makes of a record and one answer of the model. -/
namespace Memorai.Extraction
open Schema Text

/-- What an extractor takes from outside: `str.lower`, the digest behind an id, the calendar, the clock. -/
structure Ambient where
  lower : String → String
  digest : String → String
  parseDay : String → Option Int
  nowMs : Int

/-- Content-addressed, so that the same record gives the same id. -/
def stableId (env : Ambient) (tag : String) (parts : List String) : String :=
  tag ++ "_" ++ env.digest (join "\x1f" parts)

def eventIdOf (env : Ambient) (ownerId : String) (record : RawRecord) : String :=
  stableId env "evt" [ownerId, record.connector.val, record.externalId]

def sourceOf (env : Ambient) (record : RawRecord) : SourceRef where
  connector := record.connector
  externalId := record.externalId
  url := record.url
  occurredAtMs := record.occurredAtMs
  ingestedAtMs := env.nowMs

/-- `sorted({e.kind for e in entities}, key=lambda k: k.value)` -/
def kindsOf (entities : List Entity) : List EntityKind :=
  [.artifact, .organization, .person, .project, .topic].filter (fun k => entities.any (fun e => e.kind = k))

theorem mem_kindsOf (entities : List Entity) (k : EntityKind) : k ∈ kindsOf entities ↔ ∃ e ∈ entities, e.kind = k := by
  cases k <;> simp [kindsOf]

namespace Llm

structure RawEntity where
  kind : EntityKind
  name : String
  aliases : List String := []
  deriving DecidableEq, Repr

structure RawCommitment where
  owedBy : String := ""
  owedTo : Option String := none
  dueAt : Option String := none
  deriving DecidableEq, Repr

structure RawClaim where
  statement : String
  subjects : List String := []
  commitment : Option RawCommitment := none
  deriving DecidableEq, Repr

/-- An answer of the model with the promised fields. -/
structure Answer where
  entities : List RawEntity := []
  claims : List RawClaim := []
  deriving DecidableEq, Repr

section Candidate
variable (env : Ambient)

/-- A deadline the model got wrong is dropped. -/
def dueMs (date : Option String) : Option Int :=
  date.bind (fun d => if d = "" then none else env.parseDay d)

/-- The entity a lowered name stands for: the last one that was given it. -/
def byName (entities : List Entity) (name : String) : Option Entity :=
  (entities.filter (fun e => env.lower e.name = name)).getLast?

/-- The facet and its parties. Without a party who owes it there is no commitment. -/
def commitmentOf (entities : List Entity) (raw : Option RawCommitment) : Option Commitment × List Entity :=
  match raw with
  | none => (none, [])
  | some c =>
    match byName env entities (env.lower c.owedBy) with
    | none => (none, [])
    | some owedBy =>
      let owedTo := byName env entities (env.lower (c.owedTo.getD ""))
      (some
        { owedByEntityId := owedBy.id
          owedToEntityId := owedTo.map Entity.id
          dueAtMs := dueMs env c.dueAt
          fulfillment := .open
          settledAtMs := none },
        owedBy :: owedTo.toList)

variable (ownerId : String) (record : RawRecord) (derivedBy : String)

def provenance (quote : String) : Provenance where
  citations := [⟨eventIdOf env ownerId record, sourceOf env record, some quote⟩]
  derivedBy := derivedBy
  createdAtMs := env.nowMs

def entityOf (raw : RawEntity) : Entity where
  id := stableId env "ent" [ownerId, raw.kind.value, env.lower raw.name]
  ownerId := ownerId
  kind := raw.kind
  name := raw.name
  aliases := raw.aliases
  firstSeenAtMs := record.occurredAtMs
  lastSeenAtMs := record.occurredAtMs
  provenance := provenance env ownerId record derivedBy raw.name
  acl := acl ownerId record [raw.kind]

def eventOf (entities : List Entity) : Event where
  id := eventIdOf env ownerId record
  ownerId := ownerId
  summary := record.title
  body := if record.sensitive then none else some record.body
  entityIds := entities.map Entity.id
  source := sourceOf env record
  encryptedContent := none
  provenance := provenance env ownerId record derivedBy record.title
  acl := acl ownerId record (kindsOf entities)

def claimOf (entities : List Entity) (raw : RawClaim) : Claim :=
  let subjects := raw.subjects.filterMap (fun s => byName env entities (env.lower s))
  let (commitment, parties) := commitmentOf env entities raw.commitment
  { id := stableId env "clm" [ownerId, eventIdOf env ownerId record, raw.statement]
    ownerId := ownerId
    statement := raw.statement
    subjectEntityIds := subjects.map Entity.id
    status := .active
    supersedes := []
    contradicts := []
    reconciledInto := none
    commitment := commitment
    assertedAtMs := record.occurredAtMs
    provenance := provenance env ownerId record derivedBy raw.statement
    -- The parties are part of what the object is about.
    acl := acl ownerId record (kindsOf (subjects ++ parties)) }

/-- `_to_candidate` -/
def toCandidate (answer : Answer) : Candidate :=
  let entities := answer.entities.map (entityOf env ownerId record derivedBy)
  { entities := entities
    events := [eventOf env ownerId record derivedBy entities]
    claims := answer.claims.map (claimOf env ownerId record derivedBy entities) }

end Candidate

variable {env : Ambient}

theorem mem_of_byName {entities : List Entity} {name : String} {e : Entity} (h : byName env entities name = some e) :
    e ∈ entities :=
  (List.mem_filter.mp (List.mem_of_getLast? h)).1

/-- The parties are entities of the answer, and the facet names these and no others. -/
theorem commitmentOf_spec (env : Ambient) (entities : List Entity) (raw : Option RawCommitment) :
    (∀ e ∈ (commitmentOf env entities raw).2, e ∈ entities) ∧
      ((commitmentOf env entities raw).1.map Commitment.owedByEntityId).toList ++
        ((commitmentOf env entities raw).1.bind Commitment.owedToEntityId).toList =
          (commitmentOf env entities raw).2.map Entity.id := by
  cases raw with
  | none => simp [commitmentOf]
  | some c =>
    cases hby : byName env entities (env.lower c.owedBy) with
    | none => simp [commitmentOf, hby]
    | some owedBy =>
      have howed := mem_of_byName hby
      cases hto : byName env entities (env.lower (c.owedTo.getD "")) with
      | none => simp [commitmentOf, hby, hto, howed]
      | some owedTo =>
        have hparty := mem_of_byName hto
        simp [commitmentOf, hby, hto, howed, hparty]

theorem stableId_ne_empty (tag : String) (parts : List String) : stableId env tag parts ≠ "" := by
  intro h
  have hlen := congrArg String.length h
  simp [stableId] at hlen

/-- What is claimed about the entities of a candidate. -/
theorem claimOf_claimOf (env : Ambient) (ownerId : String) (record : RawRecord) (derivedBy : String) {candidate : Candidate}
    (hids : ∀ e ∈ candidate.entities, e.id ≠ "") (raw : RawClaim) :
    ClaimOf ownerId record candidate (eventOf env ownerId record derivedBy candidate.entities)
      (claimOf env ownerId record derivedBy candidate.entities raw) := by
  obtain ⟨hin, hparties⟩ := commitmentOf_spec env candidate.entities raw.commitment
  have hsubjects : ∀ e ∈ raw.subjects.filterMap (fun s => byName env candidate.entities (env.lower s)),
      e ∈ candidate.entities := by
    intro e he
    obtain ⟨s, _, hs⟩ := List.mem_filterMap.mp he
    exact mem_of_byName hs
  have hkinds : KindsOf candidate
      ((claimOf env ownerId record derivedBy candidate.entities raw).subjectEntityIds ++
        parties (claimOf env ownerId record derivedBy candidate.entities raw))
      (kindsOf (raw.subjects.filterMap (fun s => byName env candidate.entities (env.lower s)) ++
        (commitmentOf env candidate.entities raw.commitment).2)) := by
    refine ⟨_, fun e he => (List.mem_append.mp he).elim (hsubjects e) (hin e), ?_, mem_kindsOf _⟩
    rw [List.map_append, ← hparties]
    rfl
  have hnames := hkinds.names
  refine ⟨⟨rfl, rfl, rfl, rfl, ?_, ?_, ?_⟩, rfl, rfl, fun c hc => ?_, _, rfl, hkinds⟩
  · exact fun x hx => hnames x (List.mem_append_left _ hx)
  · exact fun x hx => hnames x (List.mem_append_right _ hx)
  · intro hempty
    obtain ⟨e, he, hid⟩ := hnames "" (List.mem_append_right _ hempty)
    exact hids e he hid
  · obtain rfl := List.mem_singleton.mp hc
    exact ⟨rfl, rfl⟩

theorem toCandidate_extracts (env : Ambient) (ownerId : String) (record : RawRecord) (derivedBy : String) (answer : Answer) :
    Extracts ownerId record (toCandidate env ownerId record derivedBy answer) := by
  have hent : ∀ e ∈ (toCandidate env ownerId record derivedBy answer).entities,
      ∃ raw, e = entityOf env ownerId record derivedBy raw := by
    intro e he
    obtain ⟨raw, _, rfl⟩ := List.mem_map.mp he
    exact ⟨raw, rfl⟩
  have hids : ∀ e ∈ (toCandidate env ownerId record derivedBy answer).entities, e.id ≠ "" := by
    intro e he
    obtain ⟨raw, rfl⟩ := hent e he
    exact stableId_ne_empty _ _
  refine ⟨⟨eventOf env ownerId record derivedBy (toCandidate env ownerId record derivedBy answer).entities, rfl, ?_, ?_, ?_⟩, ?_⟩
  · exact
      { owner := rfl, connector := rfl, externalId := rfl, occurred := rfl, body := rfl, entities := rfl, clear := rfl
        own := ⟨_, List.mem_singleton_self _, rfl, rfl⟩
        guard := ⟨_, rfl, _, fun e he => he, rfl, mem_kindsOf _⟩ }
  · intro e he
    obtain ⟨raw, rfl⟩ := hent e he
    refine ⟨rfl, ⟨rfl, rfl⟩, fun c hc => ?_, rfl⟩
    obtain rfl := List.mem_singleton.mp hc
    exact ⟨rfl, rfl⟩
  · intro claim hclaim
    obtain ⟨raw, _, rfl⟩ := List.mem_map.mp hclaim
    exact claimOf_claimOf env ownerId record derivedBy hids raw
  · refine ⟨fun e he => ?_, fun e he => ?_, fun c hc => ?_⟩
    · obtain ⟨raw, rfl⟩ := hent e he
      exact ⟨_, rfl⟩
    · obtain rfl := List.mem_singleton.mp he
      exact ⟨_, rfl⟩
    · obtain ⟨raw, _, rfl⟩ := List.mem_map.mp hc
      exact ⟨_, rfl⟩

theorem toCandidate_titleOnly (env : Ambient) (ownerId : String) (record : RawRecord) (derivedBy : String) (answer : Answer) :
    ∀ event ∈ (toCandidate env ownerId record derivedBy answer).events, TitleOnly record event := by
  intro event hevent
  obtain rfl := List.mem_singleton.mp hevent
  refine ⟨rfl, fun c hc quote hquote => ?_⟩
  obtain rfl := List.mem_singleton.mp hc
  exact (Option.some.inj hquote).symm

end Llm
end Memorai.Extraction
