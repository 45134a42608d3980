import Mathlib.Data.List.Induction
import Memorai.Collections.Results
import Memorai.Extraction.Llm

/-! The rule-based extractor: what it makes of a record and of the places where its patterns match. -/
namespace Memorai.Extraction.Mock
open Schema Text Results

def NAME : String := "mock-extractor@v1"

/-- One match of `_CLAIM_RE`, as a whole and by its groups. -/
structure ClaimMatch where
  whole : String
  person : String
  statement : String
  deriving DecidableEq, Repr

/-- One match of `_COMMITMENT_RE`. -/
structure CommitmentMatch where
  whole : String
  owedBy : String
  owedTo : Option String := none
  obligation : String
  due : Option String := none
  deriving DecidableEq, Repr

/-- What the patterns find in a text, each from left to right. -/
structure Matches where
  claims : List ClaimMatch := []
  commitments : List CommitmentMatch := []
  projects : List String := []
  artifacts : List String := []
  deriving DecidableEq, Repr

/-- What makes an extraction raise: a reference to no source id, a deadline that is not a day. -/
inductive Raised where
  | validation (connector : String)
  | value (date : String)
  deriving DecidableEq, Repr

section Extract
variable (env : Ambient) (ownerId : String) (record : RawRecord)

def dueMs (date : Option String) : Except Raised (Option Int) :=
  match date with
  | none => .ok none
  | some d =>
    if d = "" then .ok none
    else
      match env.parseDay d with
      | some ms => .ok (some ms)
      | none => .error (.value d)

def entityOf (kind : EntityKind) (name : String) : Entity := Llm.entityOf env ownerId record NAME { kind := kind, name := name }

/-- `add_entity`: the entities afterwards, and the one of this name. -/
def addEntity (entities : List Entity) (kind : EntityKind) (name : String) : List Entity × Entity :=
  match entities.find? (fun e => e.id = stableId env "ent" [ownerId, kind.value, env.lower name]) with
  | some existing => (entities, existing)
  | none => (entities ++ [entityOf env ownerId record kind name], entityOf env ownerId record kind name)

/-- Who and what the record and the matches name, in the order it is added. -/
def mentions (found : Matches) : List (EntityKind × String) :=
  record.participants.map (fun person => (.person, person)) ++
    found.claims.map (fun m => (.person, m.person)) ++
    found.commitments.flatMap (fun m => (.person, m.owedBy) :: m.owedTo.toList.map (fun person => (.person, person))) ++
    found.projects.map (fun name => (.project, name)) ++ found.artifacts.map (fun name => (.artifact, name))

def entitiesOf (named : List (EntityKind × String)) : List Entity :=
  named.foldl (fun entities (kind, name) => (addEntity env ownerId record entities kind name).1) []

/-- A record that points at another one, as `connector:external_id`. -/
def referenceOf (reference : String) : Except Raised Citation :=
  let (connector, externalId) := partition ':' reference
  if h : checkSourceId connector = true then
    .ok
      { eventId := stableId env "evt" [ownerId, connector, externalId]
        -- The times are the reference's, not those of the cited record.
        source :=
          { connector := ⟨connector, h⟩
            externalId := externalId
            occurredAtMs := record.occurredAtMs
            ingestedAtMs := env.nowMs } }
  else .error (.validation connector)

def eventOf (entities : List Entity) (references : List Citation) : Event where
  id := eventIdOf env ownerId record
  ownerId := ownerId
  summary := record.title
  body := if record.sensitive then none else some record.body
  entityIds := entities.map Entity.id
  source := sourceOf env record
  encryptedContent := none
  provenance :=
    { citations := ⟨eventIdOf env ownerId record, sourceOf env record, some record.title⟩ :: references
      derivedBy := NAME
      createdAtMs := env.nowMs }
  acl := acl ownerId record (kindsOf entities)

def subjectsOf (entities : List Entity) : List Entity :=
  entities.filter (fun e => e.kind = .project ∨ e.kind = .artifact)

/-- A claim of this record, before it is anyone's obligation. -/
def statedClaim (entities : List Entity) (statement whole : String) : Claim where
  id := stableId env "clm" [ownerId, eventIdOf env ownerId record, statement]
  ownerId := ownerId
  statement := statement
  subjectEntityIds := (subjectsOf entities).map Entity.id
  status := .active
  supersedes := []
  contradicts := []
  reconciledInto := none
  assertedAtMs := record.occurredAtMs
  provenance := Llm.provenance env ownerId record NAME whole
  acl := acl ownerId record (kindsOf (subjectsOf entities))

def claimOf (entities : List Entity) (m : ClaimMatch) : Claim :=
  statedClaim env ownerId record entities (strip m.statement ++ ".") m.whole

/-- The parties of a commitment. They are among the entities already. -/
def partiesOf (entities : List Entity) (m : CommitmentMatch) : Entity × Option Entity :=
  ((addEntity env ownerId record entities .person m.owedBy).2,
    m.owedTo.map (fun owedTo => (addEntity env ownerId record entities .person owedTo).2))

/-- Who owes it is in the facet and not in the statement. -/
def commitmentOf (entities : List Entity) (m : CommitmentMatch) : Except Raised Claim := do
  let statement := match m.due with
    | some due => if due = "" then strip m.obligation else strip m.obligation ++ " by " ++ due
    | none => strip m.obligation
  let (owedBy, owedTo) := partiesOf env ownerId record entities m
  let dueAtMs ← dueMs env m.due
  .ok { statedClaim env ownerId record entities (statement ++ ".") m.whole with
    commitment := some
      { owedByEntityId := owedBy.id
        owedToEntityId := owedTo.map Entity.id
        dueAtMs := dueAtMs
        fulfillment := .open
        settledAtMs := none }
    acl := acl ownerId record (kindsOf (subjectsOf entities ++ owedBy :: owedTo.toList)) }

/-- `MockExtractor.extract` -/
def extract (find : String → Matches) : Except Raised Candidate := do
  let found := find (record.title ++ ". " ++ record.body)
  let entities := entitiesOf env ownerId record (mentions record found)
  let references ← record.metadata.cites.mapM (referenceOf env ownerId record)
  let commitments ← found.commitments.mapM (commitmentOf env ownerId record entities)
  .ok
    { entities := entities
      events := [eventOf env ownerId record entities references]
      claims := found.claims.map (claimOf env ownerId record entities) ++ commitments }

end Extract

section Entities
variable {env : Ambient} {ownerId : String} {record : RawRecord} {entities : List Entity} {kind : EntityKind} {name : String}

/-- An entity that is known is the one that is found, and none is added. -/
theorem addEntity_of_known (h : ∃ e ∈ entities, e.id = stableId env "ent" [ownerId, kind.value, env.lower name]) :
    (addEntity env ownerId record entities kind name).1 = entities ∧
      (addEntity env ownerId record entities kind name).2 ∈ entities := by
  obtain ⟨e, he, hid⟩ := h
  unfold addEntity
  split
  · exact ⟨rfl, List.mem_of_find?_eq_some ‹_›⟩
  · rename_i hnone
    exact absurd hid (by simpa using List.find?_eq_none.mp hnone e he)

theorem mem_addEntity {e : Entity} (h : e ∈ (addEntity env ownerId record entities kind name).1) :
    e ∈ entities ∨ e = entityOf env ownerId record kind name := by
  unfold addEntity at h
  split at h
  · exact Or.inl h
  · rcases List.mem_append.mp h with h | h
    · exact Or.inl h
    · exact Or.inr (List.mem_singleton.mp h)

theorem addEntity_mono {e : Entity} (h : e ∈ entities) : e ∈ (addEntity env ownerId record entities kind name).1 := by
  unfold addEntity
  split
  · exact h
  · exact List.mem_append_left _ h

theorem known_addEntity :
    ∃ e ∈ (addEntity env ownerId record entities kind name).1, e.id = stableId env "ent" [ownerId, kind.value, env.lower name] := by
  unfold addEntity
  split
  · rename_i existing hfind
    exact ⟨existing, List.mem_of_find?_eq_some hfind, by simpa using List.find?_some hfind⟩
  · exact ⟨_, List.mem_append_right _ List.mem_cons_self, rfl⟩

private theorem entitiesOf_concat (named : List (EntityKind × String)) (p : EntityKind × String) :
    entitiesOf env ownerId record (named ++ [p]) =
      (addEntity env ownerId record (entitiesOf env ownerId record named) p.1 p.2).1 := by
  rw [entitiesOf, List.foldl_append]
  rfl

theorem mem_entitiesOf {named : List (EntityKind × String)} {e : Entity} (h : e ∈ entitiesOf env ownerId record named) :
    ∃ kind name, e = entityOf env ownerId record kind name := by
  induction named using List.reverseRecOn with
  | nil => exact absurd h List.not_mem_nil
  | append_singleton named p ih =>
    rw [entitiesOf_concat] at h
    rcases mem_addEntity h with h | h
    · exact ih h
    · exact ⟨p.1, p.2, h⟩

/-- Everything that is named is there, under the id of its kind and lowered name. -/
theorem known_entitiesOf {named : List (EntityKind × String)} (h : (kind, name) ∈ named) :
    ∃ e ∈ entitiesOf env ownerId record named, e.id = stableId env "ent" [ownerId, kind.value, env.lower name] := by
  induction named using List.reverseRecOn with
  | nil => exact absurd h List.not_mem_nil
  | append_singleton named p ih =>
    rw [entitiesOf_concat]
    rcases List.mem_append.mp h with h | h
    · obtain ⟨e, he, hid⟩ := ih h
      exact ⟨e, addEntity_mono he, hid⟩
    · obtain rfl := List.mem_singleton.mp h
      exact known_addEntity

end Entities

section Contract
variable {env : Ambient} {ownerId : String} {record : RawRecord} {entities : List Entity}

/-- The parties of a match are among the entities, since they were named before. -/
theorem mem_partiesOf {found : Matches} {m : CommitmentMatch} (hm : m ∈ found.commitments)
    (hentities : entities = entitiesOf env ownerId record (mentions record found)) {e : Entity}
    (he : e ∈ (partiesOf env ownerId record entities m).1 :: (partiesOf env ownerId record entities m).2.toList) :
    e ∈ entities := by
  have hknown : ∀ person, person = m.owedBy ∨ m.owedTo = some person →
      (addEntity env ownerId record entities .person person).2 ∈ entities := by
    intro person hperson
    have hnamed : (EntityKind.person, person) ∈ mentions record found := by
      unfold mentions
      simp only [List.mem_append, List.mem_flatMap]
      refine Or.inl (Or.inl (Or.inr ⟨m, hm, ?_⟩))
      rcases hperson with rfl | hperson
      · exact List.mem_cons_self
      · rw [hperson]
        simp
    subst hentities
    exact (addEntity_of_known (known_entitiesOf hnamed)).2
  rcases List.mem_cons.mp he with rfl | he
  · exact hknown _ (Or.inl rfl)
  · obtain ⟨person, hperson, rfl⟩ := Option.map_eq_some_iff.mp (Option.mem_toList.mp he)
    exact hknown _ (Or.inr hperson)

theorem mem_subjectsOf {e : Entity} (h : e ∈ subjectsOf entities) : e ∈ entities := (List.mem_filter.mp h).1

private theorem ids_parties (owedBy : Entity) (owedTo : Option Entity) :
    owedBy.id :: (owedTo.map Entity.id).toList = (owedBy :: owedTo.toList).map Entity.id := by
  cases owedTo with
  | none => rfl
  | some e => rfl

/-- What is stated, with or without parties who owe it, is a claim about the candidate's entities. -/
private theorem claimOf_statedClaim {candidate : Candidate} {event : Event} (hevent : event.id = eventIdOf env ownerId record)
    (hsource : event.source = sourceOf env record) (hids : ∀ e ∈ candidate.entities, e.id ≠ "") {named about : List Entity}
    (hnamed : ∀ e ∈ named, e ∈ candidate.entities) (commitment : Option Commitment)
    (hparties : (commitment.map Commitment.owedByEntityId).toList ++ (commitment.bind Commitment.owedToEntityId).toList =
      named.map Entity.id) (statement whole : String) (habout : about = subjectsOf candidate.entities ++ named) :
    ClaimOf ownerId record candidate event
      { statedClaim env ownerId record candidate.entities statement whole with
        commitment := commitment
        acl := acl ownerId record (kindsOf about) } := by
  have hkinds : KindsOf candidate ((subjectsOf candidate.entities).map Entity.id ++ named.map Entity.id) (kindsOf about) := by
    subst habout
    refine ⟨_, fun e he => (List.mem_append.mp he).elim mem_subjectsOf (hnamed e), ?_, mem_kindsOf _⟩
    rw [List.map_append]
  have hnames := hkinds.names
  refine
    { owner := rfl, status := rfl, supersedes := rfl, contradicts := rfl, reconciled := rfl, asserted := rfl
      subjects := fun x hx => hnames x (List.mem_append_left _ hx)
      owed := fun x hx => hnames x (List.mem_append_right _ (hparties ▸ hx))
      named := fun hempty => ?_
      cites := fun c hc => ?_
      guard := ⟨_, rfl, ?_⟩ }
  · obtain ⟨e, he, hid⟩ := hnames "" (List.mem_append_right _ (hparties ▸ hempty))
    exact hids e he hid
  · obtain rfl := List.mem_singleton.mp hc
    exact ⟨hevent.symm, hsource.symm⟩
  · rw [← hparties] at hkinds
    exact hkinds

/-- Whatever the patterns match, the extractor keeps the contract. -/
theorem extract_extracts {find : String → Matches} {candidate : Candidate}
    (h : extract env ownerId record find = .ok candidate) : Extracts ownerId record candidate := by
  obtain ⟨references, hreferences, h⟩ := bind_ok h
  obtain ⟨commitments, hcommitments, h⟩ := bind_ok h
  obtain rfl := Except.ok.inj h
  have hent : ∀ e ∈ entitiesOf env ownerId record (mentions record (find (record.title ++ ". " ++ record.body))),
      ∃ kind name, e = entityOf env ownerId record kind name := fun e he => mem_entitiesOf he
  have hids : ∀ e ∈ entitiesOf env ownerId record (mentions record (find (record.title ++ ". " ++ record.body))), e.id ≠ "" := by
    intro e he
    obtain ⟨kind, name, rfl⟩ := hent e he
    exact Llm.stableId_ne_empty _ _
  refine ⟨⟨_, rfl, ?_, ?_, ?_⟩, ?_⟩
  · exact
      { owner := rfl, connector := rfl, externalId := rfl, occurred := rfl, body := rfl, entities := rfl, clear := rfl
        own := ⟨_, List.mem_cons_self, rfl, rfl⟩
        guard := ⟨_, rfl, _, fun e he => he, rfl, mem_kindsOf _⟩ }
  · intro e he
    obtain ⟨kind, name, rfl⟩ := hent e he
    refine ⟨rfl, ⟨rfl, rfl⟩, fun c hc => ?_, rfl⟩
    obtain rfl := List.mem_singleton.mp hc
    exact ⟨rfl, rfl⟩
  · intro claim hclaim
    rcases List.mem_append.mp hclaim with hclaim | hclaim
    · obtain ⟨m, _, rfl⟩ := List.mem_map.mp hclaim
      exact claimOf_statedClaim rfl rfl hids (fun e he => absurd he List.not_mem_nil) none rfl _ _ (List.append_nil _).symm
    · obtain ⟨m, hm, hclaim⟩ := exists_of_mapM hcommitments hclaim
      obtain ⟨dueAtMs, _, hclaim⟩ := bind_ok hclaim
      obtain rfl := Except.ok.inj hclaim
      refine claimOf_statedClaim rfl rfl hids (fun e he => mem_partiesOf hm rfl he) _ ?_ _ _ rfl
      exact ids_parties _ (partiesOf env ownerId record _ m).2
  · refine ⟨fun e he => ?_, fun e he => ?_, fun c hc => ?_⟩
    · obtain ⟨kind, name, rfl⟩ := hent e he
      exact ⟨_, rfl⟩
    · obtain rfl := List.mem_singleton.mp he
      exact ⟨_, rfl⟩
    · rcases List.mem_append.mp hc with hc | hc
      · obtain ⟨m, _, rfl⟩ := List.mem_map.mp hc
        exact ⟨_, rfl⟩
      · obtain ⟨m, _, hc⟩ := exists_of_mapM hcommitments hc
        obtain ⟨dueAtMs, _, hc⟩ := bind_ok hc
        obtain rfl := Except.ok.inj hc
        exact ⟨_, rfl⟩

/-- A reference quotes nothing. -/
private theorem quote_referenceOf {reference : String} {citation : Citation} (h : referenceOf env ownerId record reference = .ok citation) :
    citation.quote = none := by
  unfold referenceOf at h
  dsimp only at h
  split_ifs at h
  obtain rfl := Except.ok.inj h
  rfl

theorem extract_titleOnly {find : String → Matches} {candidate : Candidate} (h : extract env ownerId record find = .ok candidate) :
    ∀ event ∈ candidate.events, TitleOnly record event := by
  obtain ⟨references, hreferences, h⟩ := bind_ok h
  obtain ⟨_, _, h⟩ := bind_ok h
  obtain rfl := Except.ok.inj h
  intro event hevent
  obtain rfl := List.mem_singleton.mp hevent
  refine ⟨rfl, fun c hc quote hquote => ?_⟩
  rcases List.mem_cons.mp hc with rfl | hc
  · exact (Option.some.inj hquote).symm
  · obtain ⟨_, _, hreference⟩ := exists_of_mapM hreferences hc
    exact absurd ((quote_referenceOf hreference).symm.trans hquote) (by simp)

end Contract
end Memorai.Extraction.Mock
