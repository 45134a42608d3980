import Mathlib.Algebra.GroupWithZero.Nat
import Memorai.Collections.Dict
import Memorai.Extraction.Mock
import Memorai.Resolution.Resolver

/-! The ingestion graph after extraction: resolve, encrypt, write. -/
namespace Memorai.Ingestion
open Schema Storage Extraction Resolver

/-- What the gateway returns for one sealed body. -/
structure Sealed where
  ref : EncryptedContentRef
  ciphertext : List Nat
  attestation : String
  deriving DecidableEq, Repr

/-- One run after its `extract` node: the records with their candidates, the gateway's answer
to each body it is handed, and the order the database returns rows in. -/
structure Job where
  ownerId : String
  extracted : List (RawRecord × Candidate)
  sealBody : RawRecord → Except String Sealed
  rows : RowOrder Claim
  contract : ∀ p ∈ extracted, ∀ claim ∈ p.2.claims, Unresolved ownerId p.2 claim
  typed : ∀ p ∈ extracted, TypedIds p.2

namespace Job

def records (job : Job) : List RawRecord := job.extracted.map Prod.fst

def candidates (job : Job) : List Candidate := job.extracted.map Prod.snd

def claims (job : Job) : List Claim := job.candidates.flatMap Candidate.claims

end Job

/-- A candidate with the claims its resolution kept, as the end of the batch left them. -/
def mergeOne (pending : List Claim) (candidate : Candidate) (resolution : Resolution) : Candidate :=
  { candidate with claims := resolution.newClaims.filterMap (fun i => pending[i]?) }

/-- The `resolve` node's candidates. -/
def merge (candidates : List Candidate) (resolved : List Resolution × List Claim) : List Candidate :=
  List.zipWith (mergeOne resolved.2) candidates resolved.1

def sensitiveRecords (records : List RawRecord) : List (String × RawRecord) :=
  Dict.collect RawRecord.externalId id (records.filter RawRecord.sensitive)

/-- The `encrypt` node. A body that cannot be sealed is an error, never a fallback to clear. -/
def encrypt (records : List RawRecord) (sealBody : RawRecord → Except String Sealed) :
    List (String × Sealed) × List String :=
  (sensitiveRecords records).foldl (fun (sealed, errors) (externalId, record) =>
    match sealBody record with
    | .ok result => (Dict.assign externalId result sealed, errors)
    | .error exc => (sealed, errors ++ ["seal failed for " ++ externalId ++ ": " ++ exc])) ([], [])

def needsSeal (records : List RawRecord) (externalId : String) : Bool :=
  records.any (fun r => r.externalId = externalId && r.sensitive)

/-- Statements, written ids and errors of the `write` node. -/
structure Written where
  ops : List StoreOp := []
  ids : List String := []
  errors : List String := []
  deriving DecidableEq, Repr

def Written.append (a b : Written) : Written := ⟨a.ops ++ b.ops, a.ids ++ b.ids, a.errors ++ b.errors⟩

def writeEntity (entity : Entity) : Written where
  ops := [.upsert (.entity entity) (entity.name ++ " " ++ Text.join " " entity.aliases)]
  ids := [entity.id]

def eventOps (event : Event) : List StoreOp :=
  .upsert (.event event) (event.summary ++ " " ++ event.body.getD "") ::
    event.entityIds.map (fun entityId => .link event.id .mentions entityId) ++
    (event.provenance.citations.filter (fun c => c.eventId ≠ event.id)).map
      (fun c => .link event.id .cites c.eventId)

def writeEvent (records : List RawRecord) (sealed : List (String × Sealed)) (event : Event) : Written :=
  match sealed.lookup event.source.externalId with
  | some blob =>
    { ops := eventOps { event with encryptedContent := some blob.ref, body := none }, ids := [event.id] }
  | none =>
    if needsSeal records event.source.externalId then
      { errors := ["skipped " ++ event.id ++ ": sensitive body was not sealed"] }
    else { ops := eventOps event, ids := [event.id] }

def commitmentOps (claimId : String) (commitment : Commitment) : List StoreOp :=
  .link claimId .owedBy commitment.owedByEntityId ::
    match commitment.owedToEntityId with
    | some owedTo => if owedTo = "" then [] else [.link claimId .owedTo owedTo]
    | none => []

def claimOps (claim : Claim) : List StoreOp :=
  .upsert (.claim claim) claim.statement ::
    claim.subjectEntityIds.map (fun entityId => .link claim.id .about entityId) ++
    (claim.commitment.toList.flatMap (commitmentOps claim.id)) ++
    claim.provenance.citations.map (fun c => .link claim.id .cites c.eventId) ++
    claim.supersedes.flatMap (fun superseded =>
      [.link claim.id .supersedes superseded, .setClaimStatus superseded .superseded]) ++
    claim.contradicts.map (fun conflicting => .link claim.id .contradicts conflicting)

def writeClaim (claim : Claim) : Written := { ops := claimOps claim, ids := [claim.id] }

def writeCandidate (records : List RawRecord) (sealed : List (String × Sealed)) (candidate : Candidate) : Written :=
  (candidate.entities.map writeEntity ++ candidate.events.map (writeEvent records sealed) ++
    candidate.claims.map writeClaim).foldl Written.append {}

/-- The `write` node. -/
def write (records : List RawRecord) (sealed : List (String × Sealed)) (candidates : List Candidate) : Written :=
  (candidates.map (writeCandidate records sealed)).foldl Written.append {}

structure IngestionResult where
  ownerId : String
  records : Nat := 0
  entities : Nat := 0
  events : Nat := 0
  claims : Nat := 0
  sealed : Nat := 0
  supersessions : List (String × String) := []
  contradictions : List (String × String) := []
  errors : List String := []
  deriving DecidableEq, Repr

namespace Job
variable (job : Job) (store : Store)

def resolved : List Resolution × List Claim := resolveBatch job.rows store job.ownerId job.candidates

def merged : List Candidate := merge job.candidates (job.resolved store)

def sealed : List (String × Sealed) := (encrypt job.records job.sealBody).1

def written : Written := write job.records job.sealed (job.merged store)

/-- The store statements of the run, in the order they are sent. -/
def ops : List StoreOp := (job.written store).ops

def run : Store := execAll (job.ops store) store

def result : IngestionResult where
  ownerId := job.ownerId
  records := job.records.length
  entities := ((job.merged store).map (fun c => c.entities.length)).sum
  events := ((job.merged store).map (fun c => c.events.length)).sum
  claims := ((job.merged store).map (fun c => c.claims.length)).sum
  sealed := job.sealed.length
  supersessions := (job.resolved store).1.flatMap Resolution.supersessions
  contradictions := (job.resolved store).1.flatMap Resolution.contradictions
  errors := (encrypt job.records job.sealBody).2 ++ (job.written store).errors

end Job

/-- Complete runs, one after the other. -/
def runAll (jobs : List Job) (store : Store) : Store := jobs.foldl (fun s job => job.run s) store

/-- One note of a source: its external id and when it was written. -/
def noteRecord (connector : SourceId) (sensitive : Bool) (externalId : String) (occurredAtMs : Int) : RawRecord where
  externalId := externalId
  connector := connector
  occurredAtMs := occurredAtMs
  title := "note"
  body := "note"
  sensitive := sensitive

def mockConnector : SourceId := ⟨"mock", checkSourceId_mock⟩

/-- Ids that spell out what they are digests of. -/
def plain : Ambient where
  lower s := String.ofList (s.toList.flatMap lowerChar)
  digest := id
  parseDay := fun _ => none
  nowMs := 1000

/-- The model's answer to a note that states some things about one project. -/
def aboutProject (project : String) (statements : List String) : Llm.Answer where
  entities := [{ kind := .project, name := project }]
  claims := statements.map (fun s => { statement := s, subjects := [project] })

/-- A run over records the model answered like this. No body can be sealed. -/
def Job.ofAnswers (answers : List (RawRecord × Llm.Answer)) : Job where
  ownerId := "alice"
  extracted := answers.map (fun (record, answer) =>
    (record, Llm.toCandidate plain "alice" record "claude-extractor@v1" answer))
  sealBody := fun _ => .error "unreachable"
  rows := .asStored
  contract := by
    intro p hp
    obtain ⟨n, _, rfl⟩ := List.mem_map.mp hp
    exact (Llm.toCandidate_extracts ..).unresolved
  typed := by
    intro p hp
    obtain ⟨n, _, rfl⟩ := List.mem_map.mp hp
    exact (Llm.toCandidate_extracts ..).typed

theorem Job.ofAnswers_extracts (answers : List (RawRecord × Llm.Answer)) :
    ∀ p ∈ (Job.ofAnswers answers).extracted, Extracts (Job.ofAnswers answers).ownerId p.1 p.2 := by
  intro p hp
  obtain ⟨n, _, rfl⟩ := List.mem_map.mp hp
  exact Llm.toCandidate_extracts ..

/-- A run of the rule-based extractor over the records it accepts, with what its patterns find. No body can be sealed. -/
def Job.ofRecords (env : Ambient) (find : String → Mock.Matches) (records : List RawRecord) : Job where
  ownerId := "alice"
  extracted := records.filterMap (fun record =>
    (Mock.extract env "alice" record find).toOption.map (fun candidate => (record, candidate)))
  sealBody := fun _ => .error "unreachable"
  rows := .asStored
  contract := by
    intro p hp
    obtain ⟨record, _, hp⟩ := List.mem_filterMap.mp hp
    obtain ⟨candidate, hcandidate, rfl⟩ := Option.map_eq_some_iff.mp hp
    exact (Mock.extract_extracts (Results.ok_of_toOption hcandidate)).unresolved
  typed := by
    intro p hp
    obtain ⟨record, _, hp⟩ := List.mem_filterMap.mp hp
    obtain ⟨candidate, hcandidate, rfl⟩ := Option.map_eq_some_iff.mp hp
    exact (Mock.extract_extracts (Results.ok_of_toOption hcandidate)).typed

/-- A run over notes about one project: when each was written and what it states. -/
def Job.ofNotes (project : String) (notes : List (String × Int × List String)) : Job :=
  .ofAnswers (notes.map (fun (externalId, occurredAtMs, statements) =>
    (noteRecord mockConnector false externalId occurredAtMs, aboutProject project statements)))

def soleClaim (job : Job) : Claim :=
  job.claims.headD (Llm.claimOf plain "" (noteRecord mockConnector false "" 0) "" [] { statement := "" })

def toRedis : Job := .ofNotes "Atlas" [("r1", 1, ["project Atlas will use Redis."])]
def toPostgres : Job := .ofNotes "Atlas" [("r2", 2, ["project Atlas will use Postgres."])]

end Memorai.Ingestion
