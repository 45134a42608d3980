import Memorai.Connectors.Builtins
import Memorai.Extraction.Deadlines
import Memorai.Extraction.Patterns
import Memorai.Ingestion.Tenants

/-! The ingestion graph up to resolution: the records of a source are fetched, and something is extracted from each. -/
namespace Memorai.Ingestion
open Schema Storage Extraction Connectors Results

/-- The body of `POST /ingest`. -/
structure IngestRequest where
  ownerId : String
  source : String := "mock"
  sinceMs : Int := 0
  sessionToken : Option String := none
  deriving DecidableEq, Repr

/-- What a run meets outside of the service. -/
structure Surroundings where
  env : Ambient
  /-- What `\w` matches. -/
  wordChar : Char → Bool
  disk : Disk
  /-- What the model answers about a record, once it is validated. -/
  model : RawRecord → Except String Llm.Answer
  /-- The gateway, with the session it adopted. -/
  sealBody : Option String → RawRecord → Except String Sealed
  rows : RowOrder Claim

/-- What ends a run before its resolution. -/
inductive IngestError where
  | notEnabled (source : String)
  | unknownSource (error : UnknownSourceError)
  | fetch (error : FetchError)
  | extract (error : Mock.Raised)
  | model (error : String)

section Nodes
variable {Obj : Type} (registry : Registry Obj) (spec : Obj → ConnectorSpec) (settings : Settings) (around : Surroundings)
  (ownerId : String)

/-- The `fetch` node. -/
def fetch (request : IngestRequest) : Except IngestError (List RawRecord) :=
  if settings.sourceEnabled request.source then do
    let connector ← (registry.connector spec request.source settings).mapError .unknownSource
    (connector around.disk request.ownerId request.sinceMs).mapError .fetch
  else .error (.notEnabled request.source)

/-- `get_extractor(settings).extract(owner_id, record)` -/
def extractOne (record : RawRecord) : Except IngestError Candidate :=
  if settings.useLlmExtractor then
    ((around.model record).mapError .model).map (Llm.toCandidate around.env.calendar ownerId record "claude-extractor@v1")
  else (Mock.extract around.env.calendar ownerId record (Mock.find around.wordChar)).mapError .extract

/-- The `extract` node: one candidate for each record, or nothing at all. -/
def extractAll (records : List RawRecord) : Except IngestError (List (RawRecord × Candidate)) :=
  records.mapM (fun record => (extractOne settings around ownerId record).map (record, ·))

variable {settings around ownerId}

theorem extractOne_extracts {record : RawRecord} {candidate : Candidate}
    (h : extractOne settings around ownerId record = .ok candidate) : Extracts ownerId record candidate := by
  unfold extractOne at h
  split_ifs at h
  · obtain ⟨answer, _, rfl⟩ := map_ok h
    exact Llm.toCandidate_extracts ..
  · exact Mock.extract_extracts (mapError_ok h)

theorem extractOne_titleOnly {record : RawRecord} {candidate : Candidate}
    (h : extractOne settings around ownerId record = .ok candidate) : ∀ event ∈ candidate.events, TitleOnly record event := by
  unfold extractOne at h
  split_ifs at h
  · obtain ⟨answer, _, rfl⟩ := map_ok h
    exact Llm.toCandidate_titleOnly _ _ _ _ _
  · exact Mock.extract_titleOnly (mapError_ok h)

/-- Each pair is a fetched record with what is extracted from it. -/
theorem extractAll_ok {records : List RawRecord} {extracted : List (RawRecord × Candidate)}
    (h : extractAll settings around ownerId records = .ok extracted) :
    ∀ p ∈ extracted, p.1 ∈ records ∧ extractOne settings around ownerId p.1 = .ok p.2 := by
  intro p hp
  obtain ⟨record, hrecord, hone⟩ := exists_of_mapM h hp
  obtain ⟨candidate, hcandidate, rfl⟩ := map_ok hone
  exact ⟨hrecord, hcandidate⟩

private theorem contract_of_extractAll {records : List RawRecord} {extracted : List (RawRecord × Candidate)}
    (h : extractAll settings around ownerId records = .ok extracted) :
    ∀ p ∈ extracted, ∀ claim ∈ p.2.claims, Unresolved ownerId p.2 claim :=
  fun p hp => (extractOne_extracts (extractAll_ok h p hp).2).unresolved

private theorem typed_of_extractAll {records : List RawRecord} {extracted : List (RawRecord × Candidate)}
    (h : extractAll settings around ownerId records = .ok extracted) : ∀ p ∈ extracted, TypedIds p.2 :=
  fun p hp => (extractOne_extracts (extractAll_ok h p hp).2).typed

variable (settings around) in
/-- `fetch` and `extract`, and what is left of the run after them. A session without a token is none. -/
def intake (request : IngestRequest) : Except IngestError Job := do
  let records ← fetch registry spec settings around request
  match h : extractAll settings around request.ownerId records with
  | .error error => .error error
  | .ok extracted => .ok {
      ownerId := request.ownerId
      extracted := extracted
      sealBody := around.sealBody (request.sessionToken.filter (· ≠ ""))
      rows := around.rows
      contract := contract_of_extractAll h
      typed := typed_of_extractAll h }

variable {registry spec}

/-- What a run that gets as far as its resolution is about. -/
theorem intake_ok {request : IngestRequest} {job : Job} (h : intake registry spec settings around request = .ok job) :
    job.ownerId = request.ownerId ∧ ∃ records, fetch registry spec settings around request = .ok records ∧
      ∀ p ∈ job.extracted, p.1 ∈ records ∧ extractOne settings around job.ownerId p.1 = .ok p.2 := by
  obtain ⟨records, hfetch, h⟩ := bind_ok h
  split at h
  · exact absurd h (by simp)
  · rename_i extracted hextract
    obtain rfl := Except.ok.inj h
    exact ⟨rfl, records, hfetch, extractAll_ok hextract⟩

theorem intake_extracted {request : IngestRequest} {job : Job} (h : intake registry spec settings around request = .ok job) :
    job.Extracted := by
  obtain ⟨_, _, _, hextracted⟩ := intake_ok h
  exact fun p hp => extractOne_extracts (hextracted p hp).2

theorem fetch_ok {request : IngestRequest} {records : List RawRecord}
    (h : fetch registry spec settings around request = .ok records) : settings.sourceEnabled request.source = true ∧
      ∃ connector, registry.connector spec request.source settings = .ok connector ∧
        connector around.disk request.ownerId request.sinceMs = .ok records := by
  unfold fetch at h
  split_ifs at h with henabled
  · obtain ⟨connector, hconnector, h⟩ := bind_ok h
    exact ⟨henabled, connector, mapError_ok hconnector, mapError_ok h⟩

end Nodes

end Memorai.Ingestion
