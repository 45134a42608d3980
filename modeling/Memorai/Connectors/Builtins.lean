import Memorai.Connectors.Registry

/-! The connectors that this build ships with, and that each of them gives its own records the id it is registered under. -/
namespace Memorai.Connectors
open Schema Text Wire Exports Results

inductive Builtin where
  | mock | google | github | chatgpt
  deriving DecidableEq, Repr

section Mock

def DAY_MS : Int := 86400000

/-- 2025-01-01T00:00:00Z -/
def BASE_MS : Int := 1735689600000

/-- One fixture, so many days on. -/
def fixture (externalId title body : String) (days : Int) (participants : List String) (sensitive : Bool) : RawRecord where
  externalId := externalId
  connector := ⟨"mock", checkSourceId_mock⟩
  occurredAtMs := BASE_MS + days * DAY_MS
  title := title
  body := body
  url := some ("https://mock.local/records/" ++ externalId)
  sensitive := sensitive
  participants := participants

/-- `_FIXTURES` -/
def FIXTURES : List RawRecord := [
  fixture "mock-001" "Kickoff for project Atlas"
    ("Alice and Bob agreed that project Atlas will use Postgres for the " ++
      "primary datastore. Decision recorded at kickoff.") 0 ["Alice", "Bob"] false,
  fixture "mock-002" "Atlas storage revisited"
    ("Bob decided that project Atlas will use Neo4j for the primary " ++
      "datastore, replacing the earlier Postgres decision.") 3 ["Bob"] false,
  fixture "mock-003" "Atlas compensation note"
    ("Carol noted that project Atlas will use Postgres for the primary " ++
      "datastore after all, pending review.") 5 ["Carol"] true,
  fixture "mock-004" "Beacon rollout owner"
    "Alice decided that project Beacon will ship behind a feature flag." 9 ["Alice"] false,
  fixture "mock-005" "Atlas migration owner"
    ("Alice committed to Bob that project Atlas will ship the storage " ++
      "migration by 2025-02-14.") 12 ["Alice", "Bob"] false,
  fixture "mock-006" "Atlas migration reassigned"
    ("Bob committed to Alice that project Atlas will ship the storage " ++
      "migration by 2025-03-07.") 15 ["Alice", "Bob"] false,
  fixture "mock-007" "Beacon rollout plan"
    "Carol committed that project Beacon will publish the rollout plan by 2025-01-24." 16 ["Carol"] false]

/-- `MockConnector.fetch` -/
def mockConnector : SourceConnector := fun _ _ sinceMs => .ok (FIXTURES.filter (fun r => sinceMs ≤ r.occurredAtMs))

end Mock

/-- `GoogleConnector.fetch` -/
def googleConnector : SourceConnector := fun _ _ _ =>
  .error (.notImplemented ("Google connector needs a stored per-owner refresh token and Gmail/Calendar " ++
    "scopes; Phase 1 OAuth only proves identity, it does not request data scopes"))

/-- `GitHubConnector.fetch` -/
def githubConnector : SourceConnector := fun _ _ _ =>
  .error (.notImplemented ("GitHub connector needs a stored per-owner token with repo scope; Phase 1 " ++
    "OAuth only proves identity, it does not request data scopes"))

/-- `ChatGPTConnector.fetch` -/
def chatgptConnector (settings : Settings) : SourceConnector := fun disk ownerId sinceMs => do
  let path ← (resolveExportPath disk.files settings.chatgptExportDir ownerId).mapError .export
  let payload ← (disk.loadExport path).mapError .unreadable
  (ChatGpt.parseExport disk.floats payload sinceMs settings.chatgptSensitive).mapError .raised

/-- `MockChatGPTConnector.fetch`, for any miniature export. -/
def mockChatgptConnector (mockExport : Json) (settings : Settings) : SourceConnector := fun disk _ sinceMs =>
  (ChatGpt.parseExport disk.floats mockExport sinceMs settings.chatgptSensitive).mapError .raised

section Specs
variable (mockExport : Json)

def specOf : Builtin → ConnectorSpec
  | .mock =>
    { sourceId := "mock"
      displayName := "Mock fixtures"
      factory := fun _ => mockConnector
      chunker := fun text => .ok (packParagraphs 800 text)
      mockFactory := some (fun _ => mockConnector) }
  | .google =>
    { sourceId := "google"
      displayName := "Google (Gmail, Calendar)"
      factory := fun _ => googleConnector
      chunker := fun text => .ok (packParagraphs 1200 text)
      requiresOauth := true
      oauthScopes := ["https://www.googleapis.com/auth/gmail.readonly", "https://www.googleapis.com/auth/calendar.readonly"] }
  | .github =>
    { sourceId := "github"
      displayName := "GitHub"
      factory := fun _ => githubConnector
      chunker := GitHub.chunkDiff
      requiresOauth := true
      oauthScopes := ["read:user", "repo"] }
  | .chatgpt =>
    { sourceId := ChatGpt.SOURCE_ID.val
      displayName := "ChatGPT (data export)"
      factory := chatgptConnector
      chunker := fun text => .ok (ChatGpt.chunkTranscript 1200 text)
      mockFactory := some (mockChatgptConnector mockExport) }

/-- `REGISTRY`, once the built-in connectors are registered. -/
def REGISTRY : Registry Builtin := Registry.registerAll (specOf mockExport) [.mock, .google, .github, .chatgpt] []

theorem wellFormed_specOf (o : Builtin) : Registry.WellFormed (specOf mockExport o) := by
  cases o with
  | mock => exact ⟨checkSourceId_mock, Or.inl rfl⟩
  | google => exact ⟨(by decide : checkSourceId "google" = true), Or.inr rfl⟩
  | github => exact ⟨(by decide : checkSourceId "github" = true), Or.inr rfl⟩
  | chatgpt => exact ⟨ChatGpt.SOURCE_ID.property, Or.inl rfl⟩

theorem lookup_REGISTRY (source : String) : (REGISTRY mockExport).lookup source =
    [Builtin.mock, .google, .github, .chatgpt].find? (fun o => (specOf mockExport o).sourceId = source) := by
  rw [REGISTRY, Registry.lookup_registerAll]
  simp only [wellFormed_specOf, true_and]
  rfl

theorem sourceId_of_lookup {source : String} {o : Builtin} (h : (REGISTRY mockExport).lookup source = some o) :
    (specOf mockExport o).sourceId = source := by
  rw [lookup_REGISTRY] at h
  have hsource := List.find?_some h
  exact of_decide_eq_true hsource

/-- Chunks are cut as the registered chunkers cut them. -/
theorem chunkForSource_eq (text source : String) :
    chunkForSource text source = (REGISTRY mockExport).chunker (specOf mockExport) source text := by
  rw [chunkForSource, Registry.chunker, lookup_REGISTRY]
  by_cases hmock : source = "mock"
  · subst hmock
    rfl
  by_cases hgoogle : source = "google"
  · subst hgoogle
    rfl
  by_cases hgithub : source = "github"
  · subst hgithub
    rfl
  by_cases hchatgpt : source = "chatgpt"
  · subst hchatgpt
    rfl
  · simp [chunkers, List.lookup_cons, specOf, ChatGpt.SOURCE_ID, beq_false_of_ne, hmock, hgoogle, hgithub, hchatgpt,
      Ne.symm hmock, Ne.symm hgoogle, Ne.symm hgithub, Ne.symm hchatgpt]

end Specs

/-- What a source is trusted for: its records carry its own id, and conversations are sensitive as the setting says. -/
structure Yielded (settings : Settings) (source : String) (r : RawRecord) : Prop where
  connector : r.connector.val = source
  conversation : source = ChatGpt.SOURCE_ID.val → r.sensitive = settings.chatgptSensitive

section Records

private theorem of_conversation {floats : ChatGpt.Floats} {conversation : Json} {sensitive : Bool} {record : RawRecord}
    {lastActivityMs : Int} (h : ChatGpt.conversationToRecord floats conversation sensitive = .ok (some (record, lastActivityMs))) :
    record.connector = ChatGpt.SOURCE_ID ∧ record.sensitive = sensitive := by
  cases conversation with
  | obj fields =>
    obtain ⟨messages, _, h⟩ := bind_ok h
    obtain ⟨turns, _, h⟩ := bind_ok h
    split at h
    · exact absurd (Except.ok.inj h) (by simp)
    · split at h
      · exact absurd (Except.ok.inj h) (by simp)
      · obtain ⟨created, _, h⟩ := bind_ok h
        obtain ⟨updated, _, h⟩ := bind_ok h
        obtain ⟨rfl, rfl⟩ := Prod.mk.inj (Option.some.inj (Except.ok.inj h))
        exact ⟨rfl, rfl⟩
  | _ => exact absurd (Except.ok.inj h) (by simp)

private theorem yielded_of_parseExport {floats : ChatGpt.Floats} {payload : Json} {sinceMs : Int} {settings : Settings}
    {records : List RawRecord} (h : ChatGpt.parseExport floats payload sinceMs settings.chatgptSensitive = .ok records) :
    ∀ r ∈ records, Yielded settings ChatGpt.SOURCE_ID.val r := by
  obtain ⟨parsed, hparsed, h⟩ := bind_ok h
  obtain rfl := Except.ok.inj h
  intro r hr
  obtain ⟨⟨record, lastActivityMs⟩, hin, rfl⟩ := List.mem_map.mp hr
  obtain ⟨conversation, _, hof⟩ := exists_of_mapM hparsed (List.reduceOption_mem_iff.mp (List.mem_filter.mp hin).1)
  obtain ⟨hconnector, hsensitive⟩ := of_conversation hof
  exact ⟨congrArg Subtype.val hconnector, fun _ => hsensitive⟩

private theorem yielded_of_fixtures {settings : Settings} : ∀ r ∈ FIXTURES, Yielded settings "mock" r := by
  intro r hr
  have hlabel : ∀ r ∈ FIXTURES, r.connector.val = "mock" := by decide
  exact ⟨hlabel r hr, fun h => absurd h (by decide)⟩

private theorem yielded_of_spec {mockExport : Json} {o : Builtin} {settings : Settings} {connector : SourceConnector}
    (hconnector : connector ∈ (specOf mockExport o).factory settings :: ((specOf mockExport o).mockFactory.map (· settings)).toList)
    {disk : Disk} {ownerId : String} {sinceMs : Int} {records : List RawRecord}
    (h : connector disk ownerId sinceMs = .ok records) : ∀ r ∈ records, Yielded settings (specOf mockExport o).sourceId r := by
  cases o with
  | mock =>
    obtain rfl : connector = mockConnector := by simpa [specOf] using hconnector
    obtain rfl := Except.ok.inj h
    exact fun r hr => yielded_of_fixtures r (List.mem_filter.mp hr).1
  | google =>
    obtain rfl : connector = googleConnector := by simpa [specOf] using hconnector
    exact absurd h (by simp [googleConnector])
  | github =>
    obtain rfl : connector = githubConnector := by simpa [specOf] using hconnector
    exact absurd h (by simp [githubConnector])
  | chatgpt =>
    have heither : connector = chatgptConnector settings ∨ connector = mockChatgptConnector mockExport settings := by
      simpa [specOf] using hconnector
    rcases heither with rfl | rfl
    · obtain ⟨path, _, h⟩ := bind_ok h
      obtain ⟨payload, _, h⟩ := bind_ok h
      exact yielded_of_parseExport (mapError_ok h)
    · exact yielded_of_parseExport (mapError_ok h)

/-- Whichever connector a source is given, its records are trusted as the source's. -/
theorem yielded_of_connector {mockExport : Json} {source : String} {settings : Settings} {connector : SourceConnector}
    (hconnector : (REGISTRY mockExport).connector (specOf mockExport) source settings = .ok connector) {disk : Disk}
    {ownerId : String} {sinceMs : Int} {records : List RawRecord} (h : connector disk ownerId sinceMs = .ok records) :
    ∀ r ∈ records, Yielded settings source r := by
  obtain ⟨s, hs, hbuilt⟩ := map_ok hconnector
  unfold Registry.spec? at hs
  split at hs
  · rename_i o hlookup
    obtain rfl := Except.ok.inj hs
    rw [← sourceId_of_lookup mockExport hlookup]
    refine yielded_of_spec (o := o) ?_ h
    split at hbuilt
    · rename_i fixture hfixture
      rw [hfixture]
      split_ifs at hbuilt
      · simp [← hbuilt]
      · simp [← hbuilt]
    · simp [← hbuilt]
  · exact absurd hs (by simp)

end Records

end Memorai.Connectors
