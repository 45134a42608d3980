import Memorai.Concurrency.Calls
import Memorai.Ingestion.Concurrent
import Memorai.Ingestion.Intake

/-! The ingestion service: requests are let in and queued, workers run them on one store, and any worker may be killed. -/
namespace Memorai.Ingestion
open Schema Memorai.Graph Storage Extraction Connectors Concurrency Resolver Text Wire

structure HTTPException where
  statusCode : Nat
  detail : String
  deriving DecidableEq, Repr

/-- What happens to the service. Nothing is known of the queue but that it hands out what was put into it. A run that ends in an
error of the store is a worker killed at that point. -/
inductive Happening (W : Type) where
  | enqueue (request : IngestRequest)
  | take (worker : W) (request : IngestRequest) (around : Surroundings)
  | call (worker : W)
  | kill (worker : W)

/-- What was put into the queue, the runs begun so far, and the workers on their store. -/
structure Orchestrator (W : Type) where
  queue : List IngestRequest
  begun : List Job
  workers : Config Store W Call Answer

def Orchestrator.boot {W : Type} : Orchestrator W := ⟨[], [], ⟨PropertyGraph.empty, fun _ => .done, []⟩⟩

section Steps
variable {Obj W : Type} [DecidableEq W] (registry : Registry Obj) (spec : Obj → ConnectorSpec) (settings : Settings)
  (repr : String → String)

/-- `POST /ingest`. `repr` is how a string is quoted. -/
def enqueueIngest (request : IngestRequest) (queue : List IngestRequest) : Except HTTPException (List IngestRequest) :=
  if (registry.lookup request.source).isNone then
    .error ⟨400, "unknown source " ++ repr request.source ++ "; known sources: " ++ join ", " registry.ids⟩
  else if settings.sourceEnabled request.source then .ok (queue ++ [request])
  else .error ⟨400, "source " ++ repr request.source ++ " is not enabled in this deployment"⟩

/-- A worker that is not at work starts a run, makes one store call of its run, or loses what is left of it. -/
def Orchestrator.step (o : Orchestrator W) : Happening W → Orchestrator W
  | .enqueue request =>
    match enqueueIngest registry settings repr request o.queue with
    | .ok queue => { o with queue := queue }
    | .error _ => o
  | .take worker request around =>
    if request ∈ o.queue ∧ o.workers.progs worker = .done then
      match intake registry spec settings around request with
      | .ok job =>
        { o with
          begun := o.begun ++ [job]
          workers := { o.workers with progs := Function.update o.workers.progs worker job.prog } }
      | .error _ => o
    else o
  | .call worker => { o with workers := o.workers.step storeService worker }
  | .kill worker => { o with workers := { o.workers with progs := Function.update o.workers.progs worker .done } }

def Orchestrator.after (happenings : List (Happening W)) (o : Orchestrator W) : Orchestrator W :=
  happenings.foldl (Orchestrator.step registry spec settings repr) o

/-- The service after some happenings since it was set up. -/
def served (happenings : List (Happening W)) : Orchestrator W := Orchestrator.boot.after registry spec settings repr happenings

variable {registry spec settings repr}

theorem served_append (past future : List (Happening W)) : served registry spec settings repr (past ++ future) =
    (served registry spec settings repr past).after registry spec settings repr future := List.foldl_append

theorem served_concat (past : List (Happening W)) (happening : Happening W) : served registry spec settings repr (past ++ [happening]) =
    (served registry spec settings repr past).step registry spec settings repr happening := served_append past [happening]

end Steps

section Written
variable {job : Job}

/-- The event of a record, and the text that is embedded with it. -/
structure EventFor (record : RawRecord) (event : Event) (text : String) : Prop extends TitleOnly record event where
  own : event.source.connector = record.connector ∧ event.source.externalId = record.externalId
  closed : record.sensitive = true → event.body = none
  embedded : text = event.summary ++ " " ++ event.body.getD ""

/-- What a run may write for a record, and the text that is embedded with it. -/
structure WrittenFor (ownerId : String) (record : RawRecord) (node : MemoryNode) (text : String) : Prop where
  owner : node.ownerId = ownerId
  guard : ∃ kinds, node.acl = acl ownerId record kinds
  event : ∀ e, node = .event e → EventFor record e text

/-- Whether it is sealed or kept as it is, an event loses at most its body. -/
private theorem words_of_kept {event e : Event} (h : job.kept event = some e) :
    e.summary = event.summary ∧ e.provenance = event.provenance ∧ e.source = event.source ∧ (event.body = none → e.body = none) := by
  unfold Job.kept at h
  split at h
  · obtain rfl := Option.some.inj h
    exact ⟨rfl, rfl, rfl, fun _ => rfl⟩
  · split at h
    · exact absurd h (by simp)
    · obtain rfl := Option.some.inj h
      exact ⟨rfl, rfl, rfl, id⟩

/-- Whatever the store answers it, a run writes under the owner and the guard of its records. -/
theorem Answers.writtenFor (answers : Answers job) (hx : job.Extracted)
    (htitles : ∀ p ∈ job.extracted, ∀ event ∈ p.2.events, TitleOnly p.1 event) {node : MemoryNode} {text : String}
    (h : .upsert node text ∈ answers.ops) : ∃ p ∈ job.extracted, WrittenFor job.ownerId p.1 node text := by
  obtain ⟨p, hp, hnode⟩ := answers.origin_of_upsert h
  obtain ⟨event, hevents, hof, hentities, hclaims⟩ := (hx p hp).event
  refine ⟨p, hp, ?_⟩
  rcases hnode with ⟨e, he, rfl⟩ | ⟨event', hevent', e, hkept, rfl, rfl⟩ | ⟨c, hc, b, hbare, rfl⟩
  · exact ⟨(hentities e he).owner, ⟨_, (hentities e he).guard⟩, fun _ h => absurd h (by simp)⟩
  · obtain rfl := List.mem_singleton.mp (hevents ▸ hevent')
    obtain ⟨howner, hacl⟩ := Job.guard_of_kept hkept
    obtain ⟨kinds, hguard, _⟩ := hof.guard
    refine ⟨howner.trans hof.owner, ⟨kinds, hacl.trans hguard⟩, fun e' he => ?_⟩
    obtain rfl := MemoryNode.event.inj he
    obtain ⟨hsummary, hprovenance, hsource, hbody⟩ := words_of_kept hkept
    have htitle := htitles p hp event' hevent'
    exact
      { summary := hsummary.trans htitle.summary
        quotes := hprovenance ▸ htitle.quotes
        own := hsource ▸ ⟨hof.connector, hof.externalId⟩
        closed := fun hsensitive => hbody (by rw [hof.body, if_pos hsensitive])
        embedded := rfl }
  · obtain ⟨kinds, hguard, _⟩ := (hclaims c hc).guard
    have howner : b.ownerId = c.ownerId := eq_of_bare Claim.ownerId (fun _ => rfl) hbare
    have hacl : b.acl = c.acl := eq_of_bare Claim.acl (fun _ => rfl) hbare
    exact ⟨howner.trans (hclaims c hc).owner, ⟨kinds, hacl.trans hguard⟩, fun _ h => absurd h (by simp)⟩

end Written

/-- A row as a request asked for it, made of a record: of the request's owner and guarded by its source, conversations as the
deployment has them. A confidential event has no body: its words, its text and its embedding are the title of the record. -/
structure AsAsked (settings : Settings) (request : IngestRequest) (record : RawRecord) (r : Row) : Prop where
  owner : r.ownerId = request.ownerId ∧ r.payload.ownerId = request.ownerId ∧ r.payload.acl.ownerId = request.ownerId
  source : r.payload.acl.sources.map Subtype.val = [request.source]
  columns : r.aclSources = r.payload.acl.sources ∧ r.aclSensitivity = r.payload.acl.sensitivity
  sensitivity : r.payload.acl.sensitivity = if record.sensitive then .confidential else .personal
  conversation : request.source = ChatGpt.SOURCE_ID.val → settings.chatgptSensitive = true →
    r.payload.acl.sensitivity = .confidential
  own : ∀ e, r.payload = .event e → e.source.connector = record.connector ∧ e.source.externalId = record.externalId
  closed : r.payload.acl.sensitivity = .confidential → ∀ e, r.payload = .event e → e.body = none ∧ TitleOnly record e ∧
    r.text = strip (record.title ++ " ") ∧ r.embedding = record.title ++ " "

section Stored
variable {settings : Settings} {request : IngestRequest} {record : RawRecord}

theorem AsAsked.setStatus {r : Row} (h : AsAsked settings request record r) (status : ClaimStatus) :
    AsAsked settings request record (r.mutateClaim (fun c => { c with status := status })) := by
  obtain ⟨payload, _, _, _, _, _, _, _, _⟩ := r
  cases payload with
  | claim c =>
    exact ⟨h.owner, h.source, h.columns, h.sensitivity, h.conversation, fun e he => absurd he (by simp [Row.mutateClaim]),
      fun _ e he => absurd he (by simp [Row.mutateClaim])⟩
  | entity e => exact h
  | event e => exact h

private theorem WrittenFor.asAsked {node : MemoryNode} {text : String} (h : WrittenFor request.ownerId record node text)
    (hyielded : Yielded settings request.source record) : AsAsked settings request record (Row.of node text) := by
  obtain ⟨kinds, hguard⟩ := h.guard
  have hsensitivity : (Row.of node text).payload.acl.sensitivity = if record.sensitive then .confidential else .personal :=
    congrArg ObjectAcl.sensitivity hguard
  refine ⟨⟨h.owner, h.owner, congrArg ObjectAcl.ownerId hguard⟩, ?_, ⟨rfl, rfl⟩, hsensitivity, fun hsource hsetting => ?_,
    fun e he => (h.event e he).own, fun hclosed e he => ?_⟩
  · change node.acl.sources.map Subtype.val = [request.source]
    rw [hguard, ← hyielded.connector]
    rfl
  · rw [hsensitivity, hyielded.conversation hsource, if_pos hsetting]
  · have hsensitive : record.sensitive = true := by
      by_contra hclear
      rw [hsensitivity, if_neg hclear] at hclosed
      exact absurd hclosed (by decide)
    obtain rfl : node = .event e := he
    have hevent := h.event e rfl
    have hbody := hevent.closed hsensitive
    have hwords : e.summary ++ " " ++ e.body.getD "" = record.title ++ " " := by
      rw [hbody, hevent.summary, Option.getD_none, String.append_empty]
    exact ⟨hbody, hevent.toTitleOnly, congrArg strip hwords, hevent.embedded.trans hwords⟩

/-- A statement keeps what the rows have in common, if what it writes has it and no status matters to it. -/
private theorem rows_exec {P : Row → Prop}
    (hstatus : ∀ r status, P r → P (r.mutateClaim (fun c => { c with status := status }))) {op : StoreOp}
    (hop : ∀ node text, op = .upsert node text → P (Row.of node text)) {s : Store} (h : ∀ r ∈ s.nodes, P r) :
    ∀ r ∈ (op.exec s).nodes, P r := by
  intro r hr
  cases op with
  | upsert node text =>
    rcases (PropertyGraph.mem_nodes_merge s _ r).mp hr with rfl | ⟨hr, _⟩
    · exact hop node text rfl
    · exact h r hr
  | link source rel target => exact h r hr
  | setClaimStatus claimId status =>
    obtain ⟨w, hw, rfl⟩ := (PropertyGraph.mem_nodes_modify s ⟨.claim, claimId⟩
      (Row.mutateClaim (fun c => { c with status := status })) (Row.key_mutateClaim _ (fun _ => rfl)) r).mp hr
    split_ifs
    · exact hstatus w status (h w hw)
    · exact h w hw

end Stored

section Runs
variable {W : Type} [DecidableEq W] {mockExport : Json} {settings : Settings} {repr : String → String}

/-- A request that was let in. -/
structure LetIn (mockExport : Json) (settings : Settings) (happenings : List (Happening W)) (request : IngestRequest) : Prop where
  asked : .enqueue request ∈ happenings
  known : request.source ∈ (REGISTRY mockExport).ids
  enabled : settings.sourceEnabled request.source = true

/-- A record that a worker found at the source of a request that it took. -/
def Found (mockExport : Json) (settings : Settings) (happenings : List (Happening W)) (request : IngestRequest)
    (record : RawRecord) : Prop :=
  ∃ worker around records, .take worker request around ∈ happenings ∧
    fetch (REGISTRY mockExport) (specOf mockExport) settings around request = .ok records ∧ record ∈ records

/-- A row that is there for a request and a record that was found for it. -/
def AskedFor (settings : Settings) (asked : IngestRequest → Prop) (found : IngestRequest → RawRecord → Prop) (r : Row) : Prop :=
  ∃ request record, asked request ∧ found request record ∧ AsAsked settings request record r

/-- A call that stores nothing but what was asked for. -/
def Writes (settings : Settings) (asked : IngestRequest → Prop) (found : IngestRequest → RawRecord → Prop) (c : Call) : Prop :=
  ∀ node text, c = .exec (.upsert node text) → AskedFor settings asked found (Row.of node text)

/-- The store may answer anything. -/
def Anything (c : Call) (_ : Answer c) : Prop := True

private theorem exists_anything (c : Call) : ∃ a, Anything c a := by
  cases c with
  | get nodeId => exact ⟨false, trivial⟩
  | claimsAbout rows ownerId claim => exact ⟨[], trivial⟩
  | exec op => exact ⟨(), trivial⟩

private theorem op_mem_of_exec_mem {qs : List Asked} {ops : List StoreOp} {rows : RowOrder Claim} {ownerId : String} {op : StoreOp}
    {e : StoreEvent} (he : e ∈ qs.flatMap (asks rows ownerId) ++ writes ops) (hop : e.1 = .exec op) : op ∈ ops := by
  rcases List.mem_append.mp he with he | he
  · obtain ⟨q, _, hq⟩ := List.mem_flatMap.mp he
    unfold asks at hq
    split_ifs at hq
    · obtain rfl := List.mem_singleton.mp hq
      exact absurd hop (by simp)
    · rcases List.mem_pair.mp hq with rfl | rfl
      · exact absurd hop (by simp)
      · exact absurd hop (by simp)
  · obtain ⟨op', hop', rfl⟩ := List.mem_map.mp he
    obtain rfl := Call.exec.inj hop
    exact hop'

variable {asked : IngestRequest → Prop} {found : IngestRequest → RawRecord → Prop}

/-- A run that is begun for a request stores nothing but what the request asked for. -/
theorem only_prog {request : IngestRequest} (hasked : asked request) {around : Surroundings}
    (hfound : ∀ records, fetch (REGISTRY mockExport) (specOf mockExport) settings around request = .ok records →
      ∀ record ∈ records, found request record)
    {job : Job} (h : intake (REGISTRY mockExport) (specOf mockExport) settings around request = .ok job) :
    job.prog.Only (Writes settings asked found) Anything := by
  obtain ⟨howner, records, hfetch, hextracted⟩ := intake_ok h
  obtain ⟨_, connector, hconnector, hfetched⟩ := fetch_ok hfetch
  refine Prog.only_of_leads exists_anything (fun t ht _ e he node text hcall => ?_)
  obtain ⟨answers, rfl⟩ := Job.leads_prog ht
  obtain ⟨p, hp, hwritten⟩ := answers.writtenFor (intake_extracted h)
    (fun p hp => extractOne_titleOnly (hextracted p hp).2) (op_mem_of_exec_mem he hcall)
  have hrecord := (hextracted p hp).1
  exact ⟨request, p.1, hasked, hfound records hfetch p.1 hrecord,
    (howner ▸ hwritten).asAsked (yielded_of_connector hconnector hfetched p.1 hrecord)⟩

/-- What the service keeps: only requests that are let in are queued, only what they asked for is stored, and nothing else is
ever going to be. -/
structure Kept (settings : Settings) (asked : IngestRequest → Prop) (found : IngestRequest → RawRecord → Prop)
    (o : Orchestrator W) : Prop where
  queue : ∀ request ∈ o.queue, asked request
  stored : ∀ r ∈ o.workers.state.nodes, AskedFor settings asked found r
  coming : ∀ worker, (o.workers.progs worker).Only (Writes settings asked found) Anything

omit [DecidableEq W] in
theorem Kept.boot : Kept settings asked found (Orchestrator.boot (W := W)) :=
  ⟨fun _ h => absurd h List.not_mem_nil, fun _ h => absurd h List.not_mem_nil, fun _ => trivial⟩

theorem enqueueIngest_ok {request : IngestRequest} {queue queue' : List IngestRequest}
    (h : enqueueIngest (REGISTRY mockExport) settings repr request queue = .ok queue') :
    queue' = queue ++ [request] ∧ request.source ∈ (REGISTRY mockExport).ids ∧ settings.sourceEnabled request.source = true := by
  unfold enqueueIngest at h
  split_ifs at h with hunknown henabled
  obtain rfl := Except.ok.inj h
  refine ⟨rfl, Registry.mem_ids.mpr (Option.ne_none_iff_exists'.mp (fun hnone => hunknown ?_)), henabled⟩
  rw [hnone, Option.isNone_none]

omit [DecidableEq W] in
/-- Whatever a run is answered, what it has stored stays as it was asked for. -/
theorem keeps_stored : Keeps (I := W) storeService (fun s => ∀ r ∈ s.nodes, AskedFor settings asked found r)
    (fun _ => Writes settings asked found) (fun _ => Anything) where
  answer _ _ _ _ _ := trivial
  effect _ s c hc hs := by
    cases c with
    | get nodeId => exact hs
    | claimsAbout rows ownerId claim => exact hs
    | exec op =>
      refine rows_exec (fun r status hr => ?_) (fun node text hop => hc node text (congrArg Call.exec hop)) hs
      obtain ⟨request, record, hrequest, hrecord, hr⟩ := hr
      exact ⟨request, record, hrequest, hrecord, hr.setStatus status⟩

theorem Kept.step {o : Orchestrator W} (h : Kept settings asked found o) (happening : Happening W)
    (hasked : ∀ request, happening = .enqueue request → request.source ∈ (REGISTRY mockExport).ids →
      settings.sourceEnabled request.source = true → asked request)
    (hfound : ∀ worker request around, happening = .take worker request around → ∀ records,
      fetch (REGISTRY mockExport) (specOf mockExport) settings around request = .ok records →
      ∀ record ∈ records, found request record) :
    Kept settings asked found (o.step (REGISTRY mockExport) (specOf mockExport) settings repr happening) := by
  cases happening with
  | enqueue request =>
    cases hqueue : enqueueIngest (REGISTRY mockExport) settings repr request o.queue with
    | error e =>
      rw [Orchestrator.step, hqueue]
      exact h
    | ok queue =>
      rw [Orchestrator.step, hqueue]
      obtain ⟨rfl, hknown, henabled⟩ := enqueueIngest_ok hqueue
      refine ⟨fun request' hmem => ?_, h.stored, h.coming⟩
      rcases List.mem_append.mp hmem with hmem | hmem
      · exact h.queue request' hmem
      · exact List.mem_singleton.mp hmem ▸ hasked request rfl hknown henabled
  | take worker request around =>
    rw [Orchestrator.step]
    split_ifs with hidle
    · cases hjob : intake (REGISTRY mockExport) (specOf mockExport) settings around request with
      | error e => exact h
      | ok job =>
        have honly := only_prog (h.queue request hidle.1) (hfound worker request around rfl) hjob
        exact ⟨h.queue, h.stored, Prog.only_update h.coming worker honly⟩
    · exact h
  | call worker =>
    obtain ⟨hstored, hcoming⟩ := keeps_stored.step h.stored h.coming worker
    exact ⟨h.queue, hstored, hcoming⟩
  | kill worker => exact ⟨h.queue, h.stored, Prog.only_update h.coming worker trivial⟩

/-- Whatever the service is asked, whatever its workers meet, in whatever order these take turns on the store and whenever one
of them is killed: nothing is ever stored but for a request that was let in and a record that a worker found for it. -/
theorem stored_as_asked (mockExport : Json) (settings : Settings) (repr : String → String) (happenings : List (Happening W)) :
    ∀ r ∈ (served (REGISTRY mockExport) (specOf mockExport) settings repr happenings).workers.state.nodes,
      ∃ request record, LetIn mockExport settings happenings request ∧ Found mockExport settings happenings request record ∧
        AsAsked settings request record r := by
  have hkept : ∀ past future, happenings = past ++ future → Kept settings (LetIn mockExport settings happenings)
      (Found mockExport settings happenings) (served (REGISTRY mockExport) (specOf mockExport) settings repr past) := by
    intro past
    induction past using List.reverseRecOn with
    | nil => exact fun _ _ => Kept.boot
    | append_singleton past happening ih =>
      intro future hall
      rw [served_concat]
      have hmem : happening ∈ happenings := by rw [hall]; simp
      refine (ih (happening :: future) (by simpa using hall)).step happening (fun request heq hknown henabled => ?_)
        (fun worker request around heq records hfetch record hrecord => ?_)
      · exact ⟨heq ▸ hmem, hknown, henabled⟩
      · exact ⟨worker, around, records, heq ▸ hmem, hfetch, hrecord⟩
  exact (hkept happenings [] (List.append_nil _).symm).stored

end Runs

/-- No file of it can be read. -/
def noDisk : Disk where
  files := Exports.oneExport
  loadExport := fun _ => .error "unreadable"
  floats := ⟨fun literal => .error (.notAnInteger literal), fun _ => true⟩

/-- The model finds one project in whatever it is shown. -/
def oneProject : Surroundings where
  env := plain
  wordChar := Char.isAlphanum
  disk := noDisk
  model := fun _ => .ok (aboutProject "Beacon" ["project Beacon will ship."])
  sealBody := fun _ _ => .error "unreachable"
  rows := .asStored

def lastFixture (ownerId : String) : IngestRequest := { ownerId := ownerId, sinceMs := BASE_MS + 16 * DAY_MS }

/-- Alice's worker is killed in the middle of its run, while Bob's goes on. -/
def aliceAndBobAtOnce : List (Happening Bool) :=
  [.enqueue (lastFixture "alice"), .enqueue (lastFixture "bob"), .take false (lastFixture "alice") oneProject,
    .take true (lastFixture "bob") oneProject] ++ (List.replicate 4 [.call false, .call true]).flatten ++ .kill false ::
    List.replicate 4 (.call true)

/-- The service, as it is set up but with the model. -/
def withModel (happenings : List (Happening Bool)) : Orchestrator Bool :=
  served (REGISTRY .null) (specOf .null) { extractor := "llm" } id happenings

theorem stored_as_asked_killed : ∃ r ∈ (withModel aliceAndBobAtOnce).workers.state.nodes, ∃ request record,
    LetIn .null { extractor := "llm" } aliceAndBobAtOnce request ∧
      Found .null { extractor := "llm" } aliceAndBobAtOnce request record ∧ AsAsked { extractor := "llm" } request record r := by
  have hsome : (withModel aliceAndBobAtOnce).workers.state.nodes ≠ [] := by decide +kernel
  obtain ⟨r, hr⟩ := List.exists_mem_of_ne_nil _ hsome
  exact ⟨r, hr, stored_as_asked .null { extractor := "llm" } id aliceAndBobAtOnce r hr⟩

end Memorai.Ingestion
