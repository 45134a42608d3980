import Memorai.Ingestion.Sent
import Memorai.Storage.OwnReads

/-! Runs of several owners on one store. No run reads or changes what another owner has stored, so each owner has
what it would have with a store of its own. -/
namespace Memorai.Ingestion
open Schema Memorai.Graph Storage Extraction Resolver

namespace Job
variable {job : Job} {s : Store}

private theorem id_of_mem_claims {c : Claim} (hc : c ∈ job.claims) : c.id ∈ job.ids := by
  obtain ⟨m, hm, hc⟩ := List.mem_flatMap.mp hc
  obtain ⟨p, hp, rfl⟩ := List.mem_map.mp hm
  exact claim_id_mem hp hc

private theorem subjects_mem {c : Claim} (hc : c ∈ job.claims) : ∀ x ∈ c.subjectEntityIds, x ∈ job.ids := by
  intro x hx
  obtain ⟨m, hm, hc⟩ := List.mem_flatMap.mp hc
  obtain ⟨p, hp, rfl⟩ := List.mem_map.mp hm
  exact named_mem hp (job.contract p hp c hc).subjects hx

/-- Equal answers to its claims make a job send the same statements. -/
theorem ops_congr {t : Store} (h : ∀ c ∈ job.claims, ask job.rows s job.ownerId c = ask job.rows t job.ownerId c) :
    job.ops s = job.ops t := by
  have hanswers : job.answers s = job.answers t := by
    simp only [answers, Answers.mk.injEq]
    refine List.map_congr_left (fun m hm => ?_)
    have hclaims : m.claims.map (ask job.rows s job.ownerId) = m.claims.map (ask job.rows t job.ownerId) :=
      List.map_congr_left (fun c hc => h c (List.mem_flatMap.mpr ⟨m, hm, hc⟩))
    rw [hclaims]
  rw [ops_eq_answers, ops_eq_answers, hanswers]

end Job

section Reads
variable {mine : String → Prop} {ownerId : String} {s : Store}

theorem get_ofOwner (h : Split mine ownerId s) {x : String} (hx : mine x) :
    ((s.ofOwner ownerId).get x).isSome = (s.get x).isSome := by
  rw [Bool.eq_iff_iff, Store.get_isSome_iff, Store.get_isSome_iff]
  constructor
  · rintro ⟨k, hk, hid⟩
    obtain ⟨r, hr, _, rfl⟩ := PropertyGraph.mem_keys_part.mp hk
    exact ⟨r.key, List.mem_map_of_mem hr, hid⟩
  · rintro ⟨k, hk, hid⟩
    obtain ⟨r, hr, rfl⟩ := List.mem_map.mp hk
    refine ⟨r.key, PropertyGraph.mem_keys_part.mpr ⟨r, hr, decide_eq_true ?_, rfl⟩, hid⟩
    exact (h r hr).mpr (hid ▸ hx)

theorem claimsAbout_ofOwner (h : Split mine ownerId s) {ids : List String} (hids : ∀ x ∈ ids, mine x) :
    (s.ofOwner ownerId).claimsAbout ownerId ids = s.claimsAbout ownerId ids := by
  have hkeys : ∀ r ∈ s.nodes, r.ownerId = ownerId → r.key ∈ (s.ofOwner ownerId).keys :=
    fun r hr howner => PropertyGraph.mem_keys_part.mpr ⟨r, hr, decide_eq_true howner, rfl⟩
  have hedges : ∀ r ∈ s.nodes, r.ownerId = ownerId → ((s.ofOwner ownerId).edges.any (fun e =>
      e.1 = r.key ∧ e.2.1 = .about ∧ e.2.2.label = .entity ∧ e.2.2.id ∈ ids) ↔ s.edges.any (fun e =>
      e.1 = r.key ∧ e.2.1 = .about ∧ e.2.2.label = .entity ∧ e.2.2.id ∈ ids)) := by
    intro r hr howner
    simp only [List.any_eq_true, decide_eq_true_eq]
    refine exists_congr (fun e => and_congr_left (fun ⟨hsource, _, _, hid⟩ => ?_))
    refine PropertyGraph.mem_edges_part.trans (and_iff_left_of_imp (fun he => ?_))
    obtain ⟨w, hw, hkey⟩ := List.mem_map.mp (s.joined e he).2
    refine ⟨hsource ▸ hkeys r hr howner, ?_⟩
    rw [← hkey]
    exact hkeys w hw ((h w hw).mpr (hkey ▸ hids _ hid))
  have hnodes : (s.ofOwner ownerId).nodes = s.nodes.filter (fun r => r.ownerId = ownerId) := rfl
  rw [Store.claimsAbout, Store.claimsAbout, hnodes, List.filter_filter]
  refine congrArg (List.filterMap Row.claim?) (List.filter_congr (fun r hr => ?_))
  rw [Bool.eq_iff_iff, Bool.and_eq_true, decide_eq_true_eq, decide_eq_true_eq, decide_eq_true_eq]
  constructor
  · rintro ⟨⟨howner, hlabel, hany⟩, _⟩
    exact ⟨howner, hlabel, (hedges r hr howner).mp hany⟩
  · rintro ⟨howner, hlabel, hany⟩
    exact ⟨⟨howner, hlabel, (hedges r hr howner).mpr hany⟩, howner⟩

end Reads

/-- The ids that the jobs of one owner use. -/
def IdsOf (jobs : List Job) (ownerId : String) (x : String) : Prop := ∃ job ∈ jobs, job.ownerId = ownerId ∧ x ∈ job.ids

/-- No two owners have an id in common: the owner is the first thing the digest of an id is taken of. -/
def Apart (jobs : List Job) : Prop := ∀ job ∈ jobs, ∀ job' ∈ jobs, job.ownerId ≠ job'.ownerId → ∀ x ∈ job.ids, x ∉ job'.ids

instance (jobs : List Job) : Decidable (Apart jobs) := by unfold Apart; infer_instance

/-- What a store shared by several owners keeps: columns that repeat the owner, ids that tell the owners apart, and edges
between nodes of one owner. -/
structure Divided (jobs : List Job) (s : Store) : Prop where
  columns : OwnerColumns s
  split : ∀ ownerId, Split (IdsOf jobs ownerId) ownerId s
  edges : ∀ e ∈ s.edges, ∀ ownerId, IdsOf jobs ownerId e.1.id ↔ IdsOf jobs ownerId e.2.2.id

section Runs
variable {jobs : List Job} {ownerId : String} {s : Store} {job : Job}

private theorem idsOf_of_mem (hjob : job ∈ jobs) {x : String} (h : x ∈ job.ids) : IdsOf jobs job.ownerId x := ⟨job, hjob, rfl, h⟩

theorem Apart.owner_eq (h : Apart jobs) {other x : String} (hx : IdsOf jobs ownerId x) (hx' : IdsOf jobs other x) :
    ownerId = other := by
  obtain ⟨job, hjob, rfl, hx⟩ := hx
  obtain ⟨job', hjob', rfl, hx'⟩ := hx'
  by_contra hne
  exact h job hjob job' hjob' hne x hx hx'

theorem Divided.empty : Divided jobs PropertyGraph.empty :=
  ⟨OwnerColumns.empty, fun _ => Split.empty, fun _ he => absurd he List.not_mem_nil⟩

/-- What the store tells about claims of an owner is about that owner's claims. -/
theorem Divided.told (h : Divided jobs s) {ids : List String} {a : Claim} (ha : a ∈ s.claimsAbout ownerId ids) :
    IdsOf jobs ownerId a.id := by
  obtain ⟨hclaim, howner, _⟩ := (Store.mem_claimsAbout h.columns _ _ _).mp ha
  obtain ⟨r, hr, hrow, _⟩ := (Store.claim?_eq_some_iff s _ a).mp hclaim
  have hrowner : r.ownerId = ownerId := by
    rw [h.columns r hr, (Row.claim?_eq_some_iff r a).mp hrow]
    exact howner
  have hkey := (h.split ownerId r hr).mp hrowner
  rwa [Row.key_of_claim? hrow] at hkey

/-- A run's statements are about its owner's nodes. -/
theorem Divided.ops_of (h : Divided jobs s) (hjob : job ∈ jobs) (hx : job.Extracted) :
    ∀ op ∈ job.ops s, op.Of (IdsOf jobs job.ownerId) job.ownerId := by
  rw [Job.ops_eq_answers]
  refine (job.answers s).ops_of hx (fun x hin => idsOf_of_mem hjob hin) (fun q hq _ a ha => ?_)
  rw [(job.mem_asked s hq).2] at ha
  exact h.told ((job.rows.perm _).mem_iff.mp ha)

/-- Resolution asks about what its owner has stored, and of nothing else. -/
theorem Divided.ops_ofOwner (h : Divided jobs s) (hjob : job ∈ jobs) : job.ops (s.ofOwner job.ownerId) = job.ops s := by
  refine Job.ops_congr (fun c hc => ?_)
  have hfound := get_ofOwner (h.split job.ownerId) (idsOf_of_mem hjob (Job.id_of_mem_claims hc))
  have hstored := claimsAbout_ofOwner (h.split job.ownerId) (fun x hx => idsOf_of_mem hjob (Job.subjects_mem hc x hx))
  simp only [ask, storedAbout, hfound, hstored]

section Statements
variable {op : StoreOp} {ops : List StoreOp}

/-- A statement about one owner's nodes leaves the store divided. -/
theorem Divided.exec (h : Divided jobs s) (hapart : Apart jobs) (hop : op.Of (IdsOf jobs ownerId) ownerId) : Divided jobs (op.exec s) := by
  refine ⟨h.columns.exec op, fun other => (h.split other).exec (fun node text he => ?_), fun ⟨k, q, j⟩ he other => ?_⟩
  · subst he
    obtain ⟨howner, hin⟩ := hop
    rw [howner]
    exact ⟨fun heq => heq ▸ hin, fun hmine => hapart.owner_eq hin hmine⟩
  · by_cases hold : (k, q, j) ∈ s.edges
    · exact h.edges _ hold other
    · have he : (k, q, j) ∈ (execAll [op] s).edges := he
      have hlink : .link k.id q j.id ∈ [op] := link_of_mem_edges he hold
      obtain rfl := List.mem_singleton.mp hlink
      obtain ⟨hk, hj⟩ := hop
      constructor
      · exact fun hmine => hapart.owner_eq hk hmine ▸ hj
      · exact fun hmine => hapart.owner_eq hj hmine ▸ hk

theorem Divided.ofOwner_exec (h : Divided jobs s) (hop : op.Of (IdsOf jobs ownerId) ownerId) :
    (op.exec s).ofOwner ownerId = op.exec (s.ofOwner ownerId) := by
  refine Storage.ofOwner_exec (h.split ownerId) (fun node text he => ?_)
  subst he
  exact hop

theorem Divided.ofOwner_exec_other (h : Divided jobs s) (hapart : Apart jobs) (hop : op.Of (IdsOf jobs ownerId) ownerId)
    {other : String} (hother : ownerId ≠ other) : (op.exec s).ofOwner other = s.ofOwner other := by
  refine Storage.ofOwner_exec_other (h.split other) (fun hmine => hother (hapart.owner_eq hop.subject hmine))
    (fun node text he howner => ?_)
  subst he
  exact hother (hop.1.symm.trans howner)

theorem Divided.execAll (h : Divided jobs s) (hapart : Apart jobs) (hops : ∀ op ∈ ops, op.Of (IdsOf jobs ownerId) ownerId) :
    Divided jobs (Storage.execAll ops s) := by
  induction ops generalizing s with
  | nil => exact h
  | cons op ops ih =>
    obtain ⟨hop, hops⟩ := List.forall_mem_cons.mp hops
    exact ih (h.exec hapart hop) hops

end Statements

theorem Divided.ofOwner_run (h : Divided jobs s) (hjob : job ∈ jobs) (hx : job.Extracted) :
    (job.run s).ofOwner job.ownerId = job.run (s.ofOwner job.ownerId) := by
  rw [Job.run, ofOwner_execAll (h.split job.ownerId) (fun node text hop => h.ops_of hjob hx _ hop), Job.run, h.ops_ofOwner hjob]

theorem Divided.ofOwner_run_other (h : Divided jobs s) (hapart : Apart jobs) (hjob : job ∈ jobs) (hx : job.Extracted)
    (hother : job.ownerId ≠ ownerId) : (job.run s).ofOwner ownerId = s.ofOwner ownerId := by
  have hops := h.ops_of hjob hx
  refine ofOwner_execAll_other (h.split ownerId) (fun op hop hmine => ?_) (fun node text hop howner => ?_)
  · exact hother (hapart.owner_eq (hops op hop).subject hmine)
  · exact hother ((hops _ hop).1.symm.trans howner)

theorem Divided.run (h : Divided jobs s) (hapart : Apart jobs) (hjob : job ∈ jobs) (hx : job.Extracted) :
    Divided jobs (job.run s) := h.execAll hapart (h.ops_of hjob hx)

/-- The ids tell whose a node is, so an edge between ids of one owner joins nodes of one owner. -/
theorem Divided.uncrossed (h : Divided jobs s) : Uncrossed s := by
  have hids : ∀ k ∈ s.keys, ∀ ownerId, s.ownedBy ownerId k ↔ IdsOf jobs ownerId k.id := by
    intro k hk ownerId
    obtain ⟨r, hr, rfl⟩ := List.mem_map.mp hk
    rw [Store.ownedBy_iff, ← h.split ownerId r hr]
    constructor
    · rintro ⟨w, hw, hkey, howner⟩
      rwa [← List.inj_on_of_nodup_map s.unique hw hr hkey]
    · exact fun howner => ⟨r, hr, rfl, howner⟩
  intro e he ownerId
  rw [Bool.eq_iff_iff, hids e.1 (s.joined e he).1 ownerId, hids e.2.2 (s.joined e he).2 ownerId]
  exact h.edges e he ownerId

theorem Divided.wipeOwner (h : Divided jobs s) (other : String) : Divided jobs (s.wipeOwner other) where
  columns := fun r hr => h.columns r (List.mem_filter.mp hr).1
  split := fun ownerId => (h.split ownerId).wipeOwner
  edges := fun e he => h.edges e (List.mem_filter.mp he).1

end Runs

/-- What happens to a store that several owners share. -/
inductive TenantStep where
  | ingest (job : Job)
  | wipe (ownerId : String)

def TenantStep.apply (s : Store) : TenantStep → Store
  | .ingest job => job.run s
  | .wipe ownerId => s.wipeOwner ownerId

def serve (steps : List TenantStep) (s : Store) : Store := steps.foldl TenantStep.apply s

/-- One more step for the jobs of one owner since the last time it was wiped. -/
def TenantStep.since (ownerId : String) (jobs : List Job) : TenantStep → List Job
  | .ingest job => if job.ownerId = ownerId then jobs ++ [job] else jobs
  | .wipe owner => if owner = ownerId then [] else jobs

def jobsSince (ownerId : String) (steps : List TenantStep) : List Job := steps.foldl (TenantStep.since ownerId) []

def TenantStep.job? : TenantStep → Option Job
  | .ingest job => some job
  | .wipe _ => none

def ingested (steps : List TenantStep) : List Job := steps.filterMap TenantStep.job?

section Serve
variable {jobs : List Job} {ownerId : String}

theorem Divided.step {s : Store} (h : Divided jobs s) (hx : ∀ job ∈ jobs, job.Extracted) (hapart : Apart jobs) {step : TenantStep}
    (hstep : ∀ job ∈ step.job?, job ∈ jobs) : Divided jobs (step.apply s) := by
  cases step with
  | ingest job => exact h.run hapart (hstep job rfl) (hx job (hstep job rfl))
  | wipe owner => exact h.wipeOwner owner

/-- One step for the owner's part: its own runs and wipes happen to it, those of others do not. -/
theorem Divided.ofOwner_step {s : Store} (h : Divided jobs s) (hx : ∀ job ∈ jobs, job.Extracted) (hapart : Apart jobs)
    {step : TenantStep} (hstep : ∀ job ∈ step.job?, job ∈ jobs) {own : List Job}
    (hown : s.ofOwner ownerId = runAll own PropertyGraph.empty) :
    (step.apply s).ofOwner ownerId = runAll (step.since ownerId own) PropertyGraph.empty := by
  cases step with
  | ingest job =>
    have hjob := hstep job rfl
    by_cases howner : job.ownerId = ownerId
    · subst howner
      rw [TenantStep.apply, h.ofOwner_run hjob (hx job hjob), hown, TenantStep.since, if_pos rfl, runAll_concat]
    · rw [TenantStep.apply, h.ofOwner_run_other hapart hjob (hx job hjob) howner, hown, TenantStep.since, if_neg howner]
  | wipe owner =>
    by_cases howner : owner = ownerId
    · subst howner
      rw [TenantStep.apply, ofOwner_wipeOwner, TenantStep.since, if_pos rfl]
      rfl
    · rw [TenantStep.apply, ofOwner_wipeOwner_other howner, hown, TenantStep.since, if_neg howner]

/-- After any steps the store is divided among its owners, and each owner's part is what its own runs make. -/
theorem divided_serve {steps : List TenantStep} (hx : ∀ job ∈ jobs, job.Extracted) (hapart : Apart jobs)
    (hsteps : ∀ job ∈ ingested steps, job ∈ jobs) : Divided jobs (serve steps PropertyGraph.empty) ∧
      ∀ ownerId, (serve steps PropertyGraph.empty).ofOwner ownerId = runAll (jobsSince ownerId steps) PropertyGraph.empty := by
  induction steps using List.reverseRecOn with
  | nil => exact ⟨Divided.empty, fun _ => PropertyGraph.part_empty⟩
  | append_singleton steps step ih =>
    rw [ingested, List.filterMap_append] at hsteps
    obtain ⟨hdivided, hown⟩ := ih (fun job hjob => hsteps job (List.mem_append_left _ hjob))
    have hstep : ∀ job ∈ step.job?, job ∈ jobs := by
      intro job hjob
      refine hsteps job (List.mem_append_right _ (List.mem_filterMap.mpr ?_))
      exact ⟨step, List.mem_singleton_self step, hjob⟩
    have hserve : serve (steps ++ [step]) PropertyGraph.empty = step.apply (serve steps PropertyGraph.empty) := by
      rw [serve, List.foldl_append]
      rfl
    rw [hserve]
    refine ⟨hdivided.step hx hapart hstep, fun ownerId => ?_⟩
    rw [hdivided.ofOwner_step hx hapart hstep (hown ownerId), jobsSince, jobsSince, List.foldl_append]
    rfl

end Serve

/-- Whatever the owners of one store ingest and wipe, in any order, each of them has what its own runs since its last
wipe make of an empty store. -/
theorem tenants_apart (steps : List TenantStep) (hx : ∀ job ∈ ingested steps, job.Extracted) (hapart : Apart (ingested steps))
    (ownerId : String) : (serve steps PropertyGraph.empty).ofOwner ownerId = runAll (jobsSince ownerId steps) PropertyGraph.empty :=
  (divided_serve hx hapart (fun _ h => h)).2 ownerId

/-- A run of another owner over one note. -/
def bobsNote (statement : String) : Job where
  ownerId := "bob"
  extracted := [(noteRecord mockConnector false "r1" 1, Llm.toCandidate plain "bob" (noteRecord mockConnector false "r1" 1)
    "claude-extractor@v1" (aboutProject "Atlas" [statement]))]
  sealBody := fun _ => .error "unreachable"
  rows := .asStored
  contract := by
    intro p hp
    obtain rfl := List.mem_singleton.mp hp
    exact (Llm.toCandidate_extracts ..).unresolved
  typed := by
    intro p hp
    obtain rfl := List.mem_singleton.mp hp
    exact (Llm.toCandidate_extracts ..).typed

theorem bobsNote_extracted (statement : String) : (bobsNote statement).Extracted := by
  intro p hp
  obtain rfl := List.mem_singleton.mp hp
  exact Llm.toCandidate_extracts ..

/-- Alice and Bob say the same of a project of the same name, Alice is wiped, and says it again. -/
def aliceAndBob : List TenantStep :=
  [.ingest toRedis, .ingest (bobsNote "project Atlas will use Redis."), .wipe "alice", .ingest toPostgres]

theorem aliceAndBob_extracted : ∀ job ∈ ingested aliceAndBob, job.Extracted := by
  intro job hjob
  simp only [ingested, aliceAndBob, TenantStep.job?, List.filterMap_cons, List.filterMap_nil, List.mem_cons, List.not_mem_nil,
    or_false] at hjob
  rcases hjob with rfl | rfl | rfl
  · exact Job.ofAnswers_extracts _
  · exact bobsNote_extracted _
  · exact Job.ofAnswers_extracts _

theorem aliceAndBob_apart : Apart (ingested aliceAndBob) := by decide +kernel

theorem tenants_apart_alice : (serve aliceAndBob PropertyGraph.empty).ofOwner "alice" = runAll [toPostgres] PropertyGraph.empty :=
  tenants_apart aliceAndBob aliceAndBob_extracted aliceAndBob_apart "alice"

end Memorai.Ingestion
