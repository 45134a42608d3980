import Memorai.Ingestion.Interruptions
import Memorai.Storage.StoreCalls

/-! Records that are ingested again. The claim layer has them already, and nothing that happened to it since is undone. -/
namespace Memorai.Ingestion
open Schema Memorai.Graph Storage Extraction Resolver

/-- What happens to a store: runs, and the two calls that move a claim's axes. -/
inductive Activity where
  | run (job : Job)
  | setClaimStatus (claimId status : String)
  | setFulfillment (claimId fulfillment : String) (settledAtMs : Option Int)

def Activity.exec (s : Store) : Activity → Store
  | run job => job.run s
  | setClaimStatus claimId status => (s.mutateClaim claimId (.ofStatus status)).2
  | setFulfillment claimId fulfillment settledAtMs => (s.setFulfillment claimId fulfillment settledAtMs).2

def actAll (activities : List Activity) (s : Store) : Store := activities.foldl Activity.exec s

/-- Every record of the job has been ingested before, and the extractor made the same of it. -/
def Known (activities : List Activity) (again : Job) : Prop :=
  ∀ p ∈ again.extracted, ∃ job, .run job ∈ activities ∧ job.ownerId = again.ownerId ∧ anytime p ∈ job.extracted.map anytime

section Keys
variable {s : Store} (job : Job)

theorem Job.tagged_run (h : TaggedKeys s) : TaggedKeys (job.run s) := by
  intro k hk
  rcases (mem_keys_execAll _ _ _).mp hk with hk | ⟨op, hop, hk⟩
  · exact h k hk
  · exact job.tagged_of_key? s hop hk

theorem Job.keys_run_mono {k : NodeKey} (h : k ∈ s.keys) : k ∈ (job.run s).keys := (mem_keys_execAll _ _ _).mpr (Or.inl h)

/-- A claim of the batch is stored after the run, if it was not before. -/
theorem Job.stores_claim (h : TaggedKeys s) {c : Claim} (hc : c ∈ job.claims) : Store.claimKey c.id ∈ (job.run s).keys := by
  by_cases hf : Job.fresh s c = true
  · have hin : bare c ∈ (job.claims.filter (Job.fresh s)).map bare := List.mem_map_of_mem (List.mem_filter.mpr ⟨hc, hf⟩)
    rw [← job.pending_bare s] at hin
    obtain ⟨b, hb, hbare⟩ := List.mem_map.mp hin
    have hid : b.id = c.id := eq_of_bare Claim.id (fun _ => rfl) hbare
    rw [← hid]
    exact (mem_keys_execAll _ _ _).mpr (Or.inr ((job.carries_ops s).key_of_mem hb))
  · apply job.keys_run_mono
    rw [← Store.claim?_isSome_iff, ← Option.ne_none_iff_exists', ne_eq, ← h.get_isNone_iff (job.tagged_claim hc)]
    exact hf

end Keys

/-- Ids tell their kind, and the claims of every run so far are stored. -/
structure Remembers (activities : List Activity) (s : Store) : Prop where
  tagged : TaggedKeys s
  stored : ∀ job, .run job ∈ activities → ∀ c ∈ job.claims, Store.claimKey c.id ∈ s.keys

theorem Remembers.concat {activities : List Activity} {s : Store} (h : Remembers activities s) (activity : Activity) :
    Remembers (activities ++ [activity]) (activity.exec s) := by
  cases activity with
  | run job =>
    refine ⟨job.tagged_run h.tagged, fun earlier hearlier c hc => ?_⟩
    rcases List.mem_append.mp hearlier with hearlier | hearlier
    · exact job.keys_run_mono (h.stored earlier hearlier c hc)
    · obtain rfl := Activity.run.inj (List.mem_singleton.mp hearlier)
      exact earlier.stores_claim h.tagged hc
  | setClaimStatus claimId status =>
    have hkeys : (Activity.exec s (.setClaimStatus claimId status)).keys = s.keys := s.keys_mutateClaim claimId _
    refine ⟨fun k hk => h.tagged k (hkeys ▸ hk), fun job hjob c hc => ?_⟩
    rw [hkeys]
    exact h.stored job (by simpa using hjob) c hc
  | setFulfillment claimId fulfillment settledAtMs =>
    have hkeys : (Activity.exec s (.setFulfillment claimId fulfillment settledAtMs)).keys = s.keys := s.keys_setFulfillment ..
    refine ⟨fun k hk => h.tagged k (hkeys ▸ hk), fun job hjob c hc => ?_⟩
    rw [hkeys]
    exact h.stored job (by simpa using hjob) c hc

theorem remembers_actAll (activities : List Activity) : Remembers activities (actAll activities PropertyGraph.empty) := by
  induction activities using List.reverseRecOn with
  | nil => exact ⟨fun _ h => absurd h List.not_mem_nil, fun _ h => absurd h List.not_mem_nil⟩
  | append_singleton activities activity ih =>
    rw [actAll, List.foldl_append]
    exact ih.concat activity

/-- Resolution finds every claim of the job stored. -/
theorem Remembers.found {activities : List Activity} {s : Store} (h : Remembers activities s) {again : Job}
    (hknown : Known activities again) : ∀ c ∈ again.claims, (s.get c.id).isSome := by
  intro c hc
  obtain ⟨m, hm, hc⟩ := List.mem_flatMap.mp hc
  obtain ⟨p, hp, rfl⟩ := List.mem_map.mp hm
  obtain ⟨job, hjob, _, hsame⟩ := hknown p hp
  obtain ⟨q, hq, heq⟩ := List.mem_map.mp hsame
  have hids : q.2.claims.map Claim.id = p.2.claims.map Claim.id := by
    have hunstamped : q.2.unstamped.claims.map Claim.id = p.2.unstamped.claims.map Claim.id :=
      congrArg (fun pair : RawRecord × Candidate => pair.2.claims.map Claim.id) heq
    simp only [Candidate.unstamped, List.map_map] at hunstamped
    exact hunstamped
  obtain ⟨d, hd, hid⟩ := List.mem_map.mp (hids ▸ List.mem_map_of_mem hc)
  have hkey := h.stored job hjob d (Job.mem_claims hq hd)
  exact (Store.get_isSome_iff s c.id).mpr ⟨_, hkey, hid⟩

section Found
variable {again : Job} {s : Store}

theorem pending_of_found (h : ∀ c ∈ again.claims, (s.get c.id).isSome) : again.pending s = [] := by
  have hnone : again.claims.filter (Job.fresh s) = [] := by
    rw [List.filter_eq_nil_iff]
    intro c hc hf
    have hsome := h c hc
    rw [Job.fresh, Option.isNone_iff_eq_none] at hf
    rw [hf] at hsome
    exact absurd hsome (by simp)
  have hbare := again.pending_bare s
  rw [hnone] at hbare
  exact List.map_eq_nil_iff.mp hbare

theorem asked_of_found (h : ∀ c ∈ again.claims, (s.get c.id).isSome) : ∀ q ∈ (again.answers s).asked, q.found = true := by
  intro q hq
  obtain ⟨hc, heq⟩ := again.mem_asked s hq
  rw [heq]
  exact h q.claim hc

theorem quiet_of_found (h : again.pending s = []) {op : StoreOp} (hop : op ∈ again.ops s) : Quiet op := by
  rcases (again.carries_ops s).only op hop with hq | ⟨d, hd, _⟩
  · exact hq
  · rw [h] at hd
    exact absurd hd List.not_mem_nil

/-- With no claims to write, links leave events only. -/
theorem source_of_found (h : again.pending s = []) {a b : String} {r : Rel} (hop : .link a r b ∈ again.ops s) :
    Tagged (Store.eventKey a) := by
  rw [Job.ops_eq_answers, Answers.ops_eq] at hop
  obtain ⟨m, hm, hop⟩ := List.mem_flatMap.mp hop
  rcases List.mem_append.mp hop with hop | hop
  · exact (again.answers s).source_of_mem_prelude hm hop
  · obtain ⟨b, hb, _⟩ := List.mem_flatMap.mp hop
    have hpending : b ∈ again.pending s := by
      rw [Job.pending, ← (again.answers s).merged_claims]
      exact List.mem_flatMap.mpr ⟨m, hm, hb⟩
    rw [h] at hpending
    exact absurd hpending List.not_mem_nil

theorem find?_run_of_found (h : again.pending s = []) (x : String) :
    (again.run s).find? (Store.claimKey x) = s.find? (Store.claimKey x) := by
  apply find?_execAll_of_untouched
  · intro op hop hkey
    have hquiet := quiet_of_found h hop
    cases op with
    | upsert n t =>
      cases n with
      | entity e => exact absurd hkey (by simp [StoreOp.key?, labelOf])
      | event e => exact absurd hkey (by simp [StoreOp.key?, labelOf])
      | claim c => exact absurd hquiet.1 (by simp [StoreOp.claim?])
    | link a q b => exact absurd hkey (by simp [StoreOp.key?])
    | setClaimStatus y st => exact absurd hkey (by simp [StoreOp.key?])
  · intro y st hop
    exact absurd rfl ((quiet_of_found h hop).2.1 y st)

theorem mem_edges_run_of_found (htagged : TaggedKeys s) (h : again.pending s = []) (x : String) (r : Rel) (j : NodeKey) :
    (Store.claimKey x, r, j) ∈ (again.run s).edges ↔ (Store.claimKey x, r, j) ∈ s.edges := by
  refine ⟨fun he => ?_, again.edges_run_mono⟩
  by_contra hne
  have hevent := source_of_found h (link_of_mem_edges he hne)
  have hclaim := again.tagged_run htagged _ ((again.run s).joined _ he).1
  exact absurd (hclaim.label_eq hevent rfl) (by simp)

end Found

/-- The run reports nothing new, and every claim row and every edge leaving a claim is as it was. -/
structure KeepsClaims (again : Job) (s : Store) : Prop where
  claims : (again.result s).claims = 0
  supersessions : (again.result s).supersessions = []
  contradictions : (again.result s).contradictions = []
  rows : ∀ x, (again.run s).find? (Store.claimKey x) = s.find? (Store.claimKey x)
  edges : ∀ x r j, (Store.claimKey x, r, j) ∈ (again.run s).edges ↔ (Store.claimKey x, r, j) ∈ s.edges

/-- Ingesting known records again does not touch the claim layer, whatever happened to it since. -/
theorem reingestion_keeps_claims (activities : List Activity) (again : Job) (h : Known activities again) :
    KeepsClaims again (actAll activities PropertyGraph.empty) := by
  have hremembers := remembers_actAll activities
  have hfound := hremembers.found h
  have hpending := pending_of_found hfound
  exact
    { claims := by
        rw [again.result_claims, hpending]
        rfl
      supersessions := by
        rw [again.result_supersessions]
        exact collect_of_found _ _ (asked_of_found hfound)
      contradictions := by
        rw [again.result_contradictions]
        exact collect_of_found _ _ (asked_of_found hfound)
      rows := find?_run_of_found hpending
      edges := mem_edges_run_of_found hremembers.tagged hpending }

/-- A decision, the one that replaces it, and a call that marks the first one as reconciled. -/
def replacedAndMarked : List Activity := [.run toRedis, .run toPostgres, .setClaimStatus (soleClaim toRedis).id "reconciled"]

theorem reingestion_keeps_claims_redis :
    Known replacedAndMarked toRedis ∧ KeepsClaims toRedis (actAll replacedAndMarked PropertyGraph.empty) := by
  have h : Known replacedAndMarked toRedis := fun p hp => ⟨toRedis, List.mem_cons_self, rfl, List.mem_map_of_mem hp⟩
  exact ⟨h, reingestion_keeps_claims _ _ h⟩

end Memorai.Ingestion
