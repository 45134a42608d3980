import Memorai.Ingestion.Links

/-! A superseded claim keeps the link to what superseded it, as long as nothing arrives late. -/
namespace Memorai.Ingestion
open Schema Memorai.Graph Storage Resolver

/-- Every superseded claim has a stored claim of its owner that supersedes it, by payload and by edge. -/
def Linked (s : Store) : Prop := ∀ x c, s.claim? x = some c → c.status = .superseded →
  ∃ y d, s.claim? y = some d ∧ d.ownerId = c.ownerId ∧ x ∈ d.supersedes ∧
    (Store.claimKey y, .supersedes, Store.claimKey x) ∈ s.edges

/-- A reported supersession is there, by payload and by edge. -/
def Present (s : Store) (p : String × String) : Prop :=
  (Store.claimKey p.1, .supersedes, Store.claimKey p.2) ∈ s.edges ∧
    ∃ d, s.claim? p.1 = some d ∧ p.2 ∈ d.supersedes

/-- Every supersession reported by the runs. -/
def reported : List Job → Store → List (String × String)
  | [], _ => []
  | job :: jobs, s => (job.result s).supersessions ++ reported jobs (job.run s)

/-- No new claim of the run meets a live rival asserted later. -/
def OnTime (job : Job) (s : Store) : Prop := OnTimeFrom [] (job.answers s).asked

instance (job : Job) (s : Store) : Decidable (OnTime job s) := by unfold OnTime; infer_instance

theorem Present.run {s : Store} {p : String × String} (h : Present s p) (job : Job) : Present (job.run s) p := by
  obtain ⟨he, d, hd, hp⟩ := h
  refine ⟨job.edges_run_mono he, _, job.claim?_run_of_stored hd, ?_⟩
  rwa [supersedes_touch]

theorem Present.runAll {s : Store} {p : String × String} (h : Present s p) (jobs : List Job) :
    Present (runAll jobs s) p := by
  induction jobs generalizing s with
  | nil => exact h
  | cons job jobs ih => exact ih (h.run job)

namespace Job
variable (job : Job) {s : Store}

/-- What a pending claim supersedes is linked to it, by payload and by edge, once the run is over. -/
theorem present_of_supersedes (hs : Sound s) (hd : DistinctFresh job s) {b : Claim} (hb : b ∈ job.pending s)
    {x : String} (hx : x ∈ b.supersedes) : Present (job.run s) (b.id, x) := by
  obtain ⟨p, q, hpq⟩ := List.append_of_mem hb
  obtain ⟨post, hpost, _⟩ := job.claim?_run_of_pending hpq (job.ids_behind hd hpq)
  refine ⟨job.mem_edges_run hpq (r := .supersedes) hx ?_, _, hpost, by rwa [supersedes_touch]⟩
  obtain ⟨_, ⟨a, ha, _⟩ | ⟨d, hdp, rfl⟩⟩ := job.refers hs.columns hpq (List.mem_append_left _ hx)
  · exact Or.inl ((Store.claim?_isSome_iff s x).mp ⟨a, ha⟩)
  · exact Or.inr (Or.inl ⟨d, hdp, rfl⟩)

/-- Whoever is superseded by a pending claim has its owner. -/
theorem owner_of_supersedes (hs : Sound s) {b c : Claim} {x : String} (hb : b ∈ job.pending s) (hx : x ∈ b.supersedes)
    (hc : s.claim? x = some c) : c.ownerId = job.ownerId := by
  obtain ⟨p, q, hpq⟩ := List.append_of_mem hb
  obtain ⟨_, ⟨a, ha, hown⟩ | ⟨d, hd, rfl⟩⟩ := job.refers hs.columns hpq (List.mem_append_left _ hx)
  · rwa [Option.some.inj (hc.symm.trans ha)]
  · have hmem : d ∈ job.pending s := by
      rw [hpq]
      exact List.mem_append_left _ hd
    rw [job.claim?_eq_none_of_mem_pending s hmem] at hc
    exact absurd hc (by simp)

theorem linked_run (hs : Sound s) (h : Linked s) (ht : OnTime job s) (hd : DistinctFresh job s) :
    Linked (job.run s) := by
  have hby : ∀ x (c : Claim), c.ownerId = job.ownerId → (∃ b ∈ job.pending s, x ∈ b.supersedes) →
      ∃ y d, (job.run s).claim? y = some d ∧ d.ownerId = c.ownerId ∧ x ∈ d.supersedes ∧
        (Store.claimKey y, .supersedes, Store.claimKey x) ∈ (job.run s).edges := by
    intro x c hown ⟨b, hb, hx⟩
    obtain ⟨he, d, hdr, hxd⟩ := job.present_of_supersedes hs hd hb hx
    refine ⟨b.id, d, hdr, ?_, hxd, he⟩
    rcases job.claim?_run_cases hdr with ⟨a, ha, _⟩ | ⟨e, hemem, _, _, post, _, rfl⟩
    · rw [job.claim?_eq_none_of_mem_pending s hb] at ha
      exact absurd ha (by simp)
    · rw [ownerId_touch, job.owner_of_mem_pending s hemem, hown]
  intro x d hx hsup
  rcases job.claim?_run_cases hx with ⟨c, hc, rfl⟩ | ⟨b, hb, rfl, pre, post, hops, rfl⟩
  · by_cases hst : c.status = .superseded
    · obtain ⟨y, e, he, hown, hxe, hedge⟩ := h x c hc hst
      refine ⟨y, _, job.claim?_run_of_stored he, ?_, ?_, job.edges_run_mono hedge⟩
      · rw [ownerId_touch, ownerId_touch, hown]
      · rwa [supersedes_touch]
    · have hm : marked (job.ops s) c.id := by
        by_contra hn
        rw [touch_of_not_marked hn] at hsup
        exact hst hsup
      rw [Store.id_of_claim? hc] at hm
      obtain ⟨b, hb, hxb⟩ := ((job.carries_ops s).marked_iff x).mp hm
      refine hby x _ ?_ ⟨b, hb, hxb⟩
      rw [ownerId_touch, job.owner_of_supersedes hs hb hxb hc]
  · have hown : (touch post b).ownerId = job.ownerId := by rw [ownerId_touch, job.owner_of_mem_pending s hb]
    refine hby b.id _ hown ?_
    by_cases hst : b.status = .superseded
    · exact pending_superseded (job.answers s).raw_asked ht hb hst
    · have hm : marked post b.id := by
        by_contra hn
        rw [touch_of_not_marked hn] at hsup
        exact hst hsup
      have hmops : marked (job.ops s) b.id := by
        rw [hops]
        exact List.mem_append_right _ hm
      exact ((job.carries_ops s).marked_iff b.id).mp hmops

theorem present_of_reported (hs : Sound s) (ht : OnTime job s) (hd : DistinctFresh job s) {p : String × String}
    (hp : p ∈ (job.result s).supersessions) : Present (job.run s) p := by
  rw [job.result_supersessions] at hp
  obtain ⟨b, hb, hid, hx⟩ := pending_reported ht hp
  have h := job.present_of_supersedes hs hd hb hx
  rwa [hid] at h

end Job

private theorem linked_runAll {jobs : List Job} {s : Store} (hs : Sound s) (h : Linked s)
    (hc : EveryRun (fun job s => OnTime job s ∧ DistinctFresh job s) jobs s) :
    Linked (runAll jobs s) ∧ ∀ p ∈ reported jobs s, Present (runAll jobs s) p := by
  induction jobs generalizing s with
  | nil => exact ⟨h, fun p hp => absurd hp List.not_mem_nil⟩
  | cons job jobs ih =>
    obtain ⟨⟨ht, hd⟩, hrest⟩ := hc
    obtain ⟨hlinked, hrep⟩ := ih (hs.run job) (job.linked_run hs h ht hd) hrest
    refine ⟨hlinked, fun p hp => ?_⟩
    rcases List.mem_append.mp hp with hp | hp
    · exact (job.present_of_reported hs ht hd hp).runAll jobs
    · exact hrep p hp

/-- As long as no claim arrives late and no batch holds two new claims with one id, every superseded
claim is linked, and so is every supersession the runs report. -/
theorem superseded_linked (jobs : List Job)
    (h : EveryRun (fun job s => OnTime job s ∧ DistinctFresh job s) jobs PropertyGraph.empty) :
    Linked (runAll jobs PropertyGraph.empty) ∧
      ∀ p ∈ reported jobs PropertyGraph.empty, Present (runAll jobs PropertyGraph.empty) p :=
  linked_runAll Sound.empty (fun x c hx => absurd hx (by simp [Store.claim?])) h

def inOrder : List Job := [toRedis, toPostgres]

set_option maxRecDepth 8000 in
theorem superseded_linked_inOrder :
    EveryRun (fun job s => OnTime job s ∧ DistinctFresh job s) inOrder PropertyGraph.empty ∧
      Linked (runAll inOrder PropertyGraph.empty) ∧
      ∀ p ∈ reported inOrder PropertyGraph.empty, Present (runAll inOrder PropertyGraph.empty) p := by
  have h : EveryRun (fun job s => OnTime job s ∧ DistinctFresh job s) inOrder PropertyGraph.empty :=
    ⟨by decide, by decide, trivial⟩
  exact ⟨h, superseded_linked inOrder h⟩

/-- The same two notes, the earlier one ingested last. -/
def outOfOrder : List Job := inOrder.reverse

set_option maxRecDepth 8000 in
/-- The late claim is stored as superseded and reported so, and nothing links to it. -/
theorem outOfOrder_unlinked : ¬ (Linked (runAll outOfOrder PropertyGraph.empty) ∧
    ∀ p ∈ reported outOfOrder PropertyGraph.empty, Present (runAll outOfOrder PropertyGraph.empty) p) := by
  intro h
  have hst : ((runAll outOfOrder PropertyGraph.empty).claim? (soleClaim toRedis).id).map Claim.status = some .superseded := by
    decide
  have hno : ∀ e ∈ (runAll outOfOrder PropertyGraph.empty).edges, e.2.1 ≠ .supersedes := by decide
  obtain ⟨c, hc, hsup⟩ := Option.map_eq_some_iff.mp hst
  obtain ⟨y, d, _, _, _, hedge⟩ := h.1 _ c hc hsup
  exact hno _ hedge rfl

end Memorai.Ingestion
