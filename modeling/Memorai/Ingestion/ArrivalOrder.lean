import Memorai.Ingestion.LiveVersions
import Memorai.Ingestion.Links
import Memorai.Order.Arrivals

/-! Claims that arrive one per run: ingestion refines the abstract process of arriving versions,
so the order matters exactly where it matters there. -/
namespace Memorai.Ingestion
open Schema Memorai.Graph Storage Resolver

/-- What a claim says: its tokens and the obligation beside them. -/
def meaning (c : Claim) : Finset String × (Option String × Option String × Option Int) :=
  (tokens c.statement, obligation c)

def storedStatus (s : Store) (x : String) : Option ClaimStatus := (s.claim? x).map Claim.status

section
variable (claimOf : Job → Claim)

def topicOf (job : Job) : Finset String := topic (claimOf job).statement

def contentOf (job : Job) : Finset String × (Option String × Option String × Option Int) := meaning (claimOf job)

def timeOf (job : Job) : Int := (claimOf job).assertedAtMs

/-- Runs of one owner with one claim each, about a shared subject, with distinct ids and times. -/
structure OneByOne (ownerId : String) (jobs : List Job) : Prop where
  sole : ∀ j ∈ jobs, j.claims = [claimOf j]
  owner : ∀ j ∈ jobs, j.ownerId = ownerId
  shares : jobs.Pairwise (fun j k => Shares (claimOf j) (claimOf k))
  ids : jobs.Pairwise (fun j k => (claimOf j).id ≠ (claimOf k).id)
  times : jobs.Pairwise (fun j k => timeOf claimOf j ≠ timeOf claimOf k)

/-- The runs whose claims the abstract process leaves live. -/
def liveRuns (jobs : List Job) : List Job :=
  Arrivals.liveAfter (topicOf claimOf) (contentOf claimOf) (timeOf claimOf) jobs

/-- The store holds the claims of the runs, active where live and superseded elsewhere. -/
structure Believes (s : Store) (done : List Job) : Prop where
  sound : Sound s
  only : ∀ x c, s.claim? x = some c → ∃ j ∈ done, (claimOf j).id = x
  each : ∀ j ∈ done, ∃ c, s.claim? (claimOf j).id = some c ∧ bare c = bare (claimOf j) ∧
    (j ∈ liveRuns claimOf done → c.status = .active) ∧ (j ∉ liveRuns claimOf done → c.status = .superseded)

end

variable {claimOf : Job → Claim} {ownerId : String}

theorem OneByOne.perm {jobs jobs' : List Job} (h : OneByOne claimOf ownerId jobs) (hp : jobs'.Perm jobs) :
    OneByOne claimOf ownerId jobs' where
  sole j hj := h.sole j (hp.mem_iff.mp hj)
  owner j hj := h.owner j (hp.mem_iff.mp hj)
  shares := (hp.pairwise_iff (fun h => h.symm)).mpr h.shares
  ids := (hp.pairwise_iff (fun h => h.symm)).mpr h.ids
  times := (hp.pairwise_iff (fun h => h.symm)).mpr h.times

theorem OneByOne.init {jobs rest : List Job} (h : OneByOne claimOf ownerId (jobs ++ rest)) :
    OneByOne claimOf ownerId jobs where
  sole j hj := h.sole j (List.mem_append_left _ hj)
  owner j hj := h.owner j (List.mem_append_left _ hj)
  shares := (List.pairwise_append.mp h.shares).1
  ids := (List.pairwise_append.mp h.ids).1
  times := (List.pairwise_append.mp h.times).1

section Step
variable {s : Store} {done : List Job} {job : Job}

/-- The stored claims the next claim is compared with are those of the runs done. -/
private theorem Believes.mem_storedAbout (hb : Believes claimOf s done) (h : OneByOne claimOf ownerId (done ++ [job]))
    {a : Claim} (ha : s.claim? a.id = some a) : a ∈ storedAbout job.rows s job.ownerId (claimOf job) := by
  obtain ⟨k, hk, hid⟩ := hb.only a.id a ha
  obtain ⟨a', ha', hbare, _⟩ := hb.each k hk
  obtain rfl : a' = a := Option.some.inj (ha'.symm.trans (hid ▸ ha))
  have hsub : a'.subjectEntityIds = (claimOf k).subjectEntityIds := eq_of_bare _ (fun _ => rfl) hbare
  have hown : a'.ownerId = (claimOf k).ownerId := eq_of_bare Claim.ownerId (fun _ => rfl) hbare
  have hkown : (claimOf k).ownerId = k.ownerId := by
    have hmem : claimOf k ∈ k.claims := by
      rw [h.sole k (List.mem_append_left _ hk)]
      exact List.mem_singleton_self _
    obtain ⟨m, hm, hc⟩ := List.mem_flatMap.mp hmem
    obtain ⟨p, hp, rfl⟩ := List.mem_map.mp hm
    exact (k.contract p hp _ hc).owner
  refine hb.sound.mem_storedAbout ha ?_ ?_
  · rw [hown, hkown, h.owner k (List.mem_append_left _ hk), h.owner job (by simp)]
  · obtain ⟨e, he, he'⟩ := (List.pairwise_append.mp h.shares).2.2 k hk job (List.mem_singleton_self _)
    exact ⟨e, he', hsub ▸ he⟩

private theorem disputes_iff (h : OneByOne claimOf ownerId (done ++ [job])) {k : Job} (hk : k ∈ done) {a : Claim}
    (hbare : bare a = bare (claimOf k)) :
    Disputes (claimOf job) a ↔ Arrivals.Rival (topicOf claimOf) (contentOf claimOf) job k := by
  have hid : a.id = (claimOf k).id := eq_of_bare Claim.id (fun _ => rfl) hbare
  have hst : a.statement = (claimOf k).statement := eq_of_bare Claim.statement (fun _ => rfl) hbare
  have hob : obligation a = obligation (claimOf k) := eq_of_bare obligation (fun _ => rfl) hbare
  have hne := (List.pairwise_append.mp h.ids).2.2 k hk job (List.mem_singleton_self _)
  simp only [Disputes, Arrivals.Rival, topicOf, contentOf, meaning, hid, hst, hob, ne_eq, Prod.mk.injEq]
  constructor
  · intro hd
    exact ⟨hd.2.1.symm, fun e => hd.2.2 ⟨e.1.symm, e.2.symm⟩⟩
  · intro hr
    exact ⟨hne, hr.1.symm, fun e => hr.2 ⟨e.1.symm, e.2.symm⟩⟩

/-- A live rival of the next claim, in the store and in the abstract process. -/
private theorem rival_iff (hb : Believes claimOf s done) (h : OneByOne claimOf ownerId (done ++ [job])) {k : Job}
    (hk : k ∈ done) {a : Claim} (ha : s.claim? (claimOf k).id = some a) :
    Resolver.Rival (claimOf job) a ↔
      Arrivals.Rival (topicOf claimOf) (contentOf claimOf) job k ∧ k ∈ liveRuns claimOf done := by
  obtain ⟨a', ha', hbare, hlive, hdead⟩ := hb.each k hk
  obtain rfl : a' = a := Option.some.inj (ha'.symm.trans ha)
  rw [Resolver.Rival, disputes_iff h hk hbare]
  refine and_congr_right (fun _ => ⟨fun hst => ?_, hlive⟩)
  by_contra hn
  rw [hdead hn] at hst
  exact absurd hst (by simp)

private theorem mem_done (h : OneByOne claimOf ownerId (done ++ [job])) :
    claimOf job ∈ job.claims ∧ Raw (claimOf job) ∧ job ∉ done := by
  have hmem : claimOf job ∈ job.claims := by
    rw [h.sole job (by simp)]
    exact List.mem_singleton_self _
  refine ⟨hmem, job.raw_claims _ hmem, fun hj => ?_⟩
  exact (List.pairwise_append.mp h.ids).2.2 job hj job (List.mem_singleton_self _) rfl

private theorem Believes.unstored (hb : Believes claimOf s done) (h : OneByOne claimOf ownerId (done ++ [job])) :
    s.claim? (claimOf job).id = none := by
  rw [Option.eq_none_iff_forall_ne_some]
  intro c hc
  obtain ⟨k, hk, hid⟩ := hb.only _ c hc
  exact (List.pairwise_append.mp h.ids).2.2 k hk job (List.mem_singleton_self _) hid

private theorem Believes.pending_eq (hb : Believes claimOf s done) (h : OneByOne claimOf ownerId (done ++ [job])) :
    job.pending s = [settled (claimOf job) (storedAbout job.rows s job.ownerId (claimOf job))] := by
  have hf : s.get (claimOf job).id = none :=
    Option.isNone_iff_eq_none.mp ((hb.sound.fresh_iff job (mem_done h).1).mpr (hb.unstored h))
  rw [Job.pending, Answers.pending, job.asked_answers, h.sole job (by simp)]
  simp [settleAll, settle, ask, hf]

/-- Every claim the next one is compared with is the stored claim of a run done. -/
private theorem Believes.compared (hb : Believes claimOf s done) {a : Claim}
    (ha : a ∈ storedAbout job.rows s job.ownerId (claimOf job)) :
    ∃ k ∈ done, s.claim? (claimOf k).id = some a ∧ timeOf claimOf k = a.assertedAtMs := by
  have ha := (Store.mem_claimsAbout hb.sound.columns _ _ _).mp ((job.rows.perm _).mem_iff.mp ha)
  obtain ⟨k, hk, hid⟩ := hb.only a.id a ha.1
  obtain ⟨a', ha', hbare, _⟩ := hb.each k hk
  obtain rfl : a' = a := Option.some.inj (ha'.symm.trans (hid ▸ ha.1))
  exact ⟨k, hk, ha', (eq_of_bare Claim.assertedAtMs (fun _ => rfl) hbare).symm⟩

/-- The next claim is born superseded where the abstract process does not let it in. -/
private theorem Believes.status_next (hb : Believes claimOf s done) (h : OneByOne claimOf ownerId (done ++ [job])) :
    ((¬ ∃ k ∈ liveRuns claimOf done, Arrivals.Rival (topicOf claimOf) (contentOf claimOf) job k ∧
        timeOf claimOf job < timeOf claimOf k) →
      (settled (claimOf job) (storedAbout job.rows s job.ownerId (claimOf job))).status = .active) ∧
    ((∃ k ∈ liveRuns claimOf done, Arrivals.Rival (topicOf claimOf) (contentOf claimOf) job k ∧
        timeOf claimOf job < timeOf claimOf k) →
      (settled (claimOf job) (storedAbout job.rows s job.ownerId (claimOf job))).status = .superseded) := by
  have htime := fun k hk => (List.pairwise_append.mp h.times).2.2 k hk job (List.mem_singleton_self _)
  have hraw := (mem_done h).2.1.1
  constructor
  · intro hno
    refine (status_settled_active _ _).mpr ⟨hraw, fun a ha hr => ?_⟩
    obtain ⟨k, hk, hka, htk⟩ := hb.compared ha
    obtain ⟨hrk, hlive⟩ := (rival_iff hb h hk hka).mp hr
    rw [← htk]
    exact lt_of_le_of_ne (not_lt.mp (fun hlt => hno ⟨k, hlive, hrk, hlt⟩)) (htime k hk)
  · intro ⟨k, hlive, hrk, hlt⟩
    have hk : k ∈ done := Arrivals.mem_of_mem_liveAfter hlive
    obtain ⟨a, ha, hbare, _⟩ := hb.each k hk
    have hta : a.assertedAtMs = timeOf claimOf k := eq_of_bare Claim.assertedAtMs (fun _ => rfl) hbare
    have haid : a.id = (claimOf k).id := eq_of_bare Claim.id (fun _ => rfl) hbare
    have hcont : contemporary (claimOf job) (storedAbout job.rows s job.ownerId (claimOf job)) = [] := by
      rw [List.eq_nil_iff_forall_not_mem]
      intro o ho
      obtain ⟨ho, _, hto⟩ := (mem_contemporary _ _ _).mp ho
      obtain ⟨i, hi, _, hti⟩ := hb.compared ho
      exact htime i hi (hti.trans hto)
    rcases status_settled_of_no_contemporary hcont with hst | hst
    · have hlt' := ((status_settled_active _ _).mp (hst.trans hraw)).2 a (hb.mem_storedAbout h (haid ▸ ha))
        ((rival_iff hb h hk ha).mpr ⟨hrk, hlive⟩)
      rw [hta] at hlt'
      exact absurd hlt (not_lt_of_gt hlt')
    · exact hst

/-- The run supersedes the stored claims the abstract process displaces. -/
private theorem Believes.marked_iff (hb : Believes claimOf s done) (h : OneByOne claimOf ownerId (done ++ [job]))
    {k : Job} (hk : k ∈ done) {c : Claim} (hc : s.claim? (claimOf k).id = some c) :
    marked (job.ops s) c.id ↔ (Arrivals.Rival (topicOf claimOf) (contentOf claimOf) job k ∧ k ∈ liveRuns claimOf done) ∧
      timeOf claimOf k < timeOf claimOf job := by
  obtain ⟨c', hc', hbare, _⟩ := hb.each k hk
  obtain rfl : c' = c := Option.some.inj (hc'.symm.trans hc)
  have hcid : c'.id = (claimOf k).id := eq_of_bare Claim.id (fun _ => rfl) hbare
  have hct : timeOf claimOf k = c'.assertedAtMs := (eq_of_bare Claim.assertedAtMs (fun _ => rfl) hbare).symm
  rw [← rival_iff hb h hk hc, hct, (job.carries_ops s).marked_iff, hb.pending_eq h]
  simp only [List.mem_singleton, exists_eq_left, settled, (mem_done h).2.1.2.1, List.nil_append, List.mem_map, mem_earlier]
  refine ⟨fun ⟨a, ⟨ha, hr⟩, hid⟩ => ?_, fun hr => ⟨c', ⟨hb.mem_storedAbout h (hcid ▸ hc), hr⟩, rfl⟩⟩
  have has := (Store.mem_claimsAbout hb.sound.columns _ _ _).mp ((job.rows.perm _).mem_iff.mp ha)
  obtain rfl : a = c' := Option.some.inj (has.1.symm.trans (hid ▸ hcid ▸ hc))
  exact hr

private theorem Believes.row_next (hb : Believes claimOf s done) (h : OneByOne claimOf ownerId (done ++ [job])) :
    (job.run s).claim? (claimOf job).id =
      some (settled (claimOf job) (storedAbout job.rows s job.ownerId (claimOf job))) := by
  obtain ⟨post, hpost, hmarked⟩ := job.claim?_run_of_pending (p := []) (hb.pending_eq h)
    (fun d hd => absurd hd List.not_mem_nil)
  rw [touch_of_not_marked] at hpost
  · exact hpost
  · rw [hmarked]
    intro ⟨d, hd, hx⟩
    rw [List.mem_singleton.mp hd] at hx
    simp only [settled, (mem_done h).2.1.2.1, List.nil_append, List.mem_map, mem_earlier] at hx
    obtain ⟨a, ⟨_, hr, _⟩, hid⟩ := hx
    exact hr.1.1 hid

/-- One more run keeps the store and the abstract process together. -/
theorem Believes.run (hb : Believes claimOf s done) (h : OneByOne claimOf ownerId (done ++ [job])) :
    Believes claimOf (job.run s) (done ++ [job]) := by
  have hjob : job ∉ done := (mem_done h).2.2
  have hlive : ∀ k, k ∈ liveRuns claimOf (done ++ [job]) ↔ _ := fun k => by
    rw [liveRuns, Arrivals.liveAfter_concat, Arrivals.mem_arrive, ← liveRuns]
  refine ⟨hb.sound.run job, ?_, ?_⟩
  · intro x d hd
    rcases job.claim?_run_cases hd with ⟨c, hc, _⟩ | ⟨c, hc, rfl, _⟩
    · obtain ⟨k, hk, hid⟩ := hb.only x c hc
      exact ⟨k, List.mem_append_left _ hk, hid⟩
    · rw [hb.pending_eq h] at hc
      rw [List.mem_singleton.mp hc]
      exact ⟨job, by simp, rfl⟩
  · intro k hk
    rw [hlive]
    rcases List.mem_append.mp hk with hkd | hkj
    · have hkne : k ≠ job := fun e => hjob (e ▸ hkd)
      obtain ⟨c, hc, hbare, hact, hdead⟩ := hb.each k hkd
      refine ⟨_, job.claim?_run_of_stored hc, (bare_touch _ c).trans hbare, fun hl => ?_, fun hn => ?_⟩
      · obtain ⟨hl, hnot⟩ := hl.resolve_right (fun hr => hkne hr.1)
        rw [touch_of_not_marked, hact hl]
        rw [hb.marked_iff h hkd hc]
        exact fun hr => hnot ⟨hr.1.1, hr.2⟩
      · by_cases hl : k ∈ liveRuns claimOf done
        · have hrt : Arrivals.Rival (topicOf claimOf) (contentOf claimOf) job k ∧
              timeOf claimOf k < timeOf claimOf job := not_not.mp (fun hno => hn (Or.inl ⟨hl, hno⟩))
          rw [touch, if_pos ((hb.marked_iff h hkd hc).mpr ⟨⟨hrt.1, hl⟩, hrt.2⟩)]
        · unfold touch
          split
          · rfl
          · exact hdead hl
    · obtain rfl := List.mem_singleton.mp hkj
      obtain ⟨hin, hout⟩ := hb.status_next h
      refine ⟨_, hb.row_next h, rfl, fun hl => ?_, fun hn => ?_⟩
      · rcases hl with ⟨hl, _⟩ | ⟨_, hno⟩
        · exact absurd (Arrivals.mem_of_mem_liveAfter hl) hjob
        · exact hin hno
      · exact hout (not_not.mp (fun hno => hn (Or.inr ⟨rfl, hno⟩)))

end Step

/-- Ingesting claims one per run refines the abstract process. -/
theorem believes_runAll {jobs : List Job} (h : OneByOne claimOf ownerId jobs) :
    Believes claimOf (runAll jobs PropertyGraph.empty) jobs := by
  induction jobs using List.reverseRecOn with
  | nil =>
    exact ⟨Sound.empty, fun x c hc => absurd hc (by simp [runAll, Store.claim?]), fun j hj => absurd hj List.not_mem_nil⟩
  | append_singleton jobs job ih =>
    rw [runAll_concat]
    exact (ih h.init).run h

theorem storedStatus_eq_active_iff {jobs : List Job} (h : OneByOne claimOf ownerId jobs) {job : Job} (hj : job ∈ jobs) :
    (storedStatus (runAll jobs PropertyGraph.empty) (claimOf job).id = some .active ↔ job ∈ liveRuns claimOf jobs) ∧
      (storedStatus (runAll jobs PropertyGraph.empty) (claimOf job).id = some .superseded ↔
        job ∉ liveRuns claimOf jobs) := by
  obtain ⟨c, hc, _, hlive, hdead⟩ := (believes_runAll h).each job hj
  rw [storedStatus, hc, Option.map_some]
  by_cases hl : job ∈ liveRuns claimOf jobs
  · simp [hlive hl, hl]
  · simp [hdead hl, hl]

/-- The stored status of a claim is the same for all orders of arrival, unless the claim repeats the
newest one of its topic with a conflicting claim asserted in between. -/
theorem status_order_independent_iff (claimOf : Job → Claim) (ownerId : String) (jobs : List Job)
    (h : OneByOne claimOf ownerId jobs) (job : Job) (hj : job ∈ jobs) :
    (∀ js ks : List Job, js.Perm jobs → ks.Perm jobs →
      storedStatus (runAll js PropertyGraph.empty) (claimOf job).id =
        storedStatus (runAll ks PropertyGraph.empty) (claimOf job).id) ↔
      ¬ Arrivals.Wavers (topicOf claimOf) (contentOf claimOf) (timeOf claimOf) jobs job := by
  rw [← Arrivals.live_order_independent_iff h.times hj]
  refine forall_congr' (fun js => forall_congr' (fun ks => forall_congr' (fun hjs => forall_congr' (fun hks => ?_))))
  obtain ⟨hja, hjd⟩ := storedStatus_eq_active_iff (h.perm hjs) (hjs.mem_iff.mpr hj)
  obtain ⟨hka, hkd⟩ := storedStatus_eq_active_iff (h.perm hks) (hks.mem_iff.mpr hj)
  change _ ↔ (job ∈ liveRuns claimOf js ↔ job ∈ liveRuns claimOf ks)
  constructor
  · intro he
    rw [← hja, ← hka, he]
  · intro hiff
    by_cases hl : job ∈ liveRuns claimOf js
    · rw [hja.mpr hl, hka.mpr (hiff.mp hl)]
    · rw [hjd.mpr hl, hkd.mpr (fun hk => hl (hiff.mpr hk))]

def backToRedis : Job := .ofNotes "Atlas" [("r3", 3, ["project Atlas will use Redis."])]

theorem oneByOne_there_and_back : OneByOne soleClaim "alice" [toRedis, toPostgres, backToRedis] where
  sole := by
    intro j hj
    simp only [List.mem_cons, List.not_mem_nil, or_false] at hj
    rcases hj with rfl | rfl | rfl <;> rfl
  owner := by
    intro j hj
    simp only [List.mem_cons, List.not_mem_nil, or_false] at hj
    rcases hj with rfl | rfl | rfl <;> rfl
  shares := by decide
  ids := by decide
  times := by decide

set_option maxRecDepth 8000 in
theorem status_order_independent_toPostgres :
    ¬ Arrivals.Wavers (topicOf soleClaim) (contentOf soleClaim) (timeOf soleClaim) [toRedis, toPostgres, backToRedis]
        toPostgres ∧
      ∀ js ks : List Job, js.Perm [toRedis, toPostgres, backToRedis] → ks.Perm [toRedis, toPostgres, backToRedis] →
        storedStatus (runAll js PropertyGraph.empty) (soleClaim toPostgres).id =
          storedStatus (runAll ks PropertyGraph.empty) (soleClaim toPostgres).id := by
  have hsteady : ¬ Arrivals.Wavers (topicOf soleClaim) (contentOf soleClaim) (timeOf soleClaim)
      [toRedis, toPostgres, backToRedis] toPostgres := by
    intro ⟨n, ⟨hn, ht, hmax⟩, hc, _⟩
    have hlast : n = backToRedis := by
      have hle := hmax backToRedis (by simp) (by decide)
      simp only [List.mem_cons, List.not_mem_nil, or_false] at hn
      rcases hn with rfl | rfl | rfl
      · exact absurd hle (by decide)
      · exact absurd hle (by decide)
      · rfl
    rw [hlast] at hc
    exact absurd hc (by decide)
  exact ⟨hsteady,
    (status_order_independent_iff soleClaim "alice" _ oneByOne_there_and_back toPostgres (by simp)).mpr hsteady⟩

set_option maxRecDepth 8000 in
/-- Back to Redis: the first decision ends superseded when it arrives first and active when it arrives last. -/
theorem arrival_order_matters : ¬ ∀ (claimOf : Job → Claim) (ownerId : String) (jobs js ks : List Job),
    OneByOne claimOf ownerId jobs → js.Perm jobs → ks.Perm jobs → ∀ job ∈ jobs,
      storedStatus (runAll js PropertyGraph.empty) (claimOf job).id =
        storedStatus (runAll ks PropertyGraph.empty) (claimOf job).id := by
  intro h
  have hperm : [toPostgres, backToRedis, toRedis].Perm [toRedis, toPostgres, backToRedis] :=
    @List.perm_append_comm _ [toPostgres, backToRedis] [toRedis]
  have heq := h soleClaim "alice" [toRedis, toPostgres, backToRedis] _ _ oneByOne_there_and_back (.refl _) hperm
    toRedis (by simp)
  exact absurd heq (by decide +kernel)

end Memorai.Ingestion
