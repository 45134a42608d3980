import Memorai.Ingestion.RunLaws

/-! Claim payloads and claim edges: when they tell the same story, and when a superseded claim
keeps its link. -/
namespace Memorai.Ingestion
open Schema Memorai.Graph Storage Extraction Resolver

/-- The ids a stored claim has an edge to. -/
def targets (s : Store) (x : String) (r : Rel) : List String :=
  (s.edges.filter (fun e => e.1 = Store.claimKey x ∧ e.2.1 = r)).map (fun e => e.2.2.id)

theorem mem_targets (s : Store) (x : String) (r : Rel) (t : String) :
    t ∈ targets s x r ↔ ∃ j, (Store.claimKey x, r, j) ∈ s.edges ∧ j.id = t := by
  simp only [targets, List.mem_map, List.mem_filter, decide_eq_true_eq]
  constructor
  · intro h
    obtain ⟨⟨k, q, j⟩, ⟨he, rfl, rfl⟩, rfl⟩ := h
    exact ⟨j, he, rfl⟩
  · intro h
    obtain ⟨j, he, rfl⟩ := h
    exact ⟨_, ⟨he, rfl, rfl⟩, rfl⟩

/-- The fresh claims of the batch have pairwise distinct ids. -/
def DistinctFresh (job : Job) (s : Store) : Prop := ((job.claims.filter (Job.fresh s)).map Claim.id).Nodup

instance (job : Job) (s : Store) : Decidable (DistinctFresh job s) := by unfold DistinctFresh; infer_instance

/-- Every run starts from a store where the condition holds of it. -/
def EveryRun (P : Job → Store → Prop) : List Job → Store → Prop
  | [], _ => True
  | job :: jobs, s => P job s ∧ EveryRun P jobs (job.run s)

/-- What the empty store has and every run under the condition keeps, is had after the runs. -/
theorem EveryRun.invariant {C : Job → Store → Prop} {P : Store → Prop}
    (hrun : ∀ (job : Job) s, Sound s → C job s → P s → P (job.run s)) {s : Store} (hs : Sound s) (h : P s)
    {jobs : List Job} (hc : EveryRun C jobs s) : P (runAll jobs s) := by
  induction jobs generalizing s with
  | nil => exact h
  | cons job jobs ih => exact ih (hs.run job) (hrun job s hs hc.1 h) hc.2

/-- Where one run keeps an invariant exactly under a condition, it holds after every number of runs exactly if each run
meets the condition. -/
theorem EveryRun.prefixes_iff {C : Job → Store → Prop} {P : Store → Prop}
    (hrun : ∀ (job : Job) s, Sound s → P s → (P (job.run s) ↔ C job s)) {s : Store} (hs : Sound s) (h : P s) (jobs : List Job) :
    (∀ n, P (runAll (jobs.take n) s)) ↔ EveryRun C jobs s := by
  induction jobs generalizing s with
  | nil =>
    refine ⟨fun _ => trivial, fun _ n => ?_⟩
    rw [List.take_nil]
    exact h
  | cons job jobs ih =>
    constructor
    · intro hall
      have hjob : P (job.run s) := hall 1
      exact ⟨(hrun job s hs h).mp hjob, (ih (hs.run job) hjob).mp (fun n => hall (n + 1))⟩
    · intro hevery n
      have hjob : P (job.run s) := (hrun job s hs h).mpr hevery.1
      cases n with
      | zero => exact h
      | succ n => exact (ih (hs.run job) hjob).mpr hevery.2 n

theorem EveryRun.take {C : Job → Store → Prop} {jobs : List Job} {s : Store} (h : EveryRun C jobs s) (n : Nat) :
    EveryRun C (jobs.take n) s := by
  induction jobs generalizing s n with
  | nil =>
    rw [List.take_nil]
    trivial
  | cons job jobs ih =>
    cases n with
    | zero => trivial
    | succ n => exact ⟨h.1, ih h.2 n⟩

/-- Where a run goes from one store to a related one exactly under a condition, earlier stores are related to later ones
exactly if each run meets the condition. -/
theorem EveryRun.between_iff {C : Job → Store → Prop} {R : Store → Store → Prop} (hrefl : ∀ s, R s s)
    (htrans : ∀ {s t u}, R s t → R t u → R s u) (hrun : ∀ job s, R s (job.run s) ↔ C job s) {jobs : List Job} {s : Store} :
    (∀ n m, n ≤ m → R (runAll (jobs.take n) s) (runAll (jobs.take m) s)) ↔ EveryRun C jobs s := by
  induction jobs generalizing s with
  | nil =>
    refine ⟨fun _ => trivial, fun _ n m _ => ?_⟩
    rw [List.take_nil, List.take_nil]
    exact hrefl s
  | cons job jobs ih =>
    constructor
    · intro hall
      refine ⟨(hrun job s).mp (hall 0 1 (Nat.zero_le 1)), ih.mp (fun n m hnm => ?_)⟩
      exact hall (n + 1) (m + 1) (Nat.succ_le_succ hnm)
    · rintro ⟨hjob, hevery⟩ n m hnm
      have hrest := ih.mpr hevery
      cases m with
      | zero =>
        obtain rfl := Nat.le_zero.mp hnm
        exact hrefl s
      | succ m =>
        cases n with
        | zero => exact htrans ((hrun job s).mpr hjob) (hrest 0 m (Nat.zero_le m))
        | succ n => exact hrest n m (Nat.le_of_succ_le_succ hnm)

namespace Job
variable (job : Job) {s : Store}

theorem nodup_pending (h : DistinctFresh job s) : ((job.pending s).map Claim.id).Nodup := by
  have hid : (job.pending s).map Claim.id = ((job.pending s).map bare).map Claim.id := by
    rw [List.map_map]; rfl
  have hid' : ((job.claims.filter (Job.fresh s)).map bare).map Claim.id = (job.claims.filter (Job.fresh s)).map Claim.id := by
    rw [List.map_map]; rfl
  rwa [hid, job.pending_bare, hid']

theorem eq_of_id (h : DistinctFresh job s) {a b : Claim} (ha : a ∈ job.pending s) (hb : b ∈ job.pending s)
    (hid : a.id = b.id) : a = b :=
  List.inj_on_of_nodup_map (job.nodup_pending h) ha hb hid

/-- No claim behind a pending one repeats its id. -/
theorem ids_behind (h : DistinctFresh job s) {p q : List Claim} {b : Claim} (hpq : job.pending s = p ++ b :: q) :
    ∀ d ∈ q, d.id ≠ b.id := by
  have hnodup := job.nodup_pending h
  rw [hpq, List.map_append, List.map_cons] at hnodup
  have hcons := (List.nodup_cons.mp (List.nodup_append.mp hnodup).2.1).1
  exact fun d hd he => hcons (List.mem_map.mpr ⟨d, hd, he⟩)

/-- Whatever a pending claim names is stored by the time it is written. -/
theorem present_of_linked (hs : Sound s) {p q : List Claim} {b : Claim} (h : job.pending s = p ++ b :: q)
    {r : Rel} {t : String} (ht : t ∈ linked b r) (hm : r ≠ .mentions) (hc : r ≠ .cites) :
    ∃ j, j.id = t ∧ (j ∈ s.keys ∨ (∃ d ∈ p, j = Store.claimKey d.id) ∨
      ∃ x ∈ b.subjectEntityIds ++ parties b, j = Store.entityKey x) := by
  have hclaim : t ∈ b.supersedes ++ b.contradicts → ∃ j : NodeKey, j.id = t ∧
      (j ∈ s.keys ∨ (∃ d ∈ p, j = Store.claimKey d.id) ∨
        ∃ x ∈ b.subjectEntityIds ++ parties b, j = Store.entityKey x) := by
    intro ht
    refine ⟨Store.claimKey t, rfl, ?_⟩
    obtain ⟨_, ⟨a, ha, _⟩ | ⟨d, hd, rfl⟩⟩ := job.refers hs.columns h ht
    · exact Or.inl ((Store.claim?_isSome_iff s t).mp ⟨a, ha⟩)
    · exact Or.inr (Or.inl ⟨d, hd, rfl⟩)
  have hentity : t ∈ b.subjectEntityIds ++ parties b → ∃ j : NodeKey, j.id = t ∧
      (j ∈ s.keys ∨ (∃ d ∈ p, j = Store.claimKey d.id) ∨
        ∃ x ∈ b.subjectEntityIds ++ parties b, j = Store.entityKey x) :=
    fun ht => ⟨Store.entityKey t, rfl, Or.inr (Or.inr ⟨t, ht, rfl⟩)⟩
  cases r with
  | about => exact hentity (List.mem_append_left _ ht)
  | owedBy => exact hentity (List.mem_append_right _ (List.mem_append_left _ ht))
  | owedTo =>
    refine hentity (List.mem_append_right _ (List.mem_append_right _ ?_))
    simp only [linked, Option.mem_toList, Option.filter_eq_some_iff] at ht
    exact Option.mem_toList.mpr ht.1
  | supersedes => exact hclaim (List.mem_append_left _ ht)
  | contradicts => exact hclaim (List.mem_append_right _ ht)
  | mentions => exact absurd rfl hm
  | cites => exact absurd rfl hc
  | other name => exact absurd ht List.not_mem_nil

theorem mem_targets_run_of_stored {x : String} {c : Claim} (h : s.claim? x = some c) {r : Rel} (hm : r ≠ .mentions)
    (hc : r ≠ .cites) (t : String) : t ∈ targets (job.run s) x r ↔ t ∈ targets s x r := by
  rw [mem_targets, mem_targets]
  refine ⟨fun ⟨j, he, hj⟩ => ⟨j, ?_, hj⟩, fun ⟨j, he, hj⟩ => ⟨j, job.edges_run_mono he, hj⟩⟩
  rcases job.linked_of_mem_edges_run hm hc he with he | ⟨b, hb, rfl, _⟩
  · exact he
  · rw [job.claim?_eq_none_of_mem_pending s hb] at h
    exact absurd h (by simp)

theorem mem_targets_run_of_pending (hs : Sound s) (hd : DistinctFresh job s) {b : Claim} (hb : b ∈ job.pending s)
    {r : Rel} (hm : r ≠ .mentions) (hc : r ≠ .cites) (t : String) :
    t ∈ targets (job.run s) b.id r ↔ t ∈ linked b r := by
  rw [mem_targets]
  refine ⟨fun ⟨j, he, hj⟩ => ?_, fun ht => ?_⟩
  · rcases job.linked_of_mem_edges_run hm hc he with he | ⟨d, hdm, hid, hl⟩
    · -- An edge of a claim that is not stored would dangle.
      have hkey := (Store.claim?_isSome_iff s b.id).mpr (s.joined _ he).1
      rw [job.claim?_eq_none_of_mem_pending s hb] at hkey
      exact absurd hkey (by simp)
    · rw [← hj, ← job.eq_of_id hd hdm hb hid]
      exact hl
  · obtain ⟨p, q, hpq⟩ := List.append_of_mem hb
    obtain ⟨j, hj, hpres⟩ := job.present_of_linked hs hpq ht hm hc
    exact ⟨j, job.mem_edges_run hpq (hj ▸ ht) hpres, hj⟩

theorem owedTo_linked {b : Claim} (hb : b ∈ job.pending s) (t : String) :
    t ∈ linked b .owedTo ↔ b.commitment.bind Commitment.owedToEntityId = some t := by
  have hpar : "" ∉ parties b := job.named_of_mem_pending s hb
  simp only [linked, Option.mem_toList, Option.filter_eq_some_iff, decide_eq_true_eq, and_iff_left_iff_imp]
  rintro h rfl
  exact hpar (List.mem_append_right _ (Option.mem_toList.mpr h))

end Job

/-- Payload and edges of every stored claim agree. -/
def SameStory (s : Store) : Prop := ∀ x c, s.claim? x = some c →
  (∀ t, t ∈ targets s x .supersedes ↔ t ∈ c.supersedes) ∧
  (∀ t, t ∈ targets s x .contradicts ↔ t ∈ c.contradicts) ∧
  (∀ t, t ∈ targets s x .about ↔ t ∈ c.subjectEntityIds) ∧
  (∀ t, t ∈ targets s x .owedBy ↔ c.commitment.map Commitment.owedByEntityId = some t) ∧
  (∀ t, t ∈ targets s x .owedTo ↔ c.commitment.bind Commitment.owedToEntityId = some t)

theorem SameStory.run {s : Store} (hs : Sound s) (h : SameStory s) {job : Job} (hd : DistinctFresh job s) :
    SameStory (job.run s) := by
  intro x d hx
  rcases job.claim?_run_cases hx with ⟨c, hc, rfl⟩ | ⟨b, hb, rfl, _, post, _, rfl⟩
  · have ht : ∀ r, r ≠ .mentions → r ≠ .cites → ∀ t, t ∈ targets (job.run s) x r ↔ t ∈ targets s x r :=
      fun r hm hcit => job.mem_targets_run_of_stored hc hm hcit
    simp only [ht .supersedes (by decide) (by decide), ht .contradicts (by decide) (by decide),
      ht .about (by decide) (by decide), ht .owedBy (by decide) (by decide), ht .owedTo (by decide) (by decide),
      commitment_touch, supersedes_touch, contradicts_touch, subjectEntityIds_touch]
    exact h x c hc
  · have ht : ∀ r, r ≠ .mentions → r ≠ .cites → ∀ t, t ∈ targets (job.run s) b.id r ↔ t ∈ linked b r :=
      fun r hm hcit => job.mem_targets_run_of_pending hs hd hb hm hcit
    simp only [ht .supersedes (by decide) (by decide), ht .contradicts (by decide) (by decide),
      ht .about (by decide) (by decide), ht .owedBy (by decide) (by decide), ht .owedTo (by decide) (by decide),
      commitment_touch, supersedes_touch, contradicts_touch, subjectEntityIds_touch, job.owedTo_linked hb]
    simp [linked]

/-- Payload and edges agree after any runs none of which resolves two copies of one claim id. -/
theorem payload_and_edges_agree (jobs : List Job) (h : EveryRun DistinctFresh jobs PropertyGraph.empty) :
    SameStory (runAll jobs PropertyGraph.empty) :=
  h.invariant (fun _ _ hs hd hp => hp.run hs hd) Sound.empty (fun _ _ hx => absurd hx (by simp [Store.claim?]))

/-- A decision and the one that replaces it, in one batch. -/
def replaced : Job :=
  .ofNotes "Atlas" [("r1", 1, ["project Atlas will use Redis."]), ("r2", 2, ["project Atlas will use Postgres."])]

theorem payload_and_edges_agree_replaced :
    EveryRun DistinctFresh [replaced] PropertyGraph.empty ∧ SameStory (runAll [replaced] PropertyGraph.empty) := by
  have h : EveryRun DistinctFresh [replaced] PropertyGraph.empty := ⟨by decide, trivial⟩
  exact ⟨h, payload_and_edges_agree [replaced] h⟩

/-- The same, but the second record states its decision twice. -/
def restated : Job :=
  .ofNotes "Atlas" [("r1", 1, ["project Atlas will use Redis."]),
    ("r2", 2, ["project Atlas will use Postgres.", "project Atlas will use Postgres."])]

set_option maxRecDepth 8000 in
theorem restated_story : ¬ SameStory (runAll [restated] PropertyGraph.empty) := by
  intro h
  have hs : ((runAll [restated] PropertyGraph.empty).claim? (soleClaim toPostgres).id).map Claim.supersedes = some [] := by
    decide +kernel
  have ht : targets (runAll [restated] PropertyGraph.empty) (soleClaim toPostgres).id .supersedes =
      [(soleClaim toRedis).id] := by decide +kernel
  obtain ⟨c, hc, hsup⟩ := Option.map_eq_some_iff.mp hs
  have hmem := ((h _ c hc).1 (soleClaim toRedis).id).mp (by rw [ht]; exact List.mem_singleton_self _)
  rw [hsup] at hmem
  exact absurd hmem List.not_mem_nil

end Memorai.Ingestion
