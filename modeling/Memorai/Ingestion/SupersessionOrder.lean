import Mathlib.Logic.Relation
import Memorai.Ingestion.Links

/-! Supersession runs forward in time, and so it has no cycles. -/
namespace Memorai.Ingestion
open Schema Memorai.Graph Storage Extraction Resolver

/-- A claim of the same owner and the same topic that was asserted later. -/
def Replaces (a b : Claim) : Prop :=
  a.ownerId = b.ownerId ∧ topic a.statement = topic b.statement ∧ b.assertedAtMs < a.assertedAtMs

/-- Every `SUPERSEDES` edge leads from a stored claim to one that it replaces, and that one is marked as superseded. -/
def Forward (s : Store) : Prop := ∀ k j, (k, .supersedes, j) ∈ s.edges → ∃ a b, s.claim? a.id = some a ∧ s.claim? b.id = some b ∧
  k = Store.claimKey a.id ∧ j = Store.claimKey b.id ∧ Replaces a b ∧ b.status = .superseded

def Supersedes (s : Store) (k j : NodeKey) : Prop := (k, .supersedes, j) ∈ s.edges

theorem Replaces.of_bare {a b c d : Claim} (h : Replaces a b) (hc : bare c = bare a) (hd : bare d = bare b) : Replaces c d := by
  obtain ⟨howner, htopic, htime⟩ := h
  refine ⟨?_, ?_, ?_⟩
  · rw [eq_of_bare Claim.ownerId (fun _ => rfl) hc, eq_of_bare Claim.ownerId (fun _ => rfl) hd, howner]
  · rw [eq_of_bare Claim.statement (fun _ => rfl) hc, eq_of_bare Claim.statement (fun _ => rfl) hd, htopic]
  · rw [eq_of_bare Claim.assertedAtMs (fun _ => rfl) hc, eq_of_bare Claim.assertedAtMs (fun _ => rfl) hd]
    exact htime

theorem status_touch_of_marked {ops : List StoreOp} {c : Claim} (h : marked ops c.id) : (touch ops c).status = .superseded := by
  rw [touch, if_pos h]

theorem status_touch_of_superseded {ops : List StoreOp} {c : Claim} (h : c.status = .superseded) :
    (touch ops c).status = .superseded := by
  unfold touch
  split
  · rfl
  · exact h

section Run
variable {job : Job} {s : Store}

/-- The row of a pending claim, and the mark of whoever comes behind it and supersedes it. -/
theorem Job.row_of_pending (hd : DistinctFresh job s) {p q : List Claim} {b : Claim} (hpq : job.pending s = p ++ b :: q) :
    ∃ c, (job.run s).claim? b.id = some c ∧ bare c = bare b ∧ (∀ d ∈ q, b.id ∈ d.supersedes → c.status = .superseded) := by
  obtain ⟨post, hrow, hmarked⟩ := job.claim?_run_of_pending hpq (job.ids_behind hd hpq)
  refine ⟨_, hrow, bare_touch post b, fun d hdq hsup => ?_⟩
  apply status_touch_of_marked
  exact (hmarked b.id).mpr ⟨d, List.mem_cons_of_mem _ hdq, hsup⟩

/-- Whom a pending claim supersedes is stored after the run, replaced and marked. -/
theorem Job.replaced_of_supersedes (hs : Sound s) (hd : DistinctFresh job s) {p q : List Claim} {b : Claim}
    (hpq : job.pending s = p ++ b :: q) {x : String} (hx : x ∈ b.supersedes) :
    ∃ c, (job.run s).claim? x = some c ∧ Replaces b c ∧ c.status = .superseded := by
  have hb : b ∈ job.pending s := by
    rw [hpq]
    simp
  have howner := job.owner_of_mem_pending s hb
  obtain ⟨o, hid, htopic, htime, ⟨r, hr, _, ho⟩ | ⟨d, hdp, hbare⟩⟩ :=
    pending_supersedes (job.answers s).raw_asked hpq hx
  · -- It was stored before, and the run marks it.
    rw [(job.mem_asked s hr).2] at ho
    obtain ⟨hstored, hoowner, _⟩ := (Store.mem_claimsAbout hs.columns _ _ _).mp ((job.rows.perm _).mem_iff.mp ho)
    have hmark : marked (job.ops s) o.id := ((job.carries_ops s).marked_iff o.id).mpr ⟨b, hb, hid ▸ hx⟩
    refine ⟨_, hid ▸ job.claim?_run_of_stored hstored, ?_, status_touch_of_marked hmark⟩
    have hreplaces : Replaces b o := ⟨howner.trans hoowner.symm, htopic.symm, htime⟩
    exact hreplaces.of_bare rfl (bare_touch _ o)
  · -- It is ahead in the batch, and marked once its successor is written.
    obtain ⟨p₁, p₂, rfl⟩ := List.append_of_mem hdp
    have hpq' : job.pending s = p₁ ++ d :: (p₂ ++ b :: q) := by
      rw [hpq]
      simp
    have hdid : d.id = x := (eq_of_bare Claim.id (fun _ => rfl) hbare).trans hid
    have hdmem : d ∈ job.pending s := by
      rw [hpq']
      simp
    obtain ⟨c, hc, hcbare, hstatus⟩ := job.row_of_pending hd hpq'
    have hdoowner : o.ownerId = job.ownerId :=
      (eq_of_bare Claim.ownerId (fun _ => rfl) hbare).symm.trans (job.owner_of_mem_pending s hdmem)
    have hreplaces : Replaces b o := ⟨howner.trans hdoowner.symm, htopic.symm, htime⟩
    exact ⟨c, hdid ▸ hc, hreplaces.of_bare rfl (hcbare.trans hbare), hstatus b (by simp) (hdid ▸ hx)⟩

theorem Forward.run (hs : Sound s) (h : Forward s) (hd : DistinctFresh job s) : Forward (job.run s) := by
  intro k j he
  by_cases hold : (k, .supersedes, j) ∈ s.edges
  · obtain ⟨a, b, ha, hb, rfl, rfl, hreplaces, hstatus⟩ := h k j hold
    refine ⟨touch (job.ops s) a, touch (job.ops s) b, ?_, ?_, ?_, ?_, ?_, status_touch_of_superseded hstatus⟩
    · rw [id_touch]
      exact job.claim?_run_of_stored ha
    · rw [id_touch]
      exact job.claim?_run_of_stored hb
    · rw [id_touch]
    · rw [id_touch]
    · exact hreplaces.of_bare (bare_touch _ a) (bare_touch _ b)
  · obtain ⟨b, hb, hkid, hx⟩ := ((job.carries_ops s).link_mem_iff (by simp) (by simp)).mp (link_of_mem_edges he hold)
    obtain ⟨p, q, hpq⟩ := List.append_of_mem hb
    obtain ⟨a, ha, habare, _⟩ := job.row_of_pending hd hpq
    obtain ⟨c, hc, hreplaces, hstatus⟩ := job.replaced_of_supersedes hs hd hpq hx
    obtain ⟨hk, hj⟩ := (job.run s).joined _ he
    have haid : a.id = b.id := Store.id_of_claim? ha
    have hcid : c.id = j.id := Store.id_of_claim? hc
    have hakey := (Store.claim?_isSome_iff _ b.id).mp ⟨a, ha⟩
    have hckey := (Store.claim?_isSome_iff _ j.id).mp ⟨c, hc⟩
    refine ⟨a, c, haid ▸ ha, hcid ▸ hc, ?_, ?_, hreplaces.of_bare habare rfl, hstatus⟩
    · rw [haid]
      exact (hs.run job).tagged.eq_of_id hk hakey hkid
    · rw [hcid]
      exact (hs.run job).tagged.eq_of_id hj hckey rfl

end Run

theorem distinctFresh_of_nodup {job : Job} (h : (job.claims.map Claim.id).Nodup) (s : Store) : DistinctFresh job s :=
  h.sublist (List.filter_sublist.map Claim.id)

/-- When the claim of a node was asserted. -/
def assertedAt (s : Store) (k : NodeKey) : Int := ((s.claim? k.id).map Claim.assertedAtMs).getD 0

theorem Forward.assertedAt_lt {s : Store} (h : Forward s) {k j : NodeKey} (hkj : Supersedes s k j) :
    assertedAt s j < assertedAt s k := by
  obtain ⟨a, b, ha, hb, rfl, rfl, hreplaces, _⟩ := h k j hkj
  have hk : assertedAt s (Store.claimKey a.id) = a.assertedAtMs := by
    rw [assertedAt, Store.claimKey, ha]
    rfl
  have hj : assertedAt s (Store.claimKey b.id) = b.assertedAtMs := by
    rw [assertedAt, Store.claimKey, hb]
    rfl
  rw [hk, hj]
  exact hreplaces.2.2

theorem Forward.acyclic {s : Store} (h : Forward s) (k : NodeKey) : ¬ Relation.TransGen (Supersedes s) k k := by
  have hlt : ∀ {i j}, Relation.TransGen (Supersedes s) i j → assertedAt s j < assertedAt s i := by
    intro i j hij
    induction hij with
    | single hstep => exact h.assertedAt_lt hstep
    | tail _ hstep ih => exact (h.assertedAt_lt hstep).trans ih
  exact fun hcycle => lt_irrefl _ (hlt hcycle)

/-- After any complete runs whose batches repeat no claim id, every supersession leads from a claim to an earlier one of
its owner and topic, which is marked as superseded, and there is no way back. -/
theorem supersession_forward (jobs : List Job) (h : ∀ job ∈ jobs, (job.claims.map Claim.id).Nodup) :
    Forward (runAll jobs PropertyGraph.empty) ∧ ∀ k, ¬ Relation.TransGen (Supersedes (runAll jobs PropertyGraph.empty)) k k := by
  have hevery : ∀ jobs : List Job, (∀ job ∈ jobs, (job.claims.map Claim.id).Nodup) → ∀ s, EveryRun DistinctFresh jobs s := by
    intro jobs
    induction jobs with
    | nil => exact fun _ _ => trivial
    | cons job jobs ih =>
      intro hall s
      exact ⟨distinctFresh_of_nodup (hall job List.mem_cons_self) s, ih (fun j hj => hall j (List.mem_cons_of_mem _ hj)) _⟩
  have hforward : Forward (runAll jobs PropertyGraph.empty) :=
    (hevery jobs h PropertyGraph.empty).invariant (fun _ _ hs hd hp => hp.run hs hd) Sound.empty
      (fun _ _ he => absurd he List.not_mem_nil)
  exact ⟨hforward, hforward.acyclic⟩

theorem supersession_forward_inOrder :
    (∀ job ∈ [toRedis, toPostgres], (job.claims.map Claim.id).Nodup) ∧
      Forward (runAll [toRedis, toPostgres] PropertyGraph.empty) ∧
        ∀ k, ¬ Relation.TransGen (Supersedes (runAll [toRedis, toPostgres] PropertyGraph.empty)) k k := by
  have h : ∀ job ∈ [toRedis, toPostgres], (job.claims.map Claim.id).Nodup := by decide
  exact ⟨h, supersession_forward _ h⟩

end Memorai.Ingestion
