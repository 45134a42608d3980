import Memorai.Ingestion.Links

/-! Claims that contradict each other. The link between them stays when one of them is superseded. -/
namespace Memorai.Ingestion
open Schema Memorai.Graph Storage Extraction Resolver

section Run

/-- One new claim: it is written whole, and then marks what it supersedes. -/
def aside (x : String) (before : Bool) (claim : Claim) : Bool :=
  if claim.id = x then decide (claim.status = .superseded) else before || claim.supersedes.contains x

/-- Whether a batch leaves the claim with this id superseded. -/
def setAside (pending : List Claim) (x : String) : Bool := pending.foldl (aside x) false

/-- The claims that contradict another or are contradicted, by a link that is stored or by one of the batch. -/
def inConflict (job : Job) (s : Store) : List String :=
  (s.edges.filter (fun e => e.2.1 = .contradicts)).flatMap (fun e => [e.1.id, e.2.2.id]) ++
    (job.pending s).flatMap (fun b => if b.contradicts = [] then [] else b.id :: b.contradicts)

/-- The batch supersedes no claim that is in a conflict. -/
def SettlesNone (job : Job) (s : Store) : Prop := ∀ x ∈ inConflict job s, setAside (job.pending s) x = false

instance (job : Job) (s : Store) : Decidable (SettlesNone job s) := by unfold SettlesNone; infer_instance

/-- No claim at either end of a contradiction is superseded. -/
def ConflictsOpen (s : Store) : Prop := ∀ k j, (k, .contradicts, j) ∈ s.edges → ∀ c,
  s.claim? k.id = some c ∨ s.claim? j.id = some c → c.status ≠ .superseded

variable {job : Job} {s : Store} {x : String}

private theorem foldl_aside {q : List Claim} (h : ∀ d ∈ q, d.id ≠ x) (before : Bool) :
    q.foldl (aside x) before = true ↔ before = true ∨ ∃ d ∈ q, x ∈ d.supersedes := by
  induction q generalizing before with
  | nil => simp
  | cons b q ih =>
    rw [List.foldl_cons, ih (fun d hd => h d (List.mem_cons_of_mem _ hd)), aside, if_neg (h b List.mem_cons_self)]
    simp [or_assoc]

theorem setAside_of_absent {q : List Claim} (h : ∀ d ∈ q, d.id ≠ x) :
    setAside q x = true ↔ ∃ d ∈ q, x ∈ d.supersedes := by
  rw [setAside, foldl_aside h]
  simp

/-- What counts is the last claim with the id, and what is written after it. -/
theorem setAside_of_last {p q : List Claim} {b : Claim} (h : ∀ d ∈ q, d.id ≠ b.id) :
    setAside (p ++ b :: q) b.id = true ↔ b.status = .superseded ∨ ∃ d ∈ q, b.id ∈ d.supersedes := by
  rw [setAside, List.foldl_append, List.foldl_cons, foldl_aside h, aside, if_pos rfl, decide_eq_true_eq]

theorem status_touch_iff {ops : List StoreOp} {c : Claim} :
    (touch ops c).status = .superseded ↔ c.status = .superseded ∨ marked ops c.id := by
  unfold touch
  split
  · rename_i hmarked
    exact iff_of_true rfl (Or.inr hmarked)
  · rename_i hnot
    rw [or_iff_left hnot]

/-- After a run a claim is superseded if it was so before, or if the batch leaves it so. -/
theorem superseded_run_iff (hc : OwnerColumns s) {d : Claim} (h : (job.run s).claim? x = some d) : d.status = .superseded ↔
    (∃ c, s.claim? x = some c ∧ c.status = .superseded) ∨ setAside (job.pending s) x = true := by
  cases hstored : s.claim? x with
  | some c =>
    obtain rfl := Option.some.inj (h.symm.trans (job.claim?_run_of_stored hstored))
    have habsent : ∀ b ∈ job.pending s, b.id ≠ x := by
      rintro b hb rfl
      exact absurd (hstored.symm.trans (job.claim?_eq_none_of_mem_pending s hb)) (by simp)
    rw [status_touch_iff, (job.carries_ops s).marked_iff, Store.id_of_claim? hstored, setAside_of_absent habsent]
    simp
  | none =>
    obtain ⟨b, hb, hbx⟩ : ∃ b ∈ job.pending s, b.id = x := by
      rcases job.claim?_run_cases h with ⟨c, hsome, _⟩ | ⟨b, hb, hbx, _⟩
      · exact absurd (hstored.symm.trans hsome) (by simp)
      · exact ⟨b, hb, hbx⟩
    obtain ⟨last, hlast⟩ : ∃ last, ((job.pending s).filter (fun b => b.id = x)).getLast? = some last := by
      rw [← Option.isSome_iff_exists, List.getLast?_isSome]
      exact List.ne_nil_of_mem (List.mem_filter.mpr ⟨hb, by simpa using hbx⟩)
    obtain ⟨p, q, hpq, hid, hq⟩ := Lists.split_of_getLast?_filter hlast
    obtain rfl : last.id = x := by simpa using hid
    have habsent : ∀ d ∈ q, d.id ≠ last.id := fun d hd => by simpa using hq d hd
    obtain ⟨post, hrow, hmarked⟩ := job.claim?_run_of_pending hpq habsent
    obtain rfl := Option.some.inj (h.symm.trans hrow)
    rw [status_touch_iff, hmarked, hpq, setAside_of_last habsent]
    -- No claim supersedes itself.
    have hself : last.id ∉ last.supersedes := fun hin => (job.refers hc hpq (List.mem_append_left _ hin)).1 rfl
    simp [hself]

/-- A claim of the batch has a row in the end, of the batch's owner. -/
theorem row_of_mem_pending {b : Claim} (hb : b ∈ job.pending s) : ∃ d, (job.run s).claim? b.id = some d ∧ d.ownerId = job.ownerId := by
  obtain ⟨d, hd⟩ : ∃ d, (job.run s).claim? b.id = some d :=
    (Store.claim?_isSome_iff _ _).mpr ((mem_keys_execAll _ _ _).mpr (Or.inr ((job.carries_ops s).key_of_mem hb)))
  refine ⟨d, hd, ?_⟩
  rcases job.claim?_run_cases hd with ⟨c, hc, _⟩ | ⟨last, hlast, _, _, post, _, rfl⟩
  · exact absurd (hc.symm.trans (job.claim?_eq_none_of_mem_pending s hb)) (by simp)
  · rw [ownerId_touch, job.owner_of_mem_pending s hlast]

/-- Whatever a batch sets aside is stored in the end. -/
theorem exists_of_setAside (hc : OwnerColumns s) (h : setAside (job.pending s) x = true) : ∃ d, (job.run s).claim? x = some d := by
  by_cases hcopy : ∃ b ∈ job.pending s, b.id = x
  · obtain ⟨b, hb, rfl⟩ := hcopy
    exact (row_of_mem_pending hb).imp (fun _ hd => hd.1)
  · simp only [not_exists, not_and] at hcopy
    obtain ⟨b, hb, hx⟩ := (setAside_of_absent hcopy).mp h
    obtain ⟨p, q, hpq⟩ := List.append_of_mem hb
    rcases (job.refers hc hpq (List.mem_append_left _ hx)).2 with ⟨c, hstored, _⟩ | ⟨d, hd, hid⟩
    · exact ⟨_, job.claim?_run_of_stored hstored⟩
    · exact absurd hid (hcopy d (by rw [hpq]; exact List.mem_append_left _ hd))

theorem contradicts_stored (hc : OwnerColumns s) {b : Claim} (hb : b ∈ job.pending s) (hx : x ∈ b.contradicts) :
    (Store.claimKey b.id, .contradicts, Store.claimKey x) ∈ (job.run s).edges := by
  obtain ⟨p, q, hpq⟩ := List.append_of_mem hb
  refine job.mem_edges_run hpq (r := .contradicts) hx ?_
  rcases (job.refers hc hpq (List.mem_append_right _ hx)).2 with ⟨a, ha, _⟩ | ⟨d, hd, rfl⟩
  · exact Or.inl ((Store.claim?_isSome_iff s x).mp ⟨a, ha⟩)
  · exact Or.inr (Or.inl ⟨d, hd, rfl⟩)

/-- A link that is stored after a run was there before, or a claim of the batch has it. -/
theorem contradicts_run_cases {k j : NodeKey} (h : (k, .contradicts, j) ∈ (job.run s).edges) :
    (k, .contradicts, j) ∈ s.edges ∨ ∃ b ∈ job.pending s, k.id = b.id ∧ j.id ∈ b.contradicts := by
  by_cases hold : (k, .contradicts, j) ∈ s.edges
  · exact Or.inl hold
  · exact Or.inr (((job.carries_ops s).link_mem_iff (by simp) (by simp)).mp (link_of_mem_edges h hold))

theorem mem_inConflict : x ∈ inConflict job s ↔ (∃ k j, (k, .contradicts, j) ∈ s.edges ∧ (k.id = x ∨ j.id = x)) ∨
    ∃ b ∈ job.pending s, b.contradicts ≠ [] ∧ (b.id = x ∨ x ∈ b.contradicts) := by
  have hstored : x ∈ (s.edges.filter (fun e => e.2.1 = .contradicts)).flatMap (fun e => [e.1.id, e.2.2.id]) ↔
      ∃ k j, (k, .contradicts, j) ∈ s.edges ∧ (k.id = x ∨ j.id = x) := by
    simp only [List.mem_flatMap, List.mem_filter, decide_eq_true_eq, List.mem_cons, List.not_mem_nil, or_false]
    constructor
    · rintro ⟨⟨k, r, j⟩, ⟨he, rfl⟩, rfl | rfl⟩
      · exact ⟨k, j, he, Or.inl rfl⟩
      · exact ⟨k, j, he, Or.inr rfl⟩
    · rintro ⟨k, j, he, hends⟩
      exact ⟨(k, .contradicts, j), ⟨he, rfl⟩, hends.imp Eq.symm Eq.symm⟩
  rw [inConflict, List.mem_append, hstored, List.mem_flatMap]
  refine or_congr_right (exists_congr (fun b => and_congr_right (fun _ => ?_)))
  by_cases hnone : b.contradicts = []
  · simp [hnone]
  · rw [if_neg hnone, List.mem_cons, eq_comm]
    exact (and_iff_right hnone).symm

/-- The conflicts of a batch and of the store before it are those of the store after it. -/
theorem mem_inConflict_iff (hc : OwnerColumns s) :
    x ∈ inConflict job s ↔ ∃ k j, (k, .contradicts, j) ∈ (job.run s).edges ∧ (k.id = x ∨ j.id = x) := by
  rw [mem_inConflict]
  constructor
  · rintro (⟨k, j, he, hends⟩ | ⟨b, hb, hsome, hends⟩)
    · exact ⟨k, j, job.edges_run_mono he, hends⟩
    · rcases hends with rfl | hx
      · obtain ⟨y, hy⟩ := List.exists_mem_of_ne_nil _ hsome
        exact ⟨_, _, contradicts_stored hc hb hy, Or.inl rfl⟩
      · exact ⟨_, _, contradicts_stored hc hb hx, Or.inr rfl⟩
  · rintro ⟨k, j, he, hends⟩
    rcases contradicts_run_cases he with hold | ⟨b, hb, hk, hj⟩
    · exact Or.inl ⟨k, j, hold, hends⟩
    · refine Or.inr ⟨b, hb, List.ne_nil_of_mem hj, ?_⟩
      rcases hends with rfl | rfl
      · exact Or.inl hk.symm
      · exact Or.inr hj

/-- What the batch contradicts was not superseded when it was stored. -/
theorem not_superseded_of_contradicts (hc : OwnerColumns s) {b c : Claim} (hb : b ∈ job.pending s) (hx : x ∈ b.contradicts)
    (hstored : s.claim? x = some c) : c.status ≠ .superseded := by
  obtain ⟨p, q, hpq⟩ := List.append_of_mem hb
  obtain ⟨o, rfl, hactive, ⟨r, hr, _, ho⟩ | ⟨d, hd, hbare⟩⟩ := pending_contradicts (job.answers s).raw_asked hpq hx
  · rw [(job.mem_asked s hr).2] at ho
    obtain ⟨hsome, _⟩ := (Store.mem_claimsAbout hc _ _ _).mp ((job.rows.perm _).mem_iff.mp ho)
    obtain rfl := Option.some.inj (hstored.symm.trans hsome)
    simp [hactive]
  · have hmem : d ∈ job.pending s := by
      rw [hpq]
      exact List.mem_append_left _ hd
    have hnone := job.claim?_eq_none_of_mem_pending s hmem
    rw [eq_of_bare Claim.id (fun _ => rfl) hbare] at hnone
    exact absurd (hstored.symm.trans hnone) (by simp)

/-- A run leaves every conflict open exactly if its batch supersedes none of the claims in one. -/
theorem ConflictsOpen.run_iff (hs : Sound s) (h : ConflictsOpen s) : ConflictsOpen (job.run s) ↔ SettlesNone job s := by
  constructor
  · intro hopen x hx
    rw [Bool.eq_false_iff]
    intro haside
    obtain ⟨d, hd⟩ := exists_of_setAside hs.columns haside
    obtain ⟨k, j, he, hends⟩ := (mem_inConflict_iff hs.columns).mp hx
    refine hopen k j he d ?_ ((superseded_run_iff hs.columns hd).mpr (Or.inr haside))
    rcases hends with rfl | rfl
    · exact Or.inl hd
    · exact Or.inr hd
  · intro hnone k j he d hd hsuperseded
    obtain ⟨x, hends, hx⟩ : ∃ x, (k.id = x ∨ j.id = x) ∧ (job.run s).claim? x = some d := by
      rcases hd with hd | hd
      · exact ⟨_, Or.inl rfl, hd⟩
      · exact ⟨_, Or.inr rfl, hd⟩
    have haside := hnone x ((mem_inConflict_iff hs.columns).mpr ⟨k, j, he, hends⟩)
    rcases (superseded_run_iff hs.columns hx).mp hsuperseded with ⟨c, hc, hwas⟩ | hset
    · -- It was superseded before, so the conflict is a new one.
      rcases contradicts_run_cases he with hold | ⟨b, hb, hk, hj⟩
      · refine h k j hold c ?_ hwas
        rcases hends with rfl | rfl
        · exact Or.inl hc
        · exact Or.inr hc
      · rcases hends with rfl | rfl
        · rw [hk, job.claim?_eq_none_of_mem_pending s hb] at hc
          exact absurd hc (by simp)
        · exact not_superseded_of_contradicts hs.columns hb hj hc hwas
    · rw [haside] at hset
      exact absurd hset (by simp)

/-- A contradiction links two stored claims of one owner. -/
def ConflictEnds (s : Store) : Prop := ∀ k j, (k, .contradicts, j) ∈ s.edges → ∃ a b, s.claim? a.id = some a ∧
  s.claim? b.id = some b ∧ k = Store.claimKey a.id ∧ j = Store.claimKey b.id ∧ a.ownerId = b.ownerId

theorem ConflictEnds.run (hs : Sound s) (h : ConflictEnds s) (job : Job) : ConflictEnds (job.run s) := by
  intro k j he
  rcases contradicts_run_cases he with hold | ⟨b, hb, hk, hj⟩
  · obtain ⟨a, c, ha, hc, rfl, rfl, howner⟩ := h k j hold
    refine ⟨touch (job.ops s) a, touch (job.ops s) c, ?_, ?_, by rw [id_touch], by rw [id_touch], ?_⟩
    · rw [id_touch]
      exact job.claim?_run_of_stored ha
    · rw [id_touch]
      exact job.claim?_run_of_stored hc
    · rw [ownerId_touch, ownerId_touch, howner]
  · obtain ⟨a, ha, hao⟩ := row_of_mem_pending hb
    obtain ⟨c, hc, hco⟩ : ∃ c, (job.run s).claim? j.id = some c ∧ c.ownerId = job.ownerId := by
      obtain ⟨p, q, hpq⟩ := List.append_of_mem hb
      rcases (job.refers hs.columns hpq (List.mem_append_right _ hj)).2 with ⟨o, ho, hoo⟩ | ⟨d, hd, hid⟩
      · exact ⟨_, job.claim?_run_of_stored ho, by rw [ownerId_touch, hoo]⟩
      · rw [← hid]
        exact row_of_mem_pending (by rw [hpq]; exact List.mem_append_left _ hd)
    have haid : a.id = b.id := Store.id_of_claim? ha
    have hcid : c.id = j.id := Store.id_of_claim? hc
    obtain ⟨hkin, hjin⟩ := (job.run s).joined _ he
    have hakey := (Store.claim?_isSome_iff _ b.id).mp ⟨a, ha⟩
    have hckey := (Store.claim?_isSome_iff _ j.id).mp ⟨c, hc⟩
    refine ⟨a, c, haid ▸ ha, hcid ▸ hc, ?_, ?_, hao.trans hco.symm⟩
    · rw [haid]
      exact (hs.run job).tagged.eq_of_id hkin hakey hk
    · rw [hcid]
      exact (hs.run job).tagged.eq_of_id hjin hckey rfl

/-- No claim is reconciled. -/
def NoneReconciled (s : Store) : Prop := ∀ x c, s.claim? x = some c → c.status ≠ .reconciled

theorem status_touch_ne_reconciled {ops : List StoreOp} {c : Claim} (h : c.status ≠ .reconciled) :
    (touch ops c).status ≠ .reconciled := by
  unfold touch
  split
  · simp
  · exact h

theorem NoneReconciled.run (h : NoneReconciled s) (job : Job) : NoneReconciled (job.run s) := by
  intro x d hd
  rcases job.claim?_run_cases hd with ⟨c, hc, rfl⟩ | ⟨b, hb, _, _, post, _, rfl⟩
  · exact status_touch_ne_reconciled (h x c hc)
  · exact status_touch_ne_reconciled (pending_not_reconciled (job.answers s).raw_asked hb)

end Run

theorem noneReconciled_runAll (jobs : List Job) : NoneReconciled (runAll jobs PropertyGraph.empty) := by
  have hempty : NoneReconciled PropertyGraph.empty := fun x c h => absurd h (by simp [Store.claim?])
  exact (runAll_invariant (fun job _ _ h => h.run job) Sound.empty hempty jobs).2

theorem conflictEnds_runAll (jobs : List Job) : ConflictEnds (runAll jobs PropertyGraph.empty) :=
  (runAll_invariant (fun job _ hs h => h.run hs job) Sound.empty (fun _ _ he => absurd he List.not_mem_nil) jobs).2

/-- After every number of runs all conflicts are open exactly if no batch supersedes a claim in one. -/
theorem conflicts_open_iff (jobs : List Job) : (∀ n, ConflictsOpen (runAll (jobs.take n) PropertyGraph.empty)) ↔
    EveryRun SettlesNone jobs PropertyGraph.empty :=
  EveryRun.prefixes_iff (fun _ _ hs h => h.run_iff hs) Sound.empty (fun _ _ he => absurd he List.not_mem_nil) jobs

end Memorai.Ingestion
