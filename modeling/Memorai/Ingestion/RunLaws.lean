import Memorai.Ingestion.WriteLaws
import Memorai.Resolution.PendingLaws

/-! One complete run seen from the store: which row each claim has afterwards, and which edges
its new claims have. -/
namespace Memorai.Ingestion
open Schema Memorai.Graph Storage Extraction Resolver

/-- Writing a claim links it to every node it names that is there by then, itself included. -/
theorem mem_edges_claimOps_iff {s : Store} {claim : Claim} {q : Rel} {j : NodeKey} :
    (Store.claimKey claim.id, q, j) ∈ (execAll (claimOps claim) s).edges ↔
      (Store.claimKey claim.id, q, j) ∈ s.edges ∨ j.id ∈ linked claim q ∧ (j = Store.claimKey claim.id ∨ j ∈ s.keys) := by
  constructor
  · intro he
    by_cases hs : (Store.claimKey claim.id, q, j) ∈ s.edges
    · exact Or.inl hs
    · refine Or.inr ⟨((link_mem_claimOps _ _ _ _).mp (link_of_mem_edges he hs)).2, ?_⟩
      rcases (mem_keys_execAll _ _ _).mp ((execAll (claimOps claim) s).joined _ he).2 with hj | ⟨op, hop, hk⟩
      · exact Or.inr hj
      · rw [claimOps_eq] at hop
        rcases List.mem_cons.mp hop with rfl | hop
        · exact Or.inl (Option.some.inj hk).symm
        · rcases mem_claimTail_cases hop with ⟨r, t, rfl⟩ | ⟨y, st, rfl⟩
          · exact absurd hk (by simp [StoreOp.key?])
          · exact absurd hk (by simp [StoreOp.key?])
  · intro he
    rcases he with he | ⟨hl, hj⟩
    · exact edges_execAll_mono he
    · have hmem : .link claim.id q j.id ∈ claimOps claim := (link_mem_claimOps _ _ _ _).mpr ⟨rfl, hl⟩
      rw [claimOps_eq] at hmem ⊢
      obtain ⟨pre, post, htail⟩ := List.append_of_mem ((List.mem_cons.mp hmem).resolve_left (by simp))
      refine (mem_edges_execAll _ _ _ _ _).mpr (Or.inr ⟨_ :: pre, post, by rw [htail]; rfl, ?_, ?_⟩)
      · exact (mem_keys_execAll _ _ _).mpr (Or.inr ⟨_, List.mem_cons_self, rfl⟩)
      · rcases hj with rfl | hj
        · exact (mem_keys_execAll _ _ _).mpr (Or.inr ⟨_, List.mem_cons_self, rfl⟩)
        · exact (mem_keys_execAll _ _ _).mpr (Or.inl hj)

theorem mem_edges_claimOps {s : Store} {claim : Claim} {q : Rel} {j : NodeKey} (hj : j ∈ s.keys)
    (hl : j.id ∈ linked claim q) : (Store.claimKey claim.id, q, j) ∈ (execAll (claimOps claim) s).edges :=
  mem_edges_claimOps_iff.mpr (Or.inr ⟨hl, Or.inr hj⟩)

theorem bare_touch (ops : List StoreOp) (c : Claim) : bare (touch ops c) = bare c := by
  unfold touch
  split <;> rfl

namespace Job
variable (job : Job) {store : Store}

theorem raw_claims : ∀ c ∈ job.claims, Raw c := by
  intro c hc
  obtain ⟨m, hm, hc⟩ := List.mem_flatMap.mp hc
  obtain ⟨p, hp, rfl⟩ := List.mem_map.mp hm
  have h := job.contract p hp c hc
  exact ⟨h.status, h.supersedes, h.contradicts⟩

/-- Whom a pending claim supersedes or contradicts: a stored claim of the owner, or one ahead of it. -/
theorem refers (hc : OwnerColumns store) {p t : List Claim} {b : Claim} {x : String}
    (hb : job.pending store = p ++ b :: t) (hx : x ∈ b.supersedes ++ b.contradicts) :
    x ≠ b.id ∧ ((∃ a, store.claim? x = some a ∧ a.ownerId = job.ownerId) ∨ ∃ d ∈ p, d.id = x) := by
  obtain ⟨hne, h⟩ := pending_refers (job.answers store).raw_asked hb hx
  refine ⟨hne, h.imp ?_ id⟩
  intro ⟨q, hq, _, a, ha, hid⟩
  rw [(job.mem_asked store hq).2] at ha
  obtain ⟨hs, hown, _⟩ := (Store.mem_claimsAbout hc _ _ _).mp ((job.rows.perm _).mem_iff.mp ha)
  exact ⟨a, hid ▸ hs, hown⟩

/-- A pending claim that is still active supersedes every live rival stored about its subjects, and all of these are earlier. -/
theorem supersedes_stored {b a : Claim} (hb : b ∈ job.pending store) (hba : b.status = .active)
    (ha : a ∈ storedAbout job.rows store job.ownerId b) (hr : Rival b a) : a.assertedAtMs < b.assertedAtMs ∧ a.id ∈ b.supersedes := by
  obtain ⟨q, hq, _, hbare, hall⟩ := pending_supersedes_stored hb hba
  have hsub : b.subjectEntityIds = q.claim.subjectEntityIds := eq_of_bare _ (fun _ => rfl) hbare
  refine hall a ?_ hr
  rw [(job.mem_asked store hq).2]
  simp only [ask, storedAbout, ← hsub]
  exact ha

/-- The row a claim has after the run: the old one with its status set at most, or the last
pending copy written. -/
theorem claim?_run_cases {x : String} {d : Claim} (h : (job.run store).claim? x = some d) :
    (∃ c, store.claim? x = some c ∧ d = touch (job.ops store) c) ∨
    ∃ b ∈ job.pending store, b.id = x ∧ ∃ pre post, job.ops store = pre ++ post ∧ d = touch post b := by
  rcases claim?_execAll_cases (job.carries_ops store).onlySupersedes h with ⟨c, hc, hd, _⟩ | ⟨pre, b, t, post, hops, hx, hd, _⟩
  · exact Or.inl ⟨c, hc, hd⟩
  · have hb : b ∈ job.pending store := by
      refine (job.carries_ops store).mem_of_claim? ?_ (rfl : StoreOp.claim? (.upsert (.claim b) t) = some b)
      rw [hops]
      simp
    exact Or.inr ⟨b, hb, hx, pre ++ [.upsert (.claim b) t], post, by simpa using hops, hd⟩

/-- A claim that is active after the run is as it was written: a stored one that no statement marks, or a pending one. -/
theorem claim?_run_active {x : String} {d : Claim} (h : (job.run store).claim? x = some d) (hd : d.status = .active) :
    (store.claim? x = some d ∧ ¬ marked (job.ops store) d.id) ∨ d ∈ job.pending store := by
  rcases claim?_execAll_active (job.carries_ops store).onlySupersedes h hd with ⟨hc, _, hnm⟩ | ⟨pre, t, post, hops, _⟩
  · exact Or.inl ⟨hc, hnm⟩
  · refine Or.inr ((job.carries_ops store).mem_of_claim? ?_ (rfl : StoreOp.claim? (.upsert (.claim d) t) = some d))
    rw [hops]
    simp

/-- A stored claim is never written whole again. -/
theorem claim?_run_of_stored {x : String} {c : Claim} (h : store.claim? x = some c) :
    (job.run store).claim? x = some (touch (job.ops store) c) := by
  have hn : ∀ op ∈ job.ops store, ∀ b, op.claim? = some b → b.id ≠ x := by
    intro op hop b hb he
    have hnone := job.claim?_eq_none_of_mem_pending store ((job.carries_ops store).mem_of_claim? hop hb)
    rw [he, h] at hnone
    exact absurd hnone (by simp)
  rw [run, claim?_execAll ((job.carries_ops store).onlySupersedes) hn, h, Option.map_some]

/-- The row of a pending claim whose id no later one repeats: what is written after it can only
set its status. -/
theorem claim?_run_of_pending {p q : List Claim} {b : Claim} (h : job.pending store = p ++ b :: q)
    (hq : ∀ d ∈ q, d.id ≠ b.id) :
    ∃ post, (job.run store).claim? b.id = some (touch post b) ∧
      ∀ x, marked post x ↔ ∃ d ∈ b :: q, x ∈ d.supersedes := by
  obtain ⟨pre, post, hops, _, hpost, _⟩ := job.ops_split store h
  have hcar : Carries (claimOps b ++ post) (b :: q) := (Carries.single b).append hpost
  refine ⟨claimTail b ++ post, ?_, fun x => ?_⟩
  · have hs : OnlySupersedes (claimTail b ++ post) := by
      intro y st hm
      refine hcar.onlySupersedes y st ?_
      rw [claimOps_eq]
      exact List.mem_cons_of_mem _ hm
    rw [run, hops, claimOps_eq, List.append_assoc, List.cons_append]
    refine claim?_execAll_split hs (fun op hop d hd => ?_)
    rcases List.mem_append.mp hop with hop | hop
    · exact absurd hd (by rw [claim?_of_mem_claimTail hop]; simp)
    · exact hq d (hpost.mem_of_claim? hop hd)
  · rw [← hcar.marked_iff, claimOps_eq]
    simp [marked]

theorem edges_run_mono {e : NodeKey × Rel × NodeKey} (h : e ∈ store.edges) : e ∈ (job.run store).edges :=
  edges_execAll_mono h

/-- A pending claim gets its edge to whatever is stored by the time it is written. -/
theorem mem_edges_run {p q : List Claim} {b : Claim} (h : job.pending store = p ++ b :: q) {r : Rel} {j : NodeKey}
    (hl : j.id ∈ linked b r)
    (hj : j ∈ store.keys ∨ (∃ d ∈ p, j = Store.claimKey d.id) ∨
      ∃ x ∈ b.subjectEntityIds ++ parties b, j = Store.entityKey x) :
    (Store.claimKey b.id, r, j) ∈ (job.run store).edges := by
  obtain ⟨pre, post, hops, hpre, _, hent⟩ := job.ops_split store h
  have hkey : j ∈ (execAll pre store).keys := by
    rw [mem_keys_execAll]
    rcases hj with hj | ⟨d, hd, rfl⟩ | ⟨x, hx, rfl⟩
    · exact Or.inl hj
    · exact Or.inr (hpre.key_of_mem hd)
    · exact Or.inr (hent x hx)
  rw [run, hops, execAll_append, execAll_append]
  exact edges_execAll_mono (mem_edges_claimOps hkey hl)

/-- Edges a claim has after a run: those it had, and those of pending claims with its id. -/
theorem linked_of_mem_edges_run {x : String} {r : Rel} {j : NodeKey} (hm : r ≠ .mentions) (hc : r ≠ .cites)
    (h : (Store.claimKey x, r, j) ∈ (job.run store).edges) :
    (Store.claimKey x, r, j) ∈ store.edges ∨ ∃ b ∈ job.pending store, b.id = x ∧ j.id ∈ linked b r := by
  by_cases hs : (Store.claimKey x, r, j) ∈ store.edges
  · exact Or.inl hs
  · obtain ⟨b, hb, hx, hl⟩ := ((job.carries_ops store).link_mem_iff hm hc).mp (link_of_mem_edges h hs)
    exact Or.inr ⟨b, hb, hx.symm, hl⟩

end Job

/-- What no statement of a run breaks: the owner columns, and ids that tell their kind. -/
structure Keyed (s : Store) : Prop where
  columns : OwnerColumns s
  tagged : TaggedKeys s

theorem Keyed.empty : Keyed PropertyGraph.empty := ⟨OwnerColumns.empty, fun _ h => absurd h List.not_mem_nil⟩

/-- Any of the statements of a run may have been sent. -/
theorem Keyed.execAll {s t : Store} (h : Keyed s) {job : Job} {ops : List StoreOp} (hops : ∀ op ∈ ops, op ∈ job.ops t) :
    Keyed (execAll ops s) := by
  refine ⟨h.columns.execAll ops, fun k hk => ?_⟩
  rcases (mem_keys_execAll _ _ _).mp hk with hk | ⟨op, hop, hk⟩
  · exact h.tagged k hk
  · exact job.tagged_of_key? t (hops op hop) hk

theorem Keyed.run {s : Store} (h : Keyed s) (job : Job) : Keyed (job.run s) := h.execAll (fun _ hop => hop)

theorem Keyed.runAll {s : Store} (h : Keyed s) (jobs : List Job) : Keyed (runAll jobs s) := by
  induction jobs generalizing s with
  | nil => exact h
  | cons job jobs ih => exact ih (h.run job)

/-- What every run relies on: the owner columns, ids that tell their kind, and an edge to each subject
of a stored claim. -/
structure Sound (s : Store) : Prop where
  columns : OwnerColumns s
  tagged : TaggedKeys s
  about : ∀ x c, s.claim? x = some c → ∀ e ∈ c.subjectEntityIds,
    (Store.claimKey x, .about, Store.entityKey e) ∈ s.edges

theorem Sound.empty : Sound PropertyGraph.empty :=
  ⟨OwnerColumns.empty, fun _ h => absurd h List.not_mem_nil, fun x c h => absurd h (by simp [Store.claim?])⟩

theorem Sound.keyed {s : Store} (h : Sound s) : Keyed s := ⟨h.columns, h.tagged⟩

theorem Sound.run {store : Store} (h : Sound store) (job : Job) : Sound (job.run store) := by
  obtain ⟨hcolumns, htagged⟩ := h.keyed.run job
  refine ⟨hcolumns, htagged, fun x c hc e he => ?_⟩
  rcases job.claim?_run_cases hc with ⟨d, hd, rfl⟩ | ⟨b, hb, rfl, _, post, _, rfl⟩
  · rw [subjectEntityIds_touch] at he
    exact job.edges_run_mono (h.about x d hd e he)
  · rw [subjectEntityIds_touch] at he
    obtain ⟨p, q, hpq⟩ := List.append_of_mem hb
    exact job.mem_edges_run hpq (r := .about) he (Or.inr (Or.inr ⟨e, List.mem_append_left _ he, rfl⟩))

theorem Job.tagged_claim (job : Job) {c : Claim} (hc : c ∈ job.claims) : Tagged (Store.claimKey c.id) := by
  obtain ⟨m, hm, hc⟩ := List.mem_flatMap.mp hc
  obtain ⟨p, hp, rfl⟩ := List.mem_map.mp hm
  exact (job.typed p hp).claims c hc

/-- In a sound store a claim is a duplicate only of a stored claim. -/
theorem Sound.fresh_iff {s : Store} (h : Sound s) (job : Job) {c : Claim} (hc : c ∈ job.claims) :
    Job.fresh s c ↔ s.claim? c.id = none := h.tagged.get_isNone_iff (job.tagged_claim hc)

theorem runAll_concat (jobs : List Job) (job : Job) (s : Store) : runAll (jobs ++ [job]) s = job.run (runAll jobs s) := by
  simp [runAll]

/-- What holds of the empty store and is kept by every run holds after any runs. -/
theorem runAll_invariant {P : Store → Prop} (hrun : ∀ (job : Job) s, Sound s → P s → P (job.run s)) {s : Store}
    (hs : Sound s) (h : P s) (jobs : List Job) : Sound (runAll jobs s) ∧ P (runAll jobs s) := by
  induction jobs generalizing s with
  | nil => exact ⟨hs, h⟩
  | cons job jobs ih => exact ih (hs.run job) (hrun job s hs h)

/-- The claims a new one is compared with in a sound store: those of its owner that share a subject. -/
theorem Sound.mem_storedAbout {s : Store} (h : Sound s) {rows : RowOrder Claim} {ownerId : String} {b a : Claim}
    (ha : s.claim? a.id = some a) (ho : a.ownerId = ownerId)
    (hsub : ∃ e ∈ b.subjectEntityIds, e ∈ a.subjectEntityIds) : a ∈ storedAbout rows s ownerId b := by
  obtain ⟨e, heb, hea⟩ := hsub
  refine (rows.perm _).mem_iff.mpr ((Store.mem_claimsAbout h.columns _ _ _).mpr ⟨ha, ho, e, heb, ?_⟩)
  exact h.about a.id a ha e hea

end Memorai.Ingestion
