import Memorai.Ingestion.Ahead

/-! Ingesting a backfill in one run or in several. Both leave the same claims, as long as every
claim meets in the store the live rivals it would have met in the batch. -/
namespace Memorai.Ingestion
open Schema Memorai.Graph Storage Extraction Resolver

/-- `pieces` ingest the records of `whole` one after the other, for the same owner. -/
structure Cut (whole : Job) (pieces : List Job) : Prop where
  owner : ∀ job ∈ pieces, job.ownerId = whole.ownerId
  extracted : pieces.flatMap Job.extracted = whole.extracted

/-- Settling the pieces in one batch on `s`, every claim is steady when its turn comes: it would meet the
same rivals if the pieces before its own were stored. `before` are the claims of these. -/
def SteadyCut (rows : RowOrder Claim) (s : Store) (ownerId : String) (before : List Claim) : List Job → Prop
  | [] => True
  | job :: jobs =>
    EveryTurn (Steady before []) before (job.claims.map (ask rows s ownerId)) ∧
      SteadyCut rows s ownerId (settleAll before (job.claims.map (ask rows s ownerId))) jobs

instance decidableSteadyCut (rows : RowOrder Claim) (s : Store) (ownerId : String) (before : List Claim)
    (jobs : List Job) : Decidable (SteadyCut rows s ownerId before jobs) :=
  match jobs with
  | [] => isTrue trivial
  | job :: jobs =>
    have := decidableSteadyCut rows s ownerId (settleAll before (job.claims.map (ask rows s ownerId))) jobs
    inferInstanceAs (Decidable (EveryTurn _ _ _ ∧ _))

/-- The same claims with the same status and lists, and the same edges between claims. -/
structure SameClaims (s s' : Store) : Prop where
  claims : ∀ x, Option.Rel (Alike bare) (s.claim? x) (s'.claim? x)
  supersedes : ∀ k j, (k, Rel.supersedes, j) ∈ s.edges ↔ (k, Rel.supersedes, j) ∈ s'.edges
  contradicts : ∀ k j, (k, Rel.contradicts, j) ∈ s.edges ↔ (k, Rel.contradicts, j) ∈ s'.edges

/-- Stores over which the same claims are laid hold the same claims. -/
theorem Layered.alike {β : Type} {view : Claim → β} {s s₁ s₂ : Store} {cs : List Claim} (h₁ : Layered view s s₁ cs)
    (h₂ : Layered view s s₂ cs) (x : String) : Option.Rel (Alike view) (s₁.claim? x) (s₂.claim? x) := by
  have hx₁ := h₁.claims x
  have hx₂ := h₂.claims x
  cases he : (entry s cs x).map (mark cs) with
  | none =>
    rw [he] at hx₁ hx₂
    cases h : s₁.claim? x with
    | none =>
      cases h' : s₂.claim? x with
      | none => exact .none
      | some _ => rw [h'] at hx₂; cases hx₂
    | some _ => rw [h] at hx₁; cases hx₁
  | some c =>
    rw [he] at hx₁ hx₂
    cases h : s₁.claim? x with
    | none => rw [h] at hx₁; cases hx₁
    | some a =>
      cases h' : s₂.claim? x with
      | none => rw [h'] at hx₂; cases hx₂
      | some b =>
        rw [h] at hx₁
        rw [h'] at hx₂
        cases hx₁ with
        | some ha =>
          cases hx₂ with
          | some hb => exact .some (ha.symm.trans hb)

theorem Layered.edges_iff {β : Type} {view : Claim → β} {s s₁ s₂ : Store} {cs : List Claim} (h₁ : Layered view s s₁ cs)
    (h₂ : Layered view s s₂ cs) {r : Rel} (hm : r ≠ .mentions) (hc : r ≠ .cites) (k j : NodeKey) :
    (k, r, j) ∈ s₁.edges ↔ (k, r, j) ∈ s₂.edges := (h₁.edges k r j hm hc).trans (h₂.edges k r j hm hc).symm

theorem Job.pending_eq (job : Job) (s : Store) :
    job.pending s = settleAll [] (job.claims.map (ask job.rows s job.ownerId)) := by
  rw [pending, Answers.pending, asked_answers]

section
variable {s : Store} {whole : Job}

theorem Cut.claims {pieces : List Job} (h : Cut whole pieces) : whole.claims = pieces.flatMap Job.claims := by
  rw [Job.claims, Job.candidates, ← h.extracted, List.map_flatMap, List.flatMap_assoc]
  rfl

/-- One more piece lays over the store what it would have added to the batch. -/
private theorem layered_piece (hs : Keyed s) (hids : (whole.claims.map Claim.id).Nodup) {s' : Store} (hs' : Keyed s')
    {done rest : List Claim} {job : Job} (howner : job.ownerId = whole.ownerId)
    (hsplit : whole.claims = done ++ (job.claims ++ rest))
    (hl : Layered bare s s' (settleAll [] (done.map (ask whole.rows s whole.ownerId))))
    (hsteady : EveryTurn (Steady (settleAll [] (done.map (ask whole.rows s whole.ownerId))) [])
      (settleAll [] (done.map (ask whole.rows s whole.ownerId))) (job.claims.map (ask whole.rows s whole.ownerId))) :
    Layered bare s (job.run s') (settleAll [] ((done ++ job.claims).map (ask whole.rows s whole.ownerId))) := by
  have hdw : DistinctFresh whole s := hids.sublist (List.filter_sublist.map _)
  have hnd := hids
  rw [hsplit, List.map_append, List.map_append] at hnd
  have hdj : DistinctFresh job s' :=
    (List.nodup_append.mp (List.nodup_append.mp hnd).2.1).1.sublist (List.filter_sublist.map _)
  have ha : Ahead s whole.ownerId (settleAll [] (done.map (ask whole.rows s whole.ownerId))) := ahead_of_asked hs hdw hsplit
  have hnew : ∀ c ∈ job.claims, s.claim? c.id = none →
      ∀ p ∈ settleAll [] (done.map (ask whole.rows s whole.ownerId)), p.id ≠ c.id := by
    intro c hc hn p hp
    have hf : Job.fresh s c := (hs.tagged.get_isNone_iff (job.tagged_claim hc)).mpr hn
    exact ne_of_asked hdw hsplit (List.mem_append_left _ hc) hf hp
  have hcounter : List.Forall₂ (Counterpart bare (settleAll [] (done.map (ask whole.rows s whole.ownerId))) [])
      (job.claims.map (ask whole.rows s whole.ownerId)) (job.claims.map (ask job.rows s' job.ownerId)) := by
    rw [List.forall₂_map_left_iff, List.forall₂_map_right_iff, List.forall₂_same]
    intro c hc
    have hraw := (mem_claims hc).2
    rw [howner]
    refine counterpart_of_layered telling_bare hs hs' ha ?_ rfl hraw hraw (job.tagged_claim hc) (fun p hp hn => hnew c hc hn p hp)
    rwa [map_mark_nil]
  obtain ⟨own, hall, halike⟩ := settleAll_alike_afresh telling_bare ha.ids hcounter hsteady
  rw [← settleAll_append, ← List.map_append] at hall
  rw [hall]
  refine Layered.marked (Layered.congr telling_bare ?_ (hl.trans telling_bare (job.layered_run telling_bare hs' hdj)))
  rw [job.pending_eq]
  exact List.rel_append (List.forall₂_same.mpr (fun c _ => .refl bare c)) halike

private theorem layered_pieces (hs : Keyed s) (hids : (whole.claims.map Claim.id).Nodup) {pieces : List Job}
    (howner : ∀ job ∈ pieces, job.ownerId = whole.ownerId) {s' : Store} (hs' : Keyed s') {done : List Claim}
    (hsplit : whole.claims = done ++ pieces.flatMap Job.claims)
    (hl : Layered bare s s' (settleAll [] (done.map (ask whole.rows s whole.ownerId))))
    (hsteady : SteadyCut whole.rows s whole.ownerId (settleAll [] (done.map (ask whole.rows s whole.ownerId))) pieces) :
    Layered bare s (runAll pieces s') (whole.pending s) := by
  induction pieces generalizing s' done with
  | nil =>
    rw [List.flatMap_nil, List.append_nil] at hsplit
    rw [whole.pending_eq, hsplit]
    exact hl
  | cons job jobs ih =>
    rw [List.flatMap_cons] at hsplit
    have hj := howner job List.mem_cons_self
    have hstep := layered_piece hs hids hs' hj hsplit hl hsteady.1
    have hrest := hsteady.2
    rw [← settleAll_append, ← List.map_append] at hrest
    exact ih (fun k hk => howner k (List.mem_cons_of_mem _ hk)) (hs'.run job) (by rw [hsplit, List.append_assoc]) hstep hrest

end

/-- Ingested at once or piece by piece, a batch leaves the same claims, if no claim of it would meet
other rivals for the pieces before its own being stored. -/
theorem split_same_claims (earlier : List Job) (whole : Job) (pieces : List Job) (hcut : Cut whole pieces)
    (hids : (whole.claims.map Claim.id).Nodup)
    (hsteady : SteadyCut whole.rows (runAll earlier PropertyGraph.empty) whole.ownerId [] pieces) :
    SameClaims (whole.run (runAll earlier PropertyGraph.empty)) (runAll pieces (runAll earlier PropertyGraph.empty)) := by
  have hs : Keyed (runAll earlier PropertyGraph.empty) := Keyed.empty.runAll earlier
  have hd : DistinctFresh whole (runAll earlier PropertyGraph.empty) := hids.sublist (List.filter_sublist.map _)
  have hwhole := whole.layered_run telling_bare hs hd
  have hfirst : whole.claims = [] ++ pieces.flatMap Job.claims := hcut.claims
  have hpieces := layered_pieces hs hids hcut.owner hs hfirst (.refl bare _) hsteady
  exact ⟨hwhole.alike hpieces, hwhole.edges_iff hpieces (by simp) (by simp), hwhole.edges_iff hpieces (by simp) (by simp)⟩

def toMysql : Job := .ofNotes "Atlas" [("r3", 3, ["project Atlas will use MySQL."])]

/-- Two notes of a backfill, ingested in one run. -/
def backfill : Job :=
  .ofNotes "Atlas" [("r2", 2, ["project Atlas will use Postgres."]), ("r3", 3, ["project Atlas will use MySQL."])]

theorem split_same_claims_backfill :
    Cut backfill [toPostgres, toMysql] ∧ (backfill.claims.map Claim.id).Nodup ∧
      SteadyCut backfill.rows (runAll [] PropertyGraph.empty) backfill.ownerId [] [toPostgres, toMysql] ∧
      SameClaims (backfill.run (runAll [] PropertyGraph.empty)) (runAll [toPostgres, toMysql] (runAll [] PropertyGraph.empty)) := by
  have hcut : Cut backfill [toPostgres, toMysql] := ⟨by decide, rfl⟩
  have hids : (backfill.claims.map Claim.id).Nodup := by decide +kernel
  have hsteady : SteadyCut backfill.rows (runAll [] PropertyGraph.empty) backfill.ownerId [] [toPostgres, toMysql] := by
    decide +kernel
  exact ⟨hcut, hids, hsteady, split_same_claims [] backfill [toPostgres, toMysql] hcut hids hsteady⟩

/-- With an older claim stored, the second claim of the backfill reads it back as still live and supersedes
it a second time. Ingested in two runs it does not. -/
theorem backfill_supersedes_twice :
    Cut backfill [toPostgres, toMysql] ∧ (backfill.claims.map Claim.id).Nodup ∧
      ¬ SameClaims (backfill.run (runAll [toRedis] PropertyGraph.empty))
        (runAll [toPostgres, toMysql] (runAll [toRedis] PropertyGraph.empty)) := by
  refine ⟨⟨by decide, rfl⟩, by decide +kernel, fun h => ?_⟩
  have hin : (Store.claimKey (soleClaim toMysql).id, Rel.supersedes, Store.claimKey (soleClaim toRedis).id) ∈
      (backfill.run (runAll [toRedis] PropertyGraph.empty)).edges := by decide +kernel
  have hout : (Store.claimKey (soleClaim toMysql).id, Rel.supersedes, Store.claimKey (soleClaim toRedis).id) ∉
      (runAll [toPostgres, toMysql] (runAll [toRedis] PropertyGraph.empty)).edges := by decide +kernel
  exact hout ((h.supersedes _ _).mp hin)

end Memorai.Ingestion
