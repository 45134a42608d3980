import Memorai.Ingestion.LiveVersions
import Memorai.Ingestion.Links
import Memorai.Storage.Commitments

/-! Obligations that are stated more than once. Resolution sees no conflict between equal contents, and keeps both. -/
namespace Memorai.Ingestion
open Schema Memorai.Graph Storage Extraction Resolver

/-- A commitment that nobody has settled. -/
def Owed (c : Claim) : Prop := ∃ commitment, c.commitment = some commitment ∧ commitment.fulfillment = .open

instance (c : Claim) : Decidable (Owed c) :=
  match h : c.commitment with
  | none => isFalse (by rintro ⟨d, hd, _⟩; rw [h] at hd; exact absurd hd (by simp))
  | some d =>
    if hopen : d.fulfillment = .open then isTrue ⟨d, h, hopen⟩
    else isFalse (by rintro ⟨e, he, hopen'⟩; rw [h] at he; exact hopen (Option.some.inj he ▸ hopen'))

/-- Two claims about a shared subject with the same topic, tokens and obligation. -/
def Restates (a b : Claim) : Prop := Shares a b ∧ topic a.statement = topic b.statement ∧ SameContent a b

instance (a b : Claim) : Decidable (Restates a b) := by unfold Restates; infer_instance

/-- The claims that `open_commitments` returns when it is asked for an owner's only. -/
def openClaims (rows : RowOrder Row) (s : Store) (ownerId : String) : List Claim :=
  (s.openCommitments rows ownerId {}).filterMap Row.claim?

/-- No obligation is returned twice. -/
def CountedOnce (s : Store) : Prop := ∀ rows ownerId, ∀ a ∈ openClaims rows s ownerId, ∀ b ∈ openClaims rows s ownerId,
  a.id ≠ b.id → ¬ Restates a b

/-- The same of what is stored. -/
def OwedOnce (s : Store) : Prop := ∀ x y a b, s.claim? x = some a → s.claim? y = some b → a.id ≠ b.id → a.ownerId = b.ownerId →
  a.status = .active → b.status = .active → Owed a → Owed b → ¬ Restates a b

/-- Some of the claims behind disputes this one and was asserted later. -/
def Outdated (behind : List Claim) (c : Claim) : Prop := ∃ d ∈ behind, Disputes d c ∧ c.assertedAtMs < d.assertedAtMs

/-- Some live claim of the owner that is stored about its subjects disputes this one and was asserted no earlier. -/
def Outdone (s : Store) (ownerId : String) (c : Claim) : Prop := ∃ x o, s.claim? x = some o ∧ o.ownerId = ownerId ∧
  o.status = .active ∧ Shares c o ∧ Disputes c o ∧ c.assertedAtMs ≤ o.assertedAtMs

/-- A stored claim is disputed by a new one about its subjects that was asserted later. -/
def Overtaken (job : Job) (s : Store) (c : Claim) : Prop :=
  ∃ d ∈ job.claims.filter (Job.fresh s), Shares d c ∧ Disputes d c ∧ c.assertedAtMs < d.assertedAtMs

/-- No new commitment says again what another one of the batch says, or what a live one of the owner says, unless one of
the two is put aside by a claim that comes behind it, or was there before. -/
structure NothingTwice (job : Job) (s : Store) : Prop where
  batch : ∀ p d m b t, job.claims.filter (Job.fresh s) = p ++ d :: (m ++ b :: t) → d.id ≠ b.id → Owed d → Owed b → Restates d b →
    Outdated (m ++ b :: t) d ∨ Outdone s job.ownerId d ∨ Outdated t b ∨ Outdone s job.ownerId b
  stored : ∀ p b t, job.claims.filter (Job.fresh s) = p ++ b :: t → Owed b → ∀ x c, s.claim? x = some c → c.ownerId = job.ownerId →
    c.status = .active → Owed c → Restates b c → Outdated t b ∨ Outdone s job.ownerId b ∨ Overtaken job s c

theorem Restates.symm {a b : Claim} (h : Restates a b) : Restates b a :=
  ⟨h.1.symm, h.2.1.symm, h.2.2.1.symm, h.2.2.2.symm⟩

section Bare
variable {a b c d : Claim}

theorem Owed.of_bare (h : Owed a) (hc : bare c = bare a) : Owed c := by
  obtain ⟨commitment, hcommitment, hopen⟩ := h
  exact ⟨commitment, (eq_of_bare Claim.commitment (fun _ => rfl) hc).trans hcommitment, hopen⟩

theorem Shares.of_bare (h : Shares a b) (hc : bare c = bare a) (hd : bare d = bare b) : Shares c d := by
  obtain ⟨e, ha, hb⟩ := h
  rw [← eq_of_bare Claim.subjectEntityIds (fun _ => rfl) hc] at ha
  rw [← eq_of_bare Claim.subjectEntityIds (fun _ => rfl) hd] at hb
  exact ⟨e, ha, hb⟩

theorem Restates.of_bare (h : Restates a b) (hc : bare c = bare a) (hd : bare d = bare b) : Restates c d := by
  have hstatement : ∀ {x y : Claim}, bare x = bare y → x.statement = y.statement := eq_of_bare Claim.statement (fun _ => rfl)
  have hobligation : ∀ {x y : Claim}, bare x = bare y → obligation x = obligation y := eq_of_bare obligation (fun _ => rfl)
  obtain ⟨hshares, htopic, htokens, hsame⟩ := h
  refine ⟨Shares.of_bare hshares hc hd, ?_, ?_, ?_⟩
  · rw [hstatement hc, hstatement hd, htopic]
  · rw [hstatement hc, hstatement hd, htokens]
  · rw [hobligation hc, hobligation hd, hsame]

end Bare

section Run
variable {job : Job} {s : Store}

/-- The fresh claims stand as the pending ones do. -/
theorem Job.fresh_split {p t : List Claim} {b : Claim} (h : job.pending s = p ++ b :: t) :
    ∃ p' b' t', job.claims.filter (Job.fresh s) = p' ++ b' :: t' ∧ p.map bare = p'.map bare ∧ bare b = bare b' ∧
      t.map bare = t'.map bare := by
  have hbare := job.pending_bare s
  rw [h, List.map_append, List.map_cons] at hbare
  obtain ⟨p', bt, hsplit, hp, hbt⟩ := List.map_eq_append_iff.mp hbare.symm
  obtain ⟨b', t', rfl, hb, ht⟩ := List.map_eq_cons_iff.mp hbt
  exact ⟨p', b', t', hsplit, hp.symm, hb.symm, ht.symm⟩

/-- A pending claim that is still active was put aside by nobody. -/
theorem Job.stands_of_active (hs : Sound s) {p t : List Claim} {b : Claim} (hpq : job.pending s = p ++ b :: t)
    (hba : b.status = .active) {b' : Claim} {t' : List Claim} (hb' : bare b = bare b') (ht' : t.map bare = t'.map bare) :
    ¬ Outdated t' b' ∧ ¬ Outdone s job.ownerId b' := by
  have htime : ∀ {x y : Claim}, bare x = bare y → x.assertedAtMs = y.assertedAtMs := eq_of_bare Claim.assertedAtMs (fun _ => rfl)
  constructor
  · rintro ⟨d', hd', hdis, hlt⟩
    obtain ⟨d, hd, hbare⟩ := List.mem_map.mp (ht' ▸ List.mem_map_of_mem hd')
    refine pending_outlasts hpq hba hd ⟨hdis.of_bare hbare hb', ?_⟩
    rw [htime hbare, htime hb']
    exact hlt
  · rintro ⟨x, o, ho, howner, hactive, hshares, hdis, hle⟩
    have hb : b ∈ job.pending s := by
      rw [hpq]
      simp
    have hid : o.id = x := Store.id_of_claim? ho
    have hstored : o ∈ storedAbout job.rows s job.ownerId b :=
      hs.mem_storedAbout (hid ▸ ho) howner (Shares.of_bare hshares hb' rfl)
    have hlt := (job.supersedes_stored hb hba hstored ⟨hdis.of_bare hb' rfl, hactive⟩).1
    rw [htime hb'] at hlt
    exact absurd hle (not_le_of_gt hlt)

/-- A stored claim that a new one overtakes is marked. -/
theorem Overtaken.marked (hs : Sound s) {c : Claim} {x : String} (hc : s.claim? x = some c) (howner : c.ownerId = job.ownerId)
    (hactive : c.status = .active) (h : Overtaken job s c) : marked (job.ops s) c.id := by
  obtain ⟨d', hd', hshares, hdis, hlt⟩ := h
  have hin : bare d' ∈ (job.pending s).map bare := by
    rw [job.pending_bare s]
    exact List.mem_map_of_mem hd'
  obtain ⟨d, hd, hbare⟩ := List.mem_map.mp hin
  obtain ⟨p, t, hpq⟩ := List.append_of_mem hd
  obtain ⟨q, hq, _, hqbare, prior, _, hsup, _⟩ := pending_origin hpq
  have hid : c.id = x := Store.id_of_claim? hc
  have hdq : bare q.claim = bare d' := hqbare.symm.trans hbare
  have hstored : c ∈ q.stored := by
    rw [(job.mem_asked s hq).2]
    exact hs.mem_storedAbout (hid ▸ hc) howner (Shares.of_bare hshares hdq rfl)
  have htime : q.claim.assertedAtMs = d'.assertedAtMs := eq_of_bare Claim.assertedAtMs (fun _ => rfl) hdq
  refine ((job.carries_ops s).marked_iff c.id).mpr ⟨d, hd, ?_⟩
  rw [hsup]
  refine List.mem_append_right _ (List.mem_map_of_mem ((mem_earlier _ _ _).mpr ⟨List.mem_append_left _ hstored, ?_, ?_⟩))
  · exact ⟨hdis.of_bare hdq rfl, hactive⟩
  · rw [htime]
    exact hlt

private theorem owedOnce_batch (hs : Sound s) (h : NothingTwice job s) {p m t : List Claim} {d b : Claim}
    (hpq : job.pending s = p ++ d :: (m ++ b :: t)) (hda : d.status = .active) (hba : b.status = .active) (hne : d.id ≠ b.id)
    (hd : Owed d) (hb : Owed b) : ¬ Restates d b := by
  intro hre
  obtain ⟨p', d', rest, hsplit, _, hd', hrest⟩ := job.fresh_split hpq
  obtain ⟨m', bt, rfl, _, hbt⟩ := List.map_eq_append_iff.mp (hrest.symm.trans List.map_append)
  obtain ⟨b', t', rfl, hb', ht'⟩ := List.map_eq_cons_iff.mp hbt
  have hid : ∀ {x y : Claim}, bare x = bare y → x.id = y.id := eq_of_bare Claim.id (fun _ => rfl)
  have hpb : job.pending s = (p ++ d :: m) ++ b :: t := by
    rw [hpq]
    simp
  obtain ⟨hdlast, hdstands⟩ := job.stands_of_active hs hpq hda hd' hrest
  obtain ⟨hblast, hbstands⟩ := job.stands_of_active hs hpb hba hb'.symm ht'.symm
  have hne' : d'.id ≠ b'.id := by
    rw [← hid hd', hid hb']
    exact hne
  rcases h.batch p' d' m' b' t' hsplit hne' (hd.of_bare hd'.symm) (hb.of_bare hb') (hre.of_bare hd'.symm hb') with h | h | h | h
  · exact hdlast h
  · exact hdstands h
  · exact hblast h
  · exact hbstands h

private theorem owedOnce_mixed (hs : Sound s) (h : NothingTwice job s) {b c : Claim} {x : String} (hb : b ∈ job.pending s)
    (hba : b.status = .active) (hc : s.claim? x = some c) (hnm : ¬ marked (job.ops s) c.id) (hca : c.status = .active)
    (howner : b.ownerId = c.ownerId) (hbo : Owed b) (hco : Owed c) : ¬ Restates b c := by
  intro hre
  have hcowner : c.ownerId = job.ownerId := howner.symm.trans (job.owner_of_mem_pending s hb)
  obtain ⟨p, t, hpq⟩ := List.append_of_mem hb
  obtain ⟨p', b', t', hsplit, _, hb', ht'⟩ := job.fresh_split hpq
  obtain ⟨hlast, hstands⟩ := job.stands_of_active hs hpq hba hb' ht'
  rcases h.stored p' b' t' hsplit (hbo.of_bare hb'.symm) x c hc hcowner hca hco (hre.of_bare hb'.symm rfl) with h | h | h
  · exact hlast h
  · exact hstands h
  · exact hnm (h.marked hs hc hcowner hca)

theorem OwedOnce.run (hs : Sound s) (h : OwedOnce s) (honce : NothingTwice job s) : OwedOnce (job.run s) := by
  intro x y a b ha hb hne howner haa hba hao hbo
  rcases job.claim?_run_active ha haa with ⟨hc, hnm⟩ | hc
  · rcases job.claim?_run_active hb hba with ⟨hd, _⟩ | hd
    · exact h x y a b hc hd hne howner haa hba hao hbo
    · exact fun hre => owedOnce_mixed hs honce hd hba hc hnm haa howner.symm hbo hao hre.symm
  · rcases job.claim?_run_active hb hba with ⟨hd, hnm⟩ | hd
    · exact owedOnce_mixed hs honce hc haa hd hnm hba howner hao hbo
    · -- One of the two is ahead of the other in the batch.
      obtain ⟨p, t, hpq⟩ := List.append_of_mem hc
      rw [hpq] at hd
      rcases List.mem_append.mp hd with hd | hd
      · obtain ⟨p₁, m, rfl⟩ := List.append_of_mem hd
        have hpq' : job.pending s = p₁ ++ b :: (m ++ a :: t) := by
          rw [hpq]
          simp
        exact fun hre => owedOnce_batch hs honce hpq' hba haa hne.symm hbo hao hre.symm
      · rcases List.mem_cons.mp hd with rfl | hd
        · exact absurd rfl hne
        · obtain ⟨m, t₁, rfl⟩ := List.append_of_mem hd
          exact owedOnce_batch hs honce hpq haa hba hne hao hbo

end Run

theorem owed_of_mem_openClaims {s : Store} (hp : PromotedColumns s) (hc : OwnerColumns s) {rows : RowOrder Row} {ownerId : String}
    {a : Claim} (h : a ∈ openClaims rows s ownerId) :
    s.claim? a.id = some a ∧ a.ownerId = ownerId ∧ a.status = .active ∧ Owed a := by
  obtain ⟨r, hr, ha⟩ := List.mem_filterMap.mp h
  obtain ⟨hnode, howner, claim, commitment, hpayload, hcommitment, hopen, hactive, _⟩ :=
    ((hp.scansTo rows ownerId {}).mem r).mp hr
  obtain rfl : claim = a := MemoryNode.claim.inj (hpayload.symm.trans ((Row.claim?_eq_some_iff r a).mp ha))
  refine ⟨(Store.claim?_eq_some_iff s claim.id claim).mpr ⟨r, hnode, ha, rfl⟩, ?_, ?_, commitment, hcommitment, hopen⟩
  · rw [← howner, hc r hnode, hpayload]
    rfl
  · exact hactive.resolve_left (by simp)

theorem OwedOnce.countedOnce {s : Store} (hp : PromotedColumns s) (hc : OwnerColumns s) (h : OwedOnce s) : CountedOnce s := by
  intro rows ownerId a ha b hb hne
  obtain ⟨hastored, haowner, haactive, haowed⟩ := owed_of_mem_openClaims hp hc ha
  obtain ⟨hbstored, hbowner, hbactive, hbowed⟩ := owed_of_mem_openClaims hp hc hb
  exact h a.id b.id a b hastored hbstored hne (haowner.trans hbowner.symm) haactive hbactive haowed hbowed

theorem promotedColumns_runAll (jobs : List Job) {s : Store} (h : PromotedColumns s) : PromotedColumns (runAll jobs s) := by
  induction jobs generalizing s with
  | nil => exact h
  | cons job jobs ih => exact ih (h.execAll (job.ops s))

/-- In any runs none of which states an obligation twice, every store reached returns each obligation once. -/
theorem counted_once (jobs : List Job) (h : EveryRun NothingTwice jobs PropertyGraph.empty) (n : Nat) :
    CountedOnce (runAll (jobs.take n) PropertyGraph.empty) := by
  have howed : OwedOnce (runAll (jobs.take n) PropertyGraph.empty) :=
    (h.take n).invariant (fun _ _ hs honce howed => howed.run hs honce) Sound.empty
      (fun _ _ _ _ ha => absurd ha (by simp [Store.claim?]))
  have hcolumns := (Keyed.empty.runAll (jobs.take n)).columns
  exact howed.countedOnce (promotedColumns_runAll _ .empty) hcolumns

/-- Nothing at all is said again. -/
theorem nothingTwice_of_distinct {job : Job} {s : Store}
    (hbatch : ∀ d ∈ job.claims.filter (Job.fresh s), ∀ b ∈ job.claims.filter (Job.fresh s), d.id ≠ b.id → ¬ Restates d b)
    (hstored : ∀ b ∈ job.claims.filter (Job.fresh s), ∀ c ∈ s.nodes.filterMap Row.claim?, ¬ Restates b c) : NothingTwice job s where
  batch := by
    intro p d m b t hsplit hne _ _ hre
    exact absurd hre (hbatch d (by rw [hsplit]; simp) b (by rw [hsplit]; simp) hne)
  stored := by
    intro p b t hsplit _ x c hc _ _ _ hre
    obtain ⟨r, hr, hrc, _⟩ := (Store.claim?_eq_some_iff s x c).mp hc
    exact absurd hre (hstored b (by rw [hsplit]; simp) c (List.mem_filterMap.mpr ⟨r, hr, hrc⟩))

/-- A note in which Alice commits herself. -/
def promiseNote (externalId : String) (occurredAtMs : Int) (statement : String) : Job :=
  .ofAnswers [(noteRecord mockConnector false externalId occurredAtMs,
    { entities := [{ kind := .person, name := "Alice" }]
      claims := [{ statement := statement, subjects := ["Alice"], commitment := some { owedBy := "Alice" } }] })]

/-- A commitment, and another one in its place. -/
def changed : List Job := [promiseNote "r1" 1 "Alice will ship.", promiseNote "r2" 2 "Alice will wait."]

theorem counted_once_changed : EveryRun NothingTwice changed PropertyGraph.empty ∧
    ∀ n, CountedOnce (runAll (changed.take n) PropertyGraph.empty) := by
  have hfirst : NothingTwice (promiseNote "r1" 1 "Alice will ship.") PropertyGraph.empty := by
    apply nothingTwice_of_distinct
    · decide +kernel
    · decide +kernel
  have hsecond : NothingTwice (promiseNote "r2" 2 "Alice will wait.") ((promiseNote "r1" 1 "Alice will ship.").run PropertyGraph.empty) := by
    apply nothingTwice_of_distinct
    · decide +kernel
    · decide +kernel
  have h : EveryRun NothingTwice changed PropertyGraph.empty := ⟨hfirst, hsecond, trivial⟩
  exact ⟨h, counted_once changed h⟩

/-- The same commitment in two records. -/
def promisedTwice : List Job := [promiseNote "r1" 1 "Alice will ship.", promiseNote "r2" 2 "Alice will ship."]

theorem promisedTwice_counted_twice : ¬ CountedOnce (runAll promisedTwice PropertyGraph.empty) := by
  intro h
  have hboth : ∃ a ∈ openClaims .asStored (runAll promisedTwice PropertyGraph.empty) "alice",
      ∃ b ∈ openClaims .asStored (runAll promisedTwice PropertyGraph.empty) "alice", a.id ≠ b.id ∧ Restates a b := by decide +kernel
  obtain ⟨a, ha, b, hb, hne, hre⟩ := hboth
  exact h .asStored "alice" a ha b hb hne hre

end Memorai.Ingestion
