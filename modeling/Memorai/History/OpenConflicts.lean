import Memorai.History.Seeds
import Memorai.Ingestion.Conflicts

/-! Conflicts that a shift history reports as open, and when they are. -/
namespace Memorai.History
open Schema Memorai.Graph Storage Extraction Resolver Ingestion

section Read
variable {fmt : Formatting} {rows : RowOrder Row} {s : Store} {scope : Scope} {claimId : String} {nowMs : Int}

theorem mem_conflictLinks {ownerId a b : String} {ids : List String} : (a, b) ∈ s.conflictLinks ownerId ids ↔
    (Store.claimKey a, .contradicts, Store.claimKey b) ∈ s.edges ∧ s.ownedBy ownerId (Store.claimKey a) ∧
      s.ownedBy ownerId (Store.claimKey b) ∧ (a ∈ ids ∨ b ∈ ids) := by
  simp only [Store.conflictLinks, List.mem_insertionSort, List.mem_dedup, List.mem_map, List.mem_filter, decide_eq_true_eq,
    Prod.mk.injEq]
  constructor
  · rintro ⟨⟨⟨_, _⟩, _, _, _⟩, ⟨he, rfl, rfl, rfl, ha, hb, hids⟩, rfl, rfl⟩
    exact ⟨he, ha, hb, hids⟩
  · rintro ⟨he, ha, hb, hids⟩
    exact ⟨_, ⟨he, rfl, rfl, rfl, ha, hb, hids⟩, rfl, rfl⟩

theorem conflict_of_assemble {walked : Walk} {verdicts : Verdicts} {denials : List Denial} {p : ClaimView × ClaimView}
    (h : p ∈ (assemble fmt claimId walked verdicts denials).conflicts) :
    ∃ a ∈ walked.candidates, ∃ b ∈ walked.candidates, (a.id, b.id) ∈ walked.edges ∧ p = (viewOf verdicts a, viewOf verdicts b) := by
  rw [assemble_eq] at h
  dsimp only at h
  split at h
  · exact absurd h List.not_mem_nil
  · split at h
    · exact absurd h List.not_mem_nil
    · obtain ⟨⟨j, k⟩, he, hp⟩ := List.mem_filterMap.mp h
      obtain ⟨a, ha, hp⟩ := Option.bind_eq_some_iff.mp hp
      obtain ⟨b, hb, rfl⟩ := Option.map_eq_some_iff.mp hp
      obtain ⟨a', ha', hja⟩ := Dict.mem_collect _ (Dict.mem_of_lookup ha)
      obtain ⟨b', hb', hkb⟩ := Dict.mem_collect _ (Dict.mem_of_lookup hb)
      obtain ⟨rfl, rfl⟩ := Prod.mk.inj hja
      obtain ⟨rfl, rfl⟩ := Prod.mk.inj hkb
      exact ⟨_, ha', _, hb', he, rfl⟩

/-- A conflict that is shown is a link between two stored claims. -/
theorem link_of_mem_conflicts {p : ClaimView × ClaimView} (h : p ∈ (whyDidThisShift fmt rows s scope claimId nowMs).conflicts) :
    ∃ a b, s.claim? a.id = some a ∧ s.claim? b.id = some b ∧ p.1.id = a.id ∧ p.2.id = b.id ∧
      (Store.claimKey a.id, .contradicts, Store.claimKey b.id) ∈ s.edges := by
  obtain ⟨a, ha, b, hb, he, rfl⟩ := conflict_of_assemble h
  refine ⟨a, b, stored_of_walk ha, stored_of_walk hb, id_claimView _ _, id_claimView _ _, ?_⟩
  exact (mem_conflictLinks.mp (List.mem_ite_nil_left.mp he).2).1

/-- With something to be shown, every walked link is among the conflicts. -/
theorem mem_conflicts_assemble {walked : Walk} {verdicts : Verdicts} {denials : List Denial} {a b : Claim}
    (hnodup : (walked.candidates.map Claim.id).Nodup) (ha : a ∈ walked.candidates) (hb : b ∈ walked.candidates)
    (he : (a.id, b.id) ∈ walked.edges) (hshown : verdicts.reason a.id = none) :
    (viewOf verdicts a, viewOf verdicts b) ∈ (assemble fmt claimId walked verdicts denials).conflicts := by
  have hlookup : ∀ c ∈ walked.candidates, (Dict.collect Claim.id id walked.candidates).lookup c.id = some c := by
    intro c hc
    refine Dict.lookup_of_mem (Dict.nodup_keys_collect _ _ _) ?_
    rw [Dict.collect_of_nodup _ _ hnodup]
    exact List.mem_map.mpr ⟨c, hc, rfl⟩
  have hmem := Dict.mem_of_lookup (hlookup a ha)
  rw [assemble_eq]
  dsimp only
  rw [if_neg (List.ne_nil_of_mem hmem), if_neg]
  · refine List.mem_filterMap.mpr ⟨_, he, ?_⟩
    dsimp only
    rw [hlookup a ha, hlookup b hb]
    rfl
  · intro hall
    have hdenied := List.all_eq_true.mp hall _ hmem
    rw [hshown] at hdenied
    exact absurd hdenied (by simp)

theorem label_of_supersessionChain {ownerId : String} {maxHops : Nat} {r : Row}
    (h : r ∈ s.supersessionChain ownerId claimId maxHops) : r.key.label = .claim := by
  unfold Store.supersessionChain at h
  split at h
  · have hkept := (List.mem_filter.mp ((List.mem_insertionSort _).mp h)).2
    exact (decide_eq_true_eq.mp hkept).2
  · exact absurd h List.not_mem_nil

theorem mem_chain_self {a : Claim} (ha : s.claim? a.id = some a) (hao : s.ownedBy scope.ownerId (Store.claimKey a.id)) :
    ∃ r ∈ s.supersessionChain scope.ownerId a.id 24, r.claim? = some a ∧ r.key.id = a.id := by
  obtain ⟨r, hr, hclaim, _⟩ := (Store.claim?_eq_some_iff s a.id a).mp ha
  have hkey : r.key = Store.claimKey a.id := Row.key_of_claim? hclaim
  refine ⟨r, (mem_supersessionChain hao).mpr ⟨hr, by rw [hkey], ?_⟩, hclaim, by rw [hkey]⟩
  rw [hkey]
  exact ⟨_, List.mem_singleton_self _, 0, Nat.zero_le _, .here⟩

/-- The walk fetches the other claim of a link wherever it is. -/
theorem mem_candidates_of_links {a b : Claim} (hb : s.claim? b.id = some b) (hbo : s.ownedBy scope.ownerId (Store.claimKey b.id))
    (he : (a.id, b.id) ∈ (walk rows s scope claimId).edges) : b ∈ (walk rows s scope claimId).candidates := by
  obtain ⟨r, hr, hclaim, _⟩ := (Store.claim?_eq_some_iff s b.id b).mp hb
  have hkey : r.key = Store.claimKey b.id := Row.key_of_claim? hclaim
  obtain ⟨stored, hstored, hkey', howner⟩ := Store.ownedBy_iff.mp hbo
  obtain rfl : r = stored := List.inj_on_of_nodup_map s.unique hr hstored (hkey.trans hkey'.symm)
  rw [candidates_walk]
  refine List.mem_filterMap.mpr ⟨r, ?_, hclaim⟩
  by_cases hin : b.id ∈ (s.supersessionChain scope.ownerId claimId 24).map (fun r => r.key.id)
  · obtain ⟨r', hr', hid⟩ := List.mem_map.mp hin
    have hkey' : r'.key = Store.claimKey b.id := by
      rw [← hid, Store.claimKey, ← label_of_supersessionChain hr']
    obtain rfl : r = r' := List.inj_on_of_nodup_map s.unique hr (mem_of_supersessionChain hr') (hkey.trans hkey'.symm)
    exact List.mem_append_left _ hr'
  · have hextra : b.id ∈ extraIds s scope.ownerId claimId :=
      List.mem_filter.mpr ⟨List.mem_append_right _ (List.mem_flatMap.mpr ⟨_, he, by simp⟩), by simpa using hin⟩
    rw [if_neg (List.ne_nil_of_mem hextra)]
    exact List.mem_append_right _ (Store.mem_getMany.mpr ⟨hr, howner, by rw [hkey]; exact hextra⟩)

theorem ownedBy_of_claim? (hc : OwnerColumns s) {c : Claim} (h : s.claim? c.id = some c) :
    s.ownedBy c.ownerId (Store.claimKey c.id) = true := by
  obtain ⟨r, hr, hclaim, _⟩ := (Store.claim?_eq_some_iff s c.id c).mp h
  refine Store.ownedBy_iff.mpr ⟨r, hr, Row.key_of_claim? hclaim, ?_⟩
  rw [hc r hr, (Row.claim?_eq_some_iff r c).mp hclaim]
  rfl

/-- A link is shown when the history is asked about by whoever may read the claim that has it. -/
theorem conflict_shown {a b : Claim} (ha : s.claim? a.id = some a) (hb : s.claim? b.id = some b)
    (hao : s.ownedBy scope.ownerId (Store.claimKey a.id)) (hbo : s.ownedBy scope.ownerId (Store.claimKey b.id))
    (he : (Store.claimKey a.id, .contradicts, Store.claimKey b.id) ∈ s.edges) (hallow : evaluate scope a.acl nowMs = .allow) :
    ∃ p ∈ (whyDidThisShift fmt rows s scope a.id nowMs).conflicts, p.1.id = a.id ∧ p.2.id = b.id := by
  obtain ⟨r, hr, hclaim, hid⟩ := mem_chain_self ha hao
  have hacand : a ∈ (walk rows s scope a.id).candidates := List.mem_filterMap.mpr ⟨r, List.mem_append_left _ hr, hclaim⟩
  have hedge : (a.id, b.id) ∈ (walk rows s scope a.id).edges := by
    have hain : a.id ∈ (s.supersessionChain scope.ownerId a.id 24).map (fun r => r.key.id) := List.mem_map.mpr ⟨r, hr, hid⟩
    exact List.mem_ite_nil_left.mpr ⟨List.ne_nil_of_mem hain, mem_conflictLinks.mpr ⟨he, hao, hbo, Or.inl hain⟩⟩
  have hbcand : b ∈ (walk rows s scope a.id).candidates := mem_candidates_of_links hb hbo hedge
  have hcollected : (a.id, a) ∈ Dict.collect Claim.id id (walk rows s scope a.id).candidates := by
    rw [Dict.collect_of_nodup _ _ nodup_walk]
    exact List.mem_map.mpr ⟨a, hacand, rfl⟩
  have hreason : Verdicts.reason (checkPermissions scope nowMs (walk rows s scope a.id).candidates).1 a.id = none :=
    (reason_of_mem hcollected).trans ((verdict_eq_none_iff a).mpr hallow)
  exact ⟨_, mem_conflicts_assemble nodup_walk hacand hbcand hedge hreason, id_claimView _ _, id_claimView _ _⟩

/-- A claim with this id is stored and neither superseded nor reconciled. -/
def IsOpen (s : Store) (x : String) : Prop := ∃ c, s.claim? x = some c ∧ c.status ≠ .superseded ∧ c.status ≠ .reconciled

end Read

/-- As long as no batch supersedes a claim in a conflict, every conflict that is reported is between two open claims. -/
theorem reported_conflicts_open (jobs : List Job) (h : EveryRun SettlesNone jobs PropertyGraph.empty) (n : Nat)
    (fmt : Formatting) (rows : RowOrder Row) (scope : Scope) (claimId : String) (nowMs : Int) (p : ClaimView × ClaimView)
    (hp : p ∈ (whyDidThisShift fmt rows (runAll (jobs.take n) PropertyGraph.empty) scope claimId nowMs).conflicts) :
    IsOpen (runAll (jobs.take n) PropertyGraph.empty) p.1.id ∧ IsOpen (runAll (jobs.take n) PropertyGraph.empty) p.2.id := by
  obtain ⟨a, b, ha, hb, hpa, hpb, he⟩ := link_of_mem_conflicts hp
  have hopen := (conflicts_open_iff jobs).mpr h n _ _ he
  have hnone := noneReconciled_runAll (jobs.take n)
  rw [hpa, hpb]
  exact ⟨⟨a, ha, hopen a (Or.inl ha), hnone _ a ha⟩, ⟨b, hb, hopen b (Or.inr hb), hnone _ b hb⟩⟩

/-- Another note of the same time says otherwise. -/
def disputed : List Job := [toRedis, .ofNotes "Atlas" [("r2", 1, ["project Atlas will use Postgres."])]]

theorem reported_conflicts_open_disputed : EveryRun SettlesNone disputed PropertyGraph.empty ∧
    ∃ p ∈ (whyDidThisShift mockFormat .asStored (runAll (disputed.take 2) PropertyGraph.empty) projectsOnly
      (soleClaim toRedis).id 10).conflicts,
        IsOpen (runAll (disputed.take 2) PropertyGraph.empty) p.1.id ∧ IsOpen (runAll (disputed.take 2) PropertyGraph.empty) p.2.id := by
  have h : EveryRun SettlesNone disputed PropertyGraph.empty := ⟨by decide +kernel, by decide +kernel, trivial⟩
  have hsome : (whyDidThisShift mockFormat .asStored (runAll (disputed.take 2) PropertyGraph.empty) projectsOnly
      (soleClaim toRedis).id 10).conflicts ≠ [] := by decide +kernel
  obtain ⟨p, hp⟩ := List.exists_mem_of_ne_nil _ hsome
  exact ⟨h, p, hp, reported_conflicts_open disputed h 2 mockFormat .asStored projectsOnly (soleClaim toRedis).id 10 p hp⟩

/-- A later note replaces the claim that is disputed. -/
def replacedDispute : List Job := disputed ++ [.ofNotes "Atlas" [("r3", 2, ["project Atlas will use Neo4j."])]]

/-- The other claim is reported to contradict it still. -/
theorem replaced_still_contradicted : ¬ ∀ (jobs : List Job) (fmt : Formatting) (rows : RowOrder Row) (scope : Scope)
    (claimId : String) (nowMs : Int),
      ∀ p ∈ (whyDidThisShift fmt rows (runAll jobs PropertyGraph.empty) scope claimId nowMs).conflicts,
        IsOpen (runAll jobs PropertyGraph.empty) p.1.id ∧ IsOpen (runAll jobs PropertyGraph.empty) p.2.id := by
  intro h
  have hclosed : ∃ p ∈ (whyDidThisShift mockFormat .asStored (runAll replacedDispute PropertyGraph.empty) projectsOnly
      (soleClaim toRedis).id 10).conflicts,
        ((runAll replacedDispute PropertyGraph.empty).claim? p.2.id).any (fun c => c.status = .superseded) := by
    decide +kernel
  obtain ⟨p, hp, hany⟩ := hclosed
  obtain ⟨_, c, hc, hopen, _⟩ := h replacedDispute mockFormat .asStored projectsOnly (soleClaim toRedis).id 10 p hp
  rw [hc, Option.any_some, decide_eq_true_eq] at hany
  exact hopen hany

/-- Where every claim can be read under some grant, this is needed too. -/
theorem settlesNone_of_reported (jobs : List Job) (hreadable : ∀ job ∈ jobs, ∀ c ∈ job.claims, ∃ scope nowMs,
      scope.ownerId = job.ownerId ∧ evaluate scope c.acl nowMs = .allow)
    (h : ∀ n fmt rows scope claimId nowMs, ∀ p ∈ (whyDidThisShift fmt rows (runAll (jobs.take n) PropertyGraph.empty) scope
      claimId nowMs).conflicts, IsOpen (runAll (jobs.take n) PropertyGraph.empty) p.1.id ∧
        IsOpen (runAll (jobs.take n) PropertyGraph.empty) p.2.id) : EveryRun SettlesNone jobs PropertyGraph.empty := by
  refine (conflicts_open_iff jobs).mp (fun n k j he c hc hsuperseded => ?_)
  obtain ⟨a, b, ha, hb, rfl, rfl, howner⟩ := conflictEnds_runAll (jobs.take n) k j he
  obtain ⟨job, hjob, q, hq, d, hd, hbare⟩ := claim_origin ha
  obtain ⟨scope, nowMs, hscope, hallow⟩ :=
    hreadable job (List.mem_of_mem_take hjob) d (List.mem_flatMap.mpr ⟨q.2, List.mem_map.mpr ⟨q, hq, rfl⟩, hd⟩)
  rw [← eq_of_bare Claim.acl (fun _ => rfl) hbare] at hallow
  have hao : a.ownerId = scope.ownerId := by
    rw [eq_of_bare Claim.ownerId (fun _ => rfl) hbare, (job.contract q hq d hd).owner, hscope]
  have hcolumns := (Keyed.empty.runAll (jobs.take n)).columns
  have haowned := ownedBy_of_claim? hcolumns ha
  have hbowned := ownedBy_of_claim? hcolumns hb
  rw [hao] at haowned
  rw [← howner, hao] at hbowned
  have hshown : ∃ p ∈ (whyDidThisShift mockFormat .asStored (runAll (jobs.take n) PropertyGraph.empty) scope a.id nowMs).conflicts,
      p.1.id = a.id ∧ p.2.id = b.id := conflict_shown ha hb haowned hbowned he hallow
  obtain ⟨p, hp, hpa, hpb⟩ := hshown
  obtain ⟨hopena, hopenb⟩ := h n _ _ scope a.id nowMs p hp
  rw [hpa] at hopena
  rw [hpb] at hopenb
  rcases hc with hc | hc
  · obtain ⟨c', hc', hopen, _⟩ := hopena
    obtain rfl := Option.some.inj (hc.symm.trans hc')
    exact hopen hsuperseded
  · obtain ⟨c', hc', hopen, _⟩ := hopenb
    obtain rfl := Option.some.inj (hc.symm.trans hc')
    exact hopen hsuperseded

end Memorai.History
