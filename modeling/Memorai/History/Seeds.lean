import Memorai.Graph.Trails
import Memorai.History.Shape

/-! One supersession run, asked about from different claims of it. The walk goes 24 supersessions far from
the claim it is asked about, however long the run is. -/
namespace Memorai.History
open Schema Memorai.Graph Storage Ingestion

section Run
variable (s : Store) (ownerId : String)

/-- The `SUPERSEDES` edges between nodes of the owner. -/
def runEdges : List (NodeKey × Rel × NodeKey) :=
  s.edges.filter (fun e => e.2.1 = .supersedes ∧ s.ownedBy ownerId e.1 ∧ s.ownedBy ownerId e.2.2)

/-- The two claims belong to one run, however long, of claims of the owner. -/
def Connected (c c' : String) : Prop :=
  ∃ n, Hops ((runEdges s ownerId).filter (fun e => e.1.label = .claim ∧ e.2.2.label = .claim)) n ⟨.claim, c⟩ ⟨.claim, c'⟩

/-- The claim `k` is at most 24 supersessions away from the claim `c`. -/
def Near (c k : String) : Prop := Within (runEdges s ownerId) [⟨.claim, c⟩] 24 ⟨.claim, k⟩

variable {s ownerId} {c c' : String}

theorem mem_runEdges {e : NodeKey × Rel × NodeKey} : e ∈ runEdges s ownerId ↔
    e ∈ s.edges ∧ e.2.1 = .supersedes ∧ s.ownedBy ownerId e.1 ∧ s.ownedBy ownerId e.2.2 := by
  rw [runEdges, List.mem_filter, decide_eq_true_eq]

theorem mem_keys_of_ownedBy {k : NodeKey} (h : s.ownedBy ownerId k = true) : k ∈ s.keys := by
  obtain ⟨r, hr, rfl, _⟩ := Store.ownedBy_iff.mp h
  exact List.mem_map_of_mem hr

theorem ownedBy_of_within {seed k : NodeKey} {n : Nat} (hseed : s.ownedBy ownerId seed = true)
    (h : Within (runEdges s ownerId) [seed] n k) : s.ownedBy ownerId k = true := by
  obtain ⟨_, hmem, m, -, h⟩ := h
  obtain rfl := List.mem_singleton.mp hmem
  clear hmem
  induction h with
  | here => exact hseed
  | out he _ ih => exact ih (mem_runEdges.mp he).2.2.2
  | back he _ ih => exact ih (mem_runEdges.mp he).2.2.1

/-- One round of the walk goes one edge further. -/
theorem mem_supersessionHop {seen : List NodeKey} (hseen : ∀ j ∈ seen, s.ownedBy ownerId j = true) {k : NodeKey} :
    k ∈ s.supersessionHop ownerId seen ↔
      k ∈ seen ∨ ∃ j ∈ seen, ∃ r, (j, r, k) ∈ runEdges s ownerId ∨ (k, r, j) ∈ runEdges s ownerId := by
  rw [Store.supersessionHop, List.mem_filter, decide_eq_true_eq]
  simp only [List.any_eq_true, decide_eq_true_eq]
  constructor
  · rintro ⟨_, hk | ⟨howned, ⟨a, r, b⟩, he, hr, hends⟩⟩
    · exact Or.inl hk
    · rcases hends with ⟨rfl, hb⟩ | ⟨rfl, ha⟩
      · exact Or.inr ⟨b, hb, r, Or.inr (mem_runEdges.mpr ⟨he, hr, howned, hseen b hb⟩)⟩
      · exact Or.inr ⟨a, ha, r, Or.inl (mem_runEdges.mpr ⟨he, hr, hseen a ha, howned⟩)⟩
  · rintro (hk | ⟨j, hj, r, he | he⟩)
    · exact ⟨mem_keys_of_ownedBy (hseen k hk), Or.inl hk⟩
    · obtain ⟨he, hr, _, howned⟩ := mem_runEdges.mp he
      exact ⟨mem_keys_of_ownedBy howned, Or.inr ⟨howned, _, he, hr, Or.inr ⟨rfl, hj⟩⟩⟩
    · obtain ⟨he, hr, howned, _⟩ := mem_runEdges.mp he
      exact ⟨mem_keys_of_ownedBy howned, Or.inr ⟨howned, _, he, hr, Or.inl ⟨rfl, hj⟩⟩⟩

/-- `n` rounds reach what is at most `n` edges away. -/
theorem mem_iterate_supersessionHop {seed : NodeKey} (hseed : s.ownedBy ownerId seed = true) (n : Nat) (k : NodeKey) :
    k ∈ Nat.iterate (s.supersessionHop ownerId) n [seed] ↔ Within (runEdges s ownerId) [seed] n k := by
  induction n generalizing k with
  | zero => exact within_zero_iff.symm
  | succ n ih =>
    rw [Function.iterate_succ_apply', mem_supersessionHop (fun j hj => ownedBy_of_within hseed ((ih j).mp hj)),
      within_succ_iff, ih k]
    refine or_congr_right ⟨?_, ?_⟩
    · rintro ⟨j, hj, r, he⟩
      exact ⟨j, r, (ih j).mp hj, he⟩
    · rintro ⟨j, r, hj, he⟩
      exact ⟨j, (ih j).mpr hj, r, he⟩

theorem supersessionChain_eq (hc : s.ownedBy ownerId ⟨.claim, c⟩ = true) : s.supersessionChain ownerId c 24 =
    (s.nodes.filter (fun r => r.key ∈ Nat.iterate (s.supersessionHop ownerId) 24 [⟨.claim, c⟩] ∧
      r.key.label = .claim)).insertionSort Store.rowBefore := by
  rw [Store.supersessionChain, if_pos hc]

theorem mem_supersessionChain (hc : s.ownedBy ownerId ⟨.claim, c⟩ = true) {r : Row} :
    r ∈ s.supersessionChain ownerId c 24 ↔ r ∈ s.nodes ∧ r.key.label = .claim ∧ Near s ownerId c r.key.id := by
  rw [supersessionChain_eq hc, List.mem_insertionSort, List.mem_filter, decide_eq_true_eq,
    mem_iterate_supersessionHop hc]
  have hkey : r.key.label = .claim → r.key = ⟨.claim, r.key.id⟩ := fun hl => by rw [← hl]
  constructor
  · rintro ⟨hr, hk, hl⟩
    exact ⟨hr, hl, hkey hl ▸ hk⟩
  · rintro ⟨hr, hl, hk⟩
    exact ⟨hr, (hkey hl).symm ▸ hk, hl⟩

theorem supersessionChain_of_other {other : String} (hc : s.ownedBy ownerId ⟨.claim, c⟩ = true) (hne : other ≠ ownerId) :
    s.supersessionChain other c 24 = [] := by
  refine if_neg (fun hother => hne ?_)
  obtain ⟨r, hr, hk, rfl⟩ := Store.ownedBy_iff.mp hc
  obtain ⟨r', hr', hk', rfl⟩ := Store.ownedBy_iff.mp hother
  rw [List.inj_on_of_nodup_map s.unique hr hr' (hk.trans hk'.symm)]

/-- The same chain, exactly if the same claims are near. -/
theorem supersessionChain_eq_iff (hc : s.ownedBy ownerId ⟨.claim, c⟩ = true) (hc' : s.ownedBy ownerId ⟨.claim, c'⟩ = true) :
    s.supersessionChain ownerId c 24 = s.supersessionChain ownerId c' 24 ↔
      ∀ k, Near s ownerId c k ↔ Near s ownerId c' k := by
  constructor
  · intro heq k
    have hrow : ∀ {d}, s.ownedBy ownerId ⟨.claim, d⟩ = true → Near s ownerId d k → ∃ r ∈ s.nodes, r.key = ⟨.claim, k⟩ :=
      fun hd h => List.mem_map.mp (mem_keys_of_ownedBy (ownedBy_of_within hd h))
    constructor
    · intro h
      obtain ⟨r, hr, hk⟩ := hrow hc h
      have hin := (mem_supersessionChain hc).mpr ⟨hr, by rw [hk], by rw [hk]; exact h⟩
      rw [heq] at hin
      have hnear := ((mem_supersessionChain hc').mp hin).2.2
      rwa [hk] at hnear
    · intro h
      obtain ⟨r, hr, hk⟩ := hrow hc' h
      have hin := (mem_supersessionChain hc').mpr ⟨hr, by rw [hk], by rw [hk]; exact h⟩
      rw [← heq] at hin
      have hnear := ((mem_supersessionChain hc).mp hin).2.2
      rwa [hk] at hnear
  · intro hnear
    rw [supersessionChain_eq hc, supersessionChain_eq hc']
    refine congrArg _ (List.filter_congr (fun r _ => decide_eq_decide.mpr (and_congr_left (fun hl => ?_))))
    have hkey : r.key = ⟨.claim, r.key.id⟩ := by rw [← hl]
    rw [mem_iterate_supersessionHop hc, mem_iterate_supersessionHop hc', hkey]
    exact hnear r.key.id

end Run

/-- The same history, whichever claim is named in it. -/
structure SameParts (h h' : ShiftHistory) : Prop where
  chain : h.chain = h'.chain
  steps : h.steps = h'.steps
  conflicts : h.conflicts = h'.conflicts
  reconciliations : h.reconciliations = h'.reconciliations
  considered : h.considered = h'.considered

section Parts
variable {claims claims' : List (String × Claim)} {verdicts verdicts' : Verdicts}

theorem viewOf_congr (hv : ∀ k, verdicts.reason k = verdicts'.reason k) : viewOf verdicts = viewOf verdicts' := by
  funext c
  rw [viewOf, viewOf, hv]

theorem step_congr (hv : ∀ k, verdicts.reason k = verdicts'.reason k) (a b : Claim) : step a b verdicts = step a b verdicts' := by
  simp only [step, hv]

/-- Nothing of an assembled history depends on the order in which the claims were read and checked. -/
theorem sameParts_assemble {fmt : Formatting} {c c' : String} {w w' : Walk} {denials denials' : List Denial}
    (hperm : w.candidates.Perm w'.candidates) (hnd : (w.candidates.map Claim.id).Nodup) (hedges : w.edges = w'.edges)
    (hhops : w.hopOf = w'.hopOf) (hv : ∀ k, verdicts.reason k = verdicts'.reason k) :
    SameParts (assemble fmt c w verdicts denials) (assemble fmt c' w' verdicts' denials') := by
  have hnd' : (w'.candidates.map Claim.id).Nodup := (hperm.map _).nodup_iff.mp hnd
  have hclaims : (Dict.collect Claim.id id w.candidates).Perm (Dict.collect Claim.id id w'.candidates) := by
    rw [Dict.collect_of_nodup _ _ hnd, Dict.collect_of_nodup _ _ hnd']
    exact hperm.map _
  have hkeys := Dict.nodup_keys_collect Claim.id id w.candidates
  have hids : ∀ p ∈ Dict.collect Claim.id id w.candidates, p.2.id = p.1 := fun p hp => by
    obtain ⟨d, _, rfl⟩ := Dict.mem_collect _ hp
    rfl
  have hsteps : stepsOf (Dict.collect Claim.id id w.candidates) verdicts =
      stepsOf (Dict.collect Claim.id id w'.candidates) verdicts' := by
    simp only [stepsOf, sort_perm hclaims hkeys hids, Dict.lookup_perm hclaims hkeys, step_congr hv]
  have hconflicts : conflictsOf (Dict.collect Claim.id id w.candidates) verdicts w.edges =
      conflictsOf (Dict.collect Claim.id id w'.candidates) verdicts' w'.edges := by
    simp only [conflictsOf, Dict.lookup_perm hclaims hkeys, viewOf_congr hv, hedges]
  have hreconciliations : reconciliationsOf (Dict.collect Claim.id id w.candidates) verdicts w.hopOf =
      reconciliationsOf (Dict.collect Claim.id id w'.candidates) verdicts' w'.hopOf := by
    simp only [reconciliationsOf, orderedOf_perm hclaims hkeys hids, Dict.lookup_perm hclaims hkeys, viewOf_congr hv, hhops]
  have hall : (Dict.collect Claim.id id w.candidates).all (fun p => (verdicts.reason p.1).isSome) =
      (Dict.collect Claim.id id w'.candidates).all (fun p => (verdicts'.reason p.1).isSome) := by
    simp only [hv, hclaims.all_eq]
  have hnil : Dict.collect Claim.id id w.candidates = [] ↔ Dict.collect Claim.id id w'.candidates = [] := by
    rw [← List.length_eq_zero_iff, hclaims.length_eq, List.length_eq_zero_iff]
  rw [assemble_eq, assemble_eq]
  dsimp only
  rw [hsteps, hconflicts, hreconciliations, hall, orderedOf_perm hclaims hkeys hids, viewOf_congr hv, hhops,
    hclaims.length_eq]
  by_cases hempty : Dict.collect Claim.id id w'.candidates = []
  · rw [if_pos hempty, if_pos (hnil.mpr hempty)]
    exact ⟨rfl, rfl, rfl, rfl, rfl⟩
  · rw [if_neg hempty, if_neg (fun h => hempty (hnil.mp h))]
    split
    · exact ⟨rfl, rfl, rfl, rfl, rfl⟩
    · exact ⟨rfl, rfl, rfl, rfl, rfl⟩

/-- Two reads of the same chain tell the same history. -/
theorem sameParts_of_chain {fmt : Formatting} {rows rows' : RowOrder Row} {s : Store} {scope : Scope} {c c' : String}
    {nowMs : Int} (hchain : s.supersessionChain scope.ownerId c 24 = s.supersessionChain scope.ownerId c' 24) :
    SameParts (whyDidThisShift fmt rows s scope c nowMs) (whyDidThisShift fmt rows' s scope c' nowMs) := by
  have hextra : extraIds s scope.ownerId c = extraIds s scope.ownerId c' := by
    simp only [extraIds, hchain]
  have hperm : (walk rows s scope c).candidates.Perm (walk rows' s scope c').candidates := by
    rw [candidates_walk, candidates_walk, hextra, hchain]
    refine List.Perm.filterMap _ (List.Perm.append_left _ ?_)
    split
    · exact .refl _
    · exact (rows.perm _).trans (rows'.perm _).symm
  refine sameParts_assemble hperm nodup_walk ?_ ?_ (fun k => ?_)
  · simp only [walk, hchain]
  · simp only [walk, hchain]
  · have hverdicts : (checkPermissions scope nowMs (walk rows s scope c).candidates).1.Perm
        (checkPermissions scope nowMs (walk rows' s scope c').candidates).1 := by
      dsimp only [checkPermissions]
      rw [Dict.collect_of_nodup _ _ nodup_walk, Dict.collect_of_nodup _ _ nodup_walk]
      exact hperm.map _
    exact congrArg Option.join (Dict.lookup_perm hverdicts (Dict.nodup_keys_collect _ _ _) k)

end Parts

/-- Asked about from either claim, the run and its history are the same, under whatever grant and at whatever time. -/
structure SameAnswer (s : Store) (ownerId c c' : String) : Prop where
  chain : s.supersessionChain ownerId c 24 = s.supersessionChain ownerId c' 24
  history : ∀ (fmt : Formatting) (rows rows' : RowOrder Row) (scope : Scope) (nowMs : Int),
    SameParts (whyDidThisShift fmt rows s scope c nowMs) (whyDidThisShift fmt rows' s scope c' nowMs)

/-- Two claims of an owner get the same answer, exactly if the same claims are at most 24 supersessions away from both. -/
theorem same_answer_iff_near (s : Store) (ownerId c c' : String) (hc : s.ownedBy ownerId ⟨.claim, c⟩ = true)
    (hc' : s.ownedBy ownerId ⟨.claim, c'⟩ = true) :
    SameAnswer s ownerId c c' ↔ ∀ k, Near s ownerId c k ↔ Near s ownerId c' k := by
  rw [← supersessionChain_eq_iff hc hc']
  constructor
  · intro h
    exact h.chain
  · intro h
    refine ⟨h, fun fmt rows rows' scope nowMs => sameParts_of_chain ?_⟩
    by_cases howner : scope.ownerId = ownerId
    · rwa [howner]
    · rw [supersessionChain_of_other hc howner, supersessionChain_of_other hc' howner]

/-- The `i`-th version of a decision. -/
def version (i : Nat) : Claim where
  id := "clm_" ++ String.ofList (List.replicate i 'v')
  ownerId := "alice"
  statement := "project Atlas will use Postgres."
  subjectEntityIds := ["ent_atlas"]
  supersedes := if i = 0 then [] else ["clm_" ++ String.ofList (List.replicate (i - 1) 'v')]
  assertedAtMs := i
  provenance := { derivedBy := "mock", createdAtMs := 0 }
  acl := { ownerId := "alice", sources := [mockConnector], entityKinds := [.project], occurredAtMs := i }

theorem length_version (i : Nat) : (version i).id.length = i + 4 := by
  have hversion : (String.ofList (List.replicate i 'v')).length = i := by
    rw [String.length_ofList, List.length_replicate]
  rw [version, String.length_append, hversion, Nat.add_comm]
  rfl

def versionKey (i : Nat) : NodeKey := ⟨.claim, (version i).id⟩

theorem versionKey_injective : Function.Injective versionKey := by
  intro i j h
  have hlen := congrArg (fun k => k.id.length) h
  simp only [versionKey, length_version] at hlen
  omega

/-- A decision that was revised again and again, each version superseding the one before. -/
def revised (versions : Nat) : Store where
  nodes := (List.range versions).map (fun i => Row.of (.claim (version i)) (version i).statement)
  edges := (List.range (versions - 1)).map (fun i => (versionKey (i + 1), .supersedes, versionKey i))
  unique := by
    rw [List.map_map]
    exact List.nodup_range.map versionKey_injective
  joined := by
    intro e he
    obtain ⟨i, hi, rfl⟩ := List.mem_map.mp he
    rw [List.mem_range] at hi
    rw [List.map_map]
    exact ⟨List.mem_map.mpr ⟨i + 1, List.mem_range.mpr (by omega), rfl⟩, List.mem_map.mpr ⟨i, List.mem_range.mpr (by omega), rfl⟩⟩

section Revised
variable {versions i : Nat}

theorem ownedBy_revised (h : i < versions) : (revised versions).ownedBy "alice" (versionKey i) = true :=
  Store.ownedBy_iff.mpr ⟨_, List.mem_map.mpr ⟨i, List.mem_range.mpr h, rfl⟩, rfl, rfl⟩

theorem edge_revised (h : i + 1 < versions) :
    (versionKey (i + 1), .supersedes, versionKey i) ∈ runEdges (revised versions) "alice" := by
  refine mem_runEdges.mpr ⟨List.mem_map.mpr ⟨i, ?_, rfl⟩, rfl, ownedBy_revised h, ownedBy_revised (by omega)⟩
  rw [List.mem_range]
  omega

theorem connected_revised (h : i < versions) : Connected (revised versions) "alice" (version i).id (version 0).id := by
  refine ⟨i, ?_⟩
  induction i with
  | zero => exact .here
  | succ i ih => exact .out (List.mem_filter.mpr ⟨edge_revised h, by simp [versionKey]⟩) (ih (by omega))

/-- An id is longer by one than the id of the version before, so a version is as near as it is old. -/
theorem near_revised {j : Nat} (h : Near (revised versions) "alice" (version i).id (version j).id) : i ≤ j + 24 := by
  obtain ⟨seed, hseed, m, hm, hhops⟩ := h
  obtain rfl := List.mem_singleton.mp hseed
  have hplace : ∀ e ∈ runEdges (revised versions) "alice",
      e.1.id.length ≤ e.2.2.id.length + 1 ∧ e.2.2.id.length ≤ e.1.id.length + 1 := by
    intro e he
    obtain ⟨i, _, rfl⟩ := List.mem_map.mp (mem_runEdges.mp he).1
    simp only [versionKey, length_version]
    omega
  have hlen := hhops.symm.place_le (fun k => k.id.length) hplace
  simp only [length_version] at hlen
  omega

end Revised

theorem same_answer_iff_near_revised :
    SameAnswer (revised 3) "alice" (version 2).id (version 0).id ↔
      ∀ k, Near (revised 3) "alice" (version 2).id k ↔ Near (revised 3) "alice" (version 0).id k :=
  same_answer_iff_near (revised 3) "alice" (version 2).id (version 0).id (ownedBy_revised (by omega))
    (ownedBy_revised (by omega))

/-- Revised 25 times, a decision has a first and a last version that do not lead to one another. -/
theorem head_misses_tail : ¬ ∀ (s : Store) (ownerId c c' : String), s.ownedBy ownerId ⟨.claim, c⟩ = true →
    s.ownedBy ownerId ⟨.claim, c'⟩ = true → Connected s ownerId c c' → SameAnswer s ownerId c c' := by
  intro h
  have hhead : (revised 26).ownedBy "alice" (versionKey 25) = true := ownedBy_revised (by omega)
  have htail : (revised 26).ownedBy "alice" (versionKey 0) = true := ownedBy_revised (by omega)
  have hsame := h (revised 26) "alice" _ _ hhead htail (connected_revised (by omega))
  have hnear := (supersessionChain_eq_iff hhead htail).mp hsame.chain (version 0).id
  have hself : Near (revised 26) "alice" (version 0).id (version 0).id := ⟨_, List.mem_singleton_self _, 0, by omega, .here⟩
  have hfar := near_revised (hnear.mpr hself)
  omega

end Memorai.History
