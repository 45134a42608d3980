import Memorai.Graph.Confined
import Memorai.Storage.CitesReads
import Memorai.Storage.Commitments
import Memorai.Storage.Tenants

/-! The queries of one owner read the owner's part of a store. Only the paths between neighbours may pass through
anybody's nodes, so these have to be kept from leaving the part. -/
namespace Memorai.Storage
open Schema Memorai.Graph

/-- No edge joins nodes of two owners. -/
def Uncrossed (s : Store) : Prop := ∀ e ∈ s.edges, ∀ ownerId, s.ownedBy ownerId e.1 = s.ownedBy ownerId e.2.2

namespace Store
variable {s : Store} {ownerId : String}

theorem nodes_ofOwner : (s.ofOwner ownerId).nodes = s.nodes.filter (fun r => r.ownerId = ownerId) := rfl

theorem mem_keys_ofOwner {k : NodeKey} : k ∈ (s.ofOwner ownerId).keys ↔ s.ownedBy ownerId k := by
  rw [ownedBy_iff]
  refine PropertyGraph.mem_keys_part.trans ?_
  simp only [decide_eq_true_eq, and_comm]

theorem edges_ofOwner : (s.ofOwner ownerId).edges = s.edges.filter (fun e => s.ownedBy ownerId e.1 ∧ s.ownedBy ownerId e.2.2) := by
  refine List.filter_congr (fun e _ => ?_)
  rw [decide_eq_decide, ← mem_keys_ofOwner, ← mem_keys_ofOwner]
  rfl

@[simp] theorem ownedBy_ofOwner {k : NodeKey} : (s.ofOwner ownerId).ownedBy ownerId k = s.ownedBy ownerId k := by
  rw [Bool.eq_iff_iff, ← mem_keys_ofOwner, ← mem_keys_ofOwner, ofOwner, ofOwner, PropertyGraph.part_part]
  simp only [Bool.and_self]

@[simp] theorem getMany_ofOwner {rows : RowOrder Row} {nodeIds : List String} :
    (s.ofOwner ownerId).getMany rows ownerId nodeIds = s.getMany rows ownerId nodeIds := by
  rw [getMany, getMany, nodes_ofOwner, List.filter_filter]
  refine congrArg rows.order (List.filter_congr (fun r _ => ?_))
  by_cases h : r.ownerId = ownerId <;> simp [h]

@[simp] theorem seedKeys_ofOwner {nodeIds : List String} : (s.ofOwner ownerId).seedKeys ownerId nodeIds = s.seedKeys ownerId nodeIds := by
  rw [seedKeys, seedKeys, nodes_ofOwner, List.filter_filter]
  refine congrArg (List.map Row.key) (List.filter_congr (fun r _ => ?_))
  by_cases h : r.ownerId = ownerId <;> simp [h]

@[simp] theorem matchOpen_ofOwner {q : OpenQuery} : (s.ofOwner ownerId).matchOpen ownerId q = s.matchOpen ownerId q := by
  rw [matchOpen, matchOpen, nodes_ofOwner, List.filter_filter]
  refine List.filter_congr (fun r _ => ?_)
  by_cases h : r.ownerId = ownerId <;> simp [h]

@[simp] theorem openCommitments_ofOwner {rows : RowOrder Row} {q : OpenQuery} :
    (s.ofOwner ownerId).openCommitments rows ownerId q = s.openCommitments rows ownerId q := by
  rw [openCommitments, openCommitments, matchOpen_ofOwner]

/-- Whoever asks for edges between nodes of the owner finds them in its part. -/
private theorem filter_edges_ofOwner {p : NodeKey × Rel × NodeKey → Bool}
    (h : ∀ e, p e → s.ownedBy ownerId e.1 ∧ s.ownedBy ownerId e.2.2) : (s.ofOwner ownerId).edges.filter p = s.edges.filter p := by
  rw [edges_ofOwner, List.filter_filter]
  refine List.filter_congr (fun e _ => ?_)
  rw [Bool.and_eq_left_iff_imp, decide_eq_true_eq]
  exact h e

@[simp] theorem conflictLinks_ofOwner {claimIds : List String} :
    (s.ofOwner ownerId).conflictLinks ownerId claimIds = s.conflictLinks ownerId claimIds := by
  simp only [conflictLinks, ownedBy_ofOwner]
  rw [filter_edges_ofOwner]
  intro e he
  obtain ⟨_, _, _, hciter, hcited, _⟩ := of_decide_eq_true he
  exact ⟨hciter, hcited⟩

@[simp] theorem edgesAmong_ofOwner {nodeIds : List String} :
    (s.ofOwner ownerId).edgesAmong ownerId nodeIds = s.edgesAmong ownerId nodeIds := by
  simp only [edgesAmong, ownedBy_ofOwner]
  rw [filter_edges_ofOwner]
  intro e he
  obtain ⟨hsource, htarget, _⟩ := of_decide_eq_true he
  exact ⟨hsource, htarget⟩

/-- From nodes of the owner, one hop finds the same in the owner's part. -/
private theorem supersessionHop_ofOwner {seen : List NodeKey} (hseen : ∀ k ∈ seen, s.ownedBy ownerId k) :
    (s.ofOwner ownerId).supersessionHop ownerId seen = s.supersessionHop ownerId seen ∧
      ∀ k ∈ s.supersessionHop ownerId seen, s.ownedBy ownerId k := by
  have howned : ∀ k ∈ s.supersessionHop ownerId seen, s.ownedBy ownerId k := by
    intro k hk
    rcases of_decide_eq_true (List.mem_filter.mp hk).2 with hk | ⟨hk, _⟩
    · exact hseen k hk
    · exact hk
  refine ⟨?_, howned⟩
  have hkeys : (s.ofOwner ownerId).keys = s.keys.filter (s.ownedBy ownerId) := by
    have hrows : ∀ r ∈ s.nodes, decide (r.ownerId = ownerId) = s.ownedBy ownerId r.key := by
      intro r hr
      rw [Bool.eq_iff_iff, decide_eq_true_eq, ownedBy_iff]
      constructor
      · exact fun h => ⟨r, hr, rfl, h⟩
      · rintro ⟨w, hw, hkey, h⟩
        rwa [← List.inj_on_of_nodup_map s.unique hw hr hkey]
    rw [PropertyGraph.keys, nodes_ofOwner, List.filter_congr hrows, PropertyGraph.keys, List.filter_map]
    rfl
  rw [supersessionHop, supersessionHop, hkeys, List.filter_filter]
  refine List.filter_congr (fun k _ => ?_)
  rw [Bool.eq_iff_iff, Bool.and_eq_true, decide_eq_true_eq, decide_eq_true_eq, ownedBy_ofOwner]
  have hedges : s.ownedBy ownerId k → ((s.ofOwner ownerId).edges.any (fun e => e.2.1 = .supersedes ∧
      (e.1 = k ∧ e.2.2 ∈ seen ∨ e.2.2 = k ∧ e.1 ∈ seen)) ↔ s.edges.any (fun e => e.2.1 = .supersedes ∧
      (e.1 = k ∧ e.2.2 ∈ seen ∨ e.2.2 = k ∧ e.1 ∈ seen))) := by
    intro hk
    simp only [edges_ofOwner, List.any_eq_true, List.mem_filter, decide_eq_true_eq, and_assoc]
    refine exists_congr (fun e => and_congr_right (fun _ => ?_))
    rw [← and_assoc]
    refine and_iff_right_of_imp ?_
    rintro ⟨_, ⟨rfl, hin⟩ | ⟨rfl, hin⟩⟩
    · exact ⟨hk, hseen _ hin⟩
    · exact ⟨hseen _ hin, hk⟩
  constructor
  · rintro ⟨hin | ⟨hk, hany⟩, _⟩
    · exact .inl hin
    · exact .inr ⟨hk, (hedges hk).mp hany⟩
  · rintro (hin | ⟨hk, hany⟩)
    · exact ⟨.inl hin, hseen k hin⟩
    · exact ⟨.inr ⟨hk, (hedges hk).mpr hany⟩, hk⟩

@[simp] theorem supersessionChain_ofOwner {claimId : String} {maxHops : Nat} :
    (s.ofOwner ownerId).supersessionChain ownerId claimId maxHops = s.supersessionChain ownerId claimId maxHops := by
  rw [supersessionChain, supersessionChain, ownedBy_ofOwner]
  split
  · rename_i hclaim
    have hiterate : ∀ n, ((s.ofOwner ownerId).supersessionHop ownerId)^[n] [⟨.claim, claimId⟩] =
        (s.supersessionHop ownerId)^[n] [⟨.claim, claimId⟩] ∧
        ∀ k ∈ (s.supersessionHop ownerId)^[n] [⟨.claim, claimId⟩], s.ownedBy ownerId k := by
      intro n
      induction n with
      | zero => exact ⟨rfl, fun k hk => List.mem_singleton.mp hk ▸ hclaim⟩
      | succ n ih =>
        rw [Function.iterate_succ_apply', Function.iterate_succ_apply', ih.1]
        exact supersessionHop_ofOwner ih.2
    obtain ⟨hsame, howned⟩ := hiterate maxHops
    dsimp only
    rw [hsame, nodes_ofOwner, List.filter_filter]
    refine congrArg (List.insertionSort rowBefore) (List.filter_congr (fun r hr => ?_))
    rw [← Bool.decide_and, decide_eq_decide]
    refine and_iff_left_of_imp (fun hboth => ?_)
    obtain ⟨w, hw, hkey, h⟩ := ownedBy_iff.mp (howned _ hboth.1)
    rwa [← List.inj_on_of_nodup_map s.unique hw hr hkey]
  · rfl

@[simp] theorem citesPaths_ofOwner {nodeId : String} {n : Nat} :
    (s.ofOwner ownerId).citesPaths ownerId nodeId n = s.citesPaths ownerId nodeId n := by
  rw [citesPaths, citesPaths, seedKeys_ofOwner, edges_ofOwner, List.filter_comm]
  refine List.flatMap_congr (fun seed hseed => ?_)
  obtain ⟨r, hr, ho, hk, _⟩ := mem_seedKeys.mp hseed
  have hall : (fun p : Path NodeKey Rel => p.nodes.all ((s.ofOwner ownerId).ownedBy ownerId)) =
      fun p => p.nodes.all (s.ownedBy ownerId) := by
    funext p
    exact congrArg p.nodes.all (funext (fun _ => ownedBy_ofOwner))
  rw [trails_filter (ownedBy_iff.mpr ⟨r, hr, hk, ho⟩), hall, List.filter_filter]
  simp only [Bool.and_self]

@[simp] theorem citesChain_ofOwner {nodeId : String} {hops : Nat} :
    (s.ofOwner ownerId).citesChain ownerId nodeId hops = s.citesChain ownerId nodeId hops := by
  have hpaths : (s.ofOwner ownerId).citesPaths ownerId nodeId = s.citesPaths ownerId nodeId := funext (fun _ => citesPaths_ofOwner)
  rw [citesChain, citesChain, hpaths]

theorem neighbourIds_ofOwner (h : Uncrossed s) {nodeIds : List String} {hops : Nat} :
    (s.ofOwner ownerId).neighbourIds ownerId nodeIds hops = s.neighbourIds ownerId nodeIds hops := by
  have hhops : (s.ofOwner ownerId).hopsTo ownerId nodeIds hops = s.hopsTo ownerId nodeIds hops := by
    funext x
    rw [hopsTo, hopsTo, seedKeys_ofOwner, edges_ofOwner]
    refine congrArg (fun p => (List.range' 1 hops).find? p) (funext (fun n => ?_))
    rw [Bool.eq_iff_iff, List.any_eq_true, List.any_eq_true]
    refine exists_congr (fun seed => and_congr_right (fun hseed => ?_))
    obtain ⟨r, hr, ho, hk, _⟩ := mem_seedKeys.mp hseed
    rw [trailEnds_filter (fun e he => h e he ownerId) (ownedBy_iff.mpr ⟨r, hr, hk, ho⟩)]
    simp only [ownedBy_ofOwner]
  rw [neighbourIds, neighbourIds, hhops, nodes_ofOwner, List.filter_filter]
  simp only [Bool.and_self]

end Store
end Memorai.Storage
