import Memorai.Graph.PropertyGraph

/-! The part of a property graph that some of its nodes make up, and what the updates of the graph do to it. -/
namespace Memorai.Graph.PropertyGraph
variable {K V R : Type} {key : V → K}

@[ext] theorem ext {g h : PropertyGraph key R} (hnodes : g.nodes = h.nodes) (hedges : g.edges = h.edges) : g = h := by
  obtain ⟨nodes, edges, _, _⟩ := g
  obtain ⟨nodes', edges', _, _⟩ := h
  obtain rfl : nodes = nodes' := hnodes
  obtain rfl : edges = edges' := hedges
  rfl

variable [DecidableEq K]

/-- Some of the nodes, and the edges between them. -/
def part (g : PropertyGraph key R) (p : V → Bool) : PropertyGraph key R where
  nodes := g.nodes.filter p
  edges := g.edges.filter (fun e => e.1 ∈ (g.nodes.filter p).map key ∧ e.2.2 ∈ (g.nodes.filter p).map key)
  unique := (List.filter_sublist.map key).nodup g.unique
  joined := fun _ he => of_decide_eq_true (List.mem_filter.mp he).2

section Part
variable {g : PropertyGraph key R} {p q : V → Bool}

theorem mem_keys_part {k : K} : k ∈ (g.part p).keys ↔ ∃ v ∈ g.nodes, p v ∧ key v = k := by
  simp only [keys, part, List.mem_map, List.mem_filter, and_assoc]

theorem mem_edges_part {e : K × R × K} : e ∈ (g.part p).edges ↔ e ∈ g.edges ∧ e.1 ∈ (g.part p).keys ∧ e.2.2 ∈ (g.part p).keys := by
  simp only [part, keys, List.mem_filter, decide_eq_true_eq]

@[simp] theorem part_empty : (empty : PropertyGraph key R).part p = empty := rfl

/-- Nodes are kept by what they are, so a part of a part is made up of the nodes that are in both. -/
theorem part_part : (g.part p).part q = g.part (fun v => p v && q v) := by
  have hnodes : (g.nodes.filter p).filter q = g.nodes.filter (fun v => p v && q v) := by
    rw [List.filter_filter]
    simp only [Bool.and_comm]
  refine ext hnodes ?_
  change (g.edges.filter _).filter _ = g.edges.filter _
  rw [List.filter_filter]
  refine List.filter_congr (fun e _ => ?_)
  simp only [part, hnodes, ← Bool.decide_and, decide_eq_decide]
  refine and_iff_left_of_imp (fun h => ?_)
  have hsub : ∀ k ∈ (g.nodes.filter (fun v => p v && q v)).map key, k ∈ (g.nodes.filter p).map key := by
    intro k hk
    rw [← hnodes] at hk
    exact (List.filter_sublist.map key).subset hk
  exact ⟨hsub _ h.1, hsub _ h.2⟩

theorem part_of_none (h : ∀ v ∈ g.nodes, ¬ p v) : g.part p = empty := by
  have hnodes : g.nodes.filter p = [] := List.filter_eq_nil_iff.mpr h
  refine ext hnodes (List.filter_eq_nil_iff.mpr (fun e _ => ?_))
  rw [hnodes, decide_eq_true_eq]
  exact fun hin => absurd hin.1 List.not_mem_nil

theorem part_congr (h : ∀ v ∈ g.nodes, p v = q v) : g.part p = g.part q := by
  have hnodes : g.nodes.filter p = g.nodes.filter q := List.filter_congr h
  exact ext hnodes (by simp only [part, hnodes])

end Part

section Updates
variable {g : PropertyGraph key R} {p : V → Bool} {v : V}

/-- The edges of a part are found among the keys of the part alone. -/
private theorem part_of_nodes {h : PropertyGraph key R} (hnodes : g.nodes.filter p = h.nodes)
    (hedges : g.edges.filter (fun e => e.1 ∈ h.keys ∧ e.2.2 ∈ h.keys) = h.edges) : g.part p = h := by
  refine ext hnodes ?_
  rw [← hedges]
  change g.edges.filter (fun e => e.1 ∈ (g.nodes.filter p).map key ∧ e.2.2 ∈ (g.nodes.filter p).map key) = _
  rw [hnodes]
  rfl

theorem nodes_merge_of_mem (h : key v ∈ g.keys) : (g.merge v).nodes = g.nodes.map (fun w => if key w = key v then v else w) := by
  have hin : key v ∈ g.nodes.map key := h
  unfold merge
  rw [dif_pos hin]
  rfl

theorem nodes_merge_of_not_mem (h : key v ∉ g.keys) : (g.merge v).nodes = g.nodes ++ [v] := by
  have hout : key v ∉ g.nodes.map key := h
  unfold merge
  rw [dif_neg hout]

theorem nodes_modify (k : K) (f : V → V) (hf : ∀ v, key (f v) = key v) :
    (g.modify k f hf).nodes = g.nodes.map (fun v => if key v = k then f v else v) := rfl

/-- A merge of a node of the part, over a node of the part if over any, is a merge into the part. -/
theorem part_merge (hv : p v) (h : ∀ w ∈ g.nodes, key w = key v → p w) : (g.merge v).part p = (g.part p).merge v := by
  have hnodes : (g.merge v).nodes.filter p = ((g.part p).merge v).nodes := by
    by_cases hmem : key v ∈ g.keys
    · obtain ⟨w, hw, hkey⟩ := List.mem_map.mp hmem
      have hpart : key v ∈ (g.part p).keys := mem_keys_part.mpr ⟨w, hw, h w hw hkey, hkey⟩
      rw [nodes_merge_of_mem hmem, nodes_merge_of_mem hpart, List.filter_map]
      refine congrArg _ (List.filter_congr (fun w hw => ?_))
      by_cases hkey : key w = key v
      · rw [Function.comp_apply, if_pos hkey, hv, h w hw hkey]
      · rw [Function.comp_apply, if_neg hkey]
    · have hpart : key v ∉ (g.part p).keys := by
        intro hin
        obtain ⟨w, hw, _, hkey⟩ := mem_keys_part.mp hin
        exact hmem (List.mem_map.mpr ⟨w, hw, hkey⟩)
      rw [nodes_merge_of_not_mem hmem, nodes_merge_of_not_mem hpart, List.filter_append,
        List.filter_cons_of_pos hv, List.filter_nil]
      rfl
  refine part_of_nodes hnodes ?_
  rw [edges_merge, edges_merge]
  refine List.filter_congr (fun e he => ?_)
  have hkeys : ∀ k ∈ g.keys, (k ∈ ((g.part p).merge v).keys ↔ k ∈ (g.part p).keys) := by
    intro k hk
    rw [mem_keys_merge, or_iff_right_of_imp]
    rintro rfl
    obtain ⟨w, hw, hkey⟩ := List.mem_map.mp hk
    exact mem_keys_part.mpr ⟨w, hw, h w hw hkey, hkey⟩
  rw [decide_eq_decide, hkeys _ (g.joined e he).1, hkeys _ (g.joined e he).2]
  rfl

/-- A merge of a node outside of the part, over a node outside of it if over any, leaves the part alone. -/
theorem part_merge_outside (hv : ¬ p v) (h : ∀ w ∈ g.nodes, key w = key v → ¬ p w) : (g.merge v).part p = g.part p := by
  have hnodes : (g.merge v).nodes.filter p = (g.part p).nodes := by
    by_cases hmem : key v ∈ g.keys
    · rw [nodes_merge_of_mem hmem, List.filter_map]
      have hkept : ∀ w ∈ g.nodes.filter p, (if key w = key v then v else w) = w := by
        intro w hw
        obtain ⟨hw, hp⟩ := List.mem_filter.mp hw
        exact if_neg (fun hkey => h w hw hkey hp)
      have hfilter : g.nodes.filter (p ∘ fun w => if key w = key v then v else w) = g.nodes.filter p := by
        refine List.filter_congr (fun w hw => ?_)
        by_cases hkey : key w = key v
        · rw [Function.comp_apply, if_pos hkey, Bool.eq_false_iff.mpr hv, Bool.eq_false_iff.mpr (h w hw hkey)]
        · rw [Function.comp_apply, if_neg hkey]
      rw [hfilter]
      exact (List.map_congr_left hkept).trans (List.map_id' _)
    · rw [nodes_merge_of_not_mem hmem, List.filter_append, List.filter_cons_of_neg hv, List.filter_nil, List.append_nil]
      rfl
  refine part_of_nodes hnodes ?_
  rw [edges_merge]
  rfl

/-- A rewrite that keeps a node on its side of the part is a rewrite of the part. -/
theorem part_modify {k : K} {f : V → V} (hf : ∀ v, key (f v) = key v) (h : ∀ v, p (f v) = p v) :
    (g.modify k f hf).part p = (g.part p).modify k f hf := by
  have hnodes : (g.modify k f hf).nodes.filter p = ((g.part p).modify k f hf).nodes := by
    rw [nodes_modify, nodes_modify, List.filter_map]
    refine congrArg _ (List.filter_congr (fun v _ => ?_))
    rw [Function.comp_apply]
    split
    · exact h v
    · rfl
  refine part_of_nodes hnodes ?_
  rw [keys_modify]
  rfl

theorem modify_of_not_mem {k : K} {f : V → V} (hf : ∀ v, key (f v) = key v) (h : k ∉ g.keys) : g.modify k f hf = g := by
  refine ext ?_ rfl
  rw [nodes_modify]
  refine (List.map_congr_left (fun v hv => if_neg (fun hkey => ?_))).trans (List.map_id' _)
  exact h (List.mem_map.mpr ⟨v, hv, hkey⟩)

private theorem keys_part : (g.part p).keys = g.keys.filter (fun k => k ∈ (g.part p).keys) := by
  change (g.nodes.filter p).map key = (g.nodes.map key).filter _
  rw [List.filter_map]
  refine congrArg _ (List.filter_congr (fun v hv => ?_))
  rw [Bool.eq_iff_iff, Function.comp_apply, decide_eq_true_eq, mem_keys_part]
  constructor
  · exact fun hp => ⟨v, hv, hp, rfl⟩
  · rintro ⟨w, hw, hp, hkey⟩
    rwa [← List.inj_on_of_nodup_map g.unique hw hv hkey]

omit [DecidableEq K] in
private theorem filter_pairs (r : R) (keep : K → Bool) (ks js : List K) :
    (ks.flatMap (fun k => js.map (fun j => (k, r, j)))).filter (fun e => keep e.1 && keep e.2.2) =
      (ks.filter keep).flatMap (fun k => (js.filter keep).map (fun j => (k, r, j))) := by
  induction ks with
  | nil => rfl
  | cons k ks ih =>
    rw [List.flatMap_cons, List.filter_append, ih, List.filter_map, List.filter_cons]
    by_cases hk : keep k
    · rw [if_pos hk, List.flatMap_cons]
      simp only [Function.comp_def, hk, Bool.true_and]
    · rw [if_neg hk]
      simp only [Function.comp_def, hk, Bool.false_and, List.filter_false, List.map_nil, List.nil_append]

private theorem matched_part (a b : K → Bool) (r : R) : (g.part p).matched a r b =
    (g.matched a r b).filter (fun e => decide (e.1 ∈ (g.part p).keys) && decide (e.2.2 ∈ (g.part p).keys)) := by
  have hkeys : ∀ c : K → Bool, (g.keys.filter c).filter (fun k => k ∈ (g.part p).keys) = (g.part p).keys.filter c := by
    intro c
    rw [List.filter_comm, ← keys_part]
  have hpairs := filter_pairs r (fun k => decide (k ∈ (g.part p).keys)) (g.keys.filter a) (g.keys.filter b)
  rw [hkeys, hkeys] at hpairs
  exact hpairs.symm

section Link
variable [DecidableEq R] {a b : K → Bool} {r : R}

/-- Links and parts do not get in each other's way. -/
theorem part_link : (g.link a r b).part p = (g.part p).link a r b := by
  refine part_of_nodes rfl ?_
  change (g.edges ++ (g.matched a r b).filter (· ∉ g.edges)).filter (fun e => e.1 ∈ (g.part p).keys ∧ e.2.2 ∈ (g.part p).keys) =
    (g.part p).edges ++ ((g.part p).matched a r b).filter (· ∉ (g.part p).edges)
  rw [List.filter_append, List.filter_comm, matched_part]
  refine congrArg₂ _ rfl ?_
  simp only [Bool.decide_and]
  refine List.filter_congr (fun e he => ?_)
  have hin := (List.mem_filter.mp he).2
  rw [Bool.and_eq_true, decide_eq_true_eq, decide_eq_true_eq] at hin
  rw [decide_eq_decide, mem_edges_part, and_iff_left hin]

theorem link_of_not_mem (h : ∀ k ∈ g.keys, ¬ a k) : g.link a r b = g := by
  refine ext rfl ?_
  have hnone : (g.matched a r b).filter (· ∉ g.edges) = [] := by
    refine List.filter_eq_nil_iff.mpr (fun e he => ?_)
    exact absurd ((mem_matched g a r b e).mp he).1.2 (h _ ((mem_matched g a r b e).mp he).1.1)
  change g.edges ++ _ = _
  rw [hnone, List.append_nil]

end Link
end Updates
end Memorai.Graph.PropertyGraph
