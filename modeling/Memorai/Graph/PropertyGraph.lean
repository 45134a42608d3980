import Mathlib.Data.List.Nodup
import Mathlib.Data.List.Basic

/-! Finite property graphs under merge and match updates. A merge creates what is missing,
a match on a missing node does nothing. -/
namespace Memorai.Graph

/-- Keyed nodes and typed edges. Keys are unique and both ends of an edge are nodes of the
graph, so neither a second copy of a node nor a dangling edge can be built. -/
structure PropertyGraph {K V : Type} (key : V → K) (R : Type) where
  nodes : List V
  edges : List (K × R × K)
  unique : (nodes.map key).Nodup
  joined : ∀ e ∈ edges, e.1 ∈ nodes.map key ∧ e.2.2 ∈ nodes.map key

namespace PropertyGraph
variable {K V R : Type} {key : V → K}

def empty : PropertyGraph key R := ⟨[], [], List.nodup_nil, by simp⟩

instance : Inhabited (PropertyGraph key R) := ⟨empty⟩

def keys (g : PropertyGraph key R) : List K := g.nodes.map key

@[simp] theorem keys_empty : (empty : PropertyGraph key R).keys = [] := rfl
@[simp] theorem edges_empty : (empty : PropertyGraph key R).edges = [] := rfl

/-- Every edge of type `r` from a node matching `p` to a node matching `q`. -/
def matched (g : PropertyGraph key R) (p : K → Bool) (r : R) (q : K → Bool) : List (K × R × K) :=
  (g.keys.filter p).flatMap (fun a => (g.keys.filter q).map (fun b => (a, r, b)))

theorem mem_matched (g : PropertyGraph key R) (p : K → Bool) (r : R) (q : K → Bool) (e : K × R × K) :
    e ∈ g.matched p r q ↔ (e.1 ∈ g.keys ∧ p e.1) ∧ e.2.1 = r ∧ e.2.2 ∈ g.keys ∧ q e.2.2 := by
  obtain ⟨a, s, b⟩ := e
  simp only [matched, List.mem_flatMap, List.mem_map, List.mem_filter, Prod.mk.injEq]
  constructor
  · rintro ⟨a', ha, b', hb, rfl, rfl, rfl⟩
    exact ⟨ha, rfl, hb⟩
  · rintro ⟨ha, rfl, hb⟩
    exact ⟨a, ha, b, hb, rfl, rfl, rfl⟩

variable [DecidableEq K]

def find? (g : PropertyGraph key R) (k : K) : Option V := g.nodes.find? (fun v => key v = k)

private def rewrite (key : V → K) (k : K) (f : V → V) (nodes : List V) : List V :=
  nodes.map (fun v => if key v = k then f v else v)

private theorem rewrite_keys (k : K) (f : V → V) (nodes : List V) (hf : ∀ v, key v = k → key (f v) = k) :
    (rewrite key k f nodes).map key = nodes.map key := by
  rw [rewrite, List.map_map]
  apply List.map_congr_left
  intro v _
  by_cases h : key v = k
  · simp [h, hf v h]
  · simp [h]

/-- Overwrite the node with this key, or add it when there is none. -/
def merge (g : PropertyGraph key R) (v : V) : PropertyGraph key R :=
  if h : key v ∈ g.nodes.map key then
    { nodes := rewrite key (key v) (fun _ => v) g.nodes
      edges := g.edges
      unique := by rw [rewrite_keys _ _ _ (fun _ _ => rfl)]; exact g.unique
      joined := by rw [rewrite_keys _ _ _ (fun _ _ => rfl)]; exact g.joined }
  else
    { nodes := g.nodes ++ [v]
      edges := g.edges
      unique := by
        rw [List.map_append, List.map_singleton, List.nodup_append]
        refine ⟨g.unique, List.nodup_singleton _, ?_⟩
        intro a ha b hb
        rw [List.mem_singleton.mp hb]
        exact fun e => h (e ▸ ha)
      joined := fun e he => by
        have := g.joined e he
        simp only [List.map_append, List.mem_append]
        exact ⟨Or.inl this.1, Or.inl this.2⟩ }

/-- Rewrite the node with this key in place. The rewrite may not change the key. -/
def modify (g : PropertyGraph key R) (k : K) (f : V → V) (hf : ∀ v, key (f v) = key v) :
    PropertyGraph key R where
  nodes := rewrite key k f g.nodes
  edges := g.edges
  unique := by rw [rewrite_keys _ _ _ (fun v h => (hf v).trans h)]; exact g.unique
  joined := by rw [rewrite_keys _ _ _ (fun v h => (hf v).trans h)]; exact g.joined

/-- Add the missing ones among the matched edges. -/
def link [DecidableEq R] (g : PropertyGraph key R) (p : K → Bool) (r : R) (q : K → Bool) : PropertyGraph key R where
  nodes := g.nodes
  edges := g.edges ++ (g.matched p r q).filter (· ∉ g.edges)
  unique := g.unique
  joined := fun e he => by
    rcases List.mem_append.mp he with he | he
    · exact g.joined e he
    · have hm := (mem_matched g p r q e).mp (List.mem_filter.mp he).1
      exact ⟨hm.1.1, hm.2.2.1⟩

theorem find?_eq_some_iff (g : PropertyGraph key R) (k : K) (v : V) :
    g.find? k = some v ↔ v ∈ g.nodes ∧ key v = k := by
  constructor
  · intro h
    exact ⟨List.mem_of_find?_eq_some h, by simpa using List.find?_some h⟩
  · rintro ⟨hv, rfl⟩
    cases h : g.find? (key v) with
    | none => simpa using List.find?_eq_none.mp h v hv
    | some w =>
      have hw : key w = key v := by simpa using List.find?_some h
      rw [List.inj_on_of_nodup_map g.unique (List.mem_of_find?_eq_some h) hv hw]

theorem mem_keys_iff (g : PropertyGraph key R) (k : K) : k ∈ g.keys ↔ ∃ v, g.find? k = some v := by
  simp only [keys, List.mem_map, find?_eq_some_iff]

@[simp] theorem find?_empty (k : K) : (empty : PropertyGraph key R).find? k = none := rfl

@[simp] theorem edges_merge (g : PropertyGraph key R) (v : V) : (g.merge v).edges = g.edges := by
  unfold merge; split <;> rfl

theorem mem_nodes_merge (g : PropertyGraph key R) (v w : V) :
    w ∈ (g.merge v).nodes ↔ w = v ∨ (w ∈ g.nodes ∧ key w ≠ key v) := by
  unfold merge
  split
  · rename_i h
    obtain ⟨u, hu, hk⟩ := List.mem_map.mp h
    simp only [rewrite, List.mem_map]
    constructor
    · rintro ⟨x, hx, rfl⟩
      by_cases hxk : key x = key v
      · simp [hxk]
      · simp [hxk, hx]
    · rintro (rfl | ⟨hw, hne⟩)
      · exact ⟨u, hu, by simp [hk]⟩
      · exact ⟨w, hw, by simp [hne]⟩
  · rename_i h
    simp only [List.mem_append, List.mem_singleton]
    constructor
    · rintro (hw | rfl)
      · exact Or.inr ⟨hw, fun e => h (List.mem_map.mpr ⟨w, hw, e⟩)⟩
      · exact Or.inl rfl
    · rintro (rfl | ⟨hw, _⟩)
      · exact Or.inr rfl
      · exact Or.inl hw

theorem find?_merge (g : PropertyGraph key R) (v : V) (k : K) :
    (g.merge v).find? k = if k = key v then some v else g.find? k := by
  apply Option.ext
  intro w
  by_cases hk : k = key v
  · subst hk
    simp only [find?_eq_some_iff, mem_nodes_merge, if_true, Option.some.injEq]
    constructor
    · rintro ⟨rfl | ⟨_, hne⟩, he⟩
      · rfl
      · exact absurd he hne
    · rintro rfl
      exact ⟨Or.inl rfl, rfl⟩
  · simp only [find?_eq_some_iff, mem_nodes_merge, if_neg hk]
    constructor
    · rintro ⟨rfl | ⟨hw, _⟩, he⟩
      · exact absurd he.symm hk
      · exact ⟨hw, he⟩
    · rintro ⟨hw, rfl⟩
      exact ⟨Or.inr ⟨hw, hk⟩, rfl⟩

theorem mem_keys_merge (g : PropertyGraph key R) (v : V) (k : K) :
    k ∈ (g.merge v).keys ↔ k = key v ∨ k ∈ g.keys := by
  simp only [mem_keys_iff, find?_merge]
  by_cases hk : k = key v <;> simp [hk]

@[simp] theorem edges_modify (g : PropertyGraph key R) (k : K) (f : V → V) (hf : ∀ v, key (f v) = key v) :
    (g.modify k f hf).edges = g.edges := rfl

/-- Only what a rewrite makes of the node with the key matters. -/
theorem modify_congr (g : PropertyGraph key R) {k : K} {f f' : V → V} (hf : ∀ v, key (f v) = key v)
    (hf' : ∀ v, key (f' v) = key v) (h : ∀ v ∈ g.nodes, key v = k → f v = f' v) : g.modify k f hf = g.modify k f' hf' := by
  have hnodes : rewrite key k f g.nodes = rewrite key k f' g.nodes := by
    apply List.map_congr_left
    intro v hv
    by_cases hk : key v = k
    · rw [if_pos hk, if_pos hk, h v hv hk]
    · rw [if_neg hk, if_neg hk]
  simp only [modify, hnodes]

theorem find?_modify (g : PropertyGraph key R) (k j : K) (f : V → V) (hf : ∀ v, key (f v) = key v) :
    (g.modify k f hf).find? j = if j = k then (g.find? k).map f else g.find? j := by
  apply Option.ext
  intro w
  by_cases hj : j = k
  · subst hj
    simp only [find?_eq_some_iff, if_true, Option.map_eq_some_iff, modify, rewrite, List.mem_map]
    constructor
    · rintro ⟨⟨v, hv, rfl⟩, hk⟩
      by_cases hvk : key v = j
      · exact ⟨v, ⟨hv, hvk⟩, by simp [hvk]⟩
      · rw [if_neg hvk] at hk; exact absurd hk hvk
    · rintro ⟨v, ⟨hv, hvk⟩, rfl⟩
      exact ⟨⟨v, hv, by simp [hvk]⟩, by rw [hf, hvk]⟩
  · simp only [find?_eq_some_iff, if_neg hj, modify, rewrite, List.mem_map]
    constructor
    · rintro ⟨⟨v, hv, rfl⟩, hk⟩
      by_cases hvk : key v = k
      · rw [if_pos hvk, hf, hvk] at hk; exact absurd hk.symm hj
      · rw [if_neg hvk] at hk ⊢; exact ⟨hv, hk⟩
    · rintro ⟨hw, rfl⟩
      exact ⟨⟨w, hw, by simp [hj]⟩, rfl⟩

theorem mem_nodes_modify (g : PropertyGraph key R) (k : K) (f : V → V) (hf : ∀ v, key (f v) = key v) (w : V) :
    w ∈ (g.modify k f hf).nodes ↔ ∃ v ∈ g.nodes, w = if key v = k then f v else v := by
  simp only [modify, rewrite, List.mem_map, eq_comm]

@[simp] theorem keys_modify (g : PropertyGraph key R) (k : K) (f : V → V) (hf : ∀ v, key (f v) = key v) :
    (g.modify k f hf).keys = g.keys :=
  rewrite_keys k f g.nodes (fun v h => (hf v).trans h)

section Link
variable [DecidableEq R]

@[simp] theorem find?_link (g : PropertyGraph key R) (p : K → Bool) (r : R) (q : K → Bool) (k : K) :
    (g.link p r q).find? k = g.find? k := rfl

@[simp] theorem nodes_link (g : PropertyGraph key R) (p : K → Bool) (r : R) (q : K → Bool) :
    (g.link p r q).nodes = g.nodes := rfl

@[simp] theorem keys_link (g : PropertyGraph key R) (p : K → Bool) (r : R) (q : K → Bool) :
    (g.link p r q).keys = g.keys := rfl

theorem mem_edges_link (g : PropertyGraph key R) (p : K → Bool) (r : R) (q : K → Bool) (e : K × R × K) :
    e ∈ (g.link p r q).edges ↔
      e ∈ g.edges ∨ ((e.1 ∈ g.keys ∧ p e.1) ∧ e.2.1 = r ∧ e.2.2 ∈ g.keys ∧ q e.2.2) := by
  simp only [link, List.mem_append, List.mem_filter, mem_matched, decide_eq_true_eq]
  constructor
  · rintro (h | h)
    · exact Or.inl h
    · exact Or.inr h.1
  · rintro (h | h)
    · exact Or.inl h
    · by_cases he : e ∈ g.edges
      · exact Or.inl he
      · exact Or.inr ⟨h, he⟩

end Link

end PropertyGraph
end Memorai.Graph
