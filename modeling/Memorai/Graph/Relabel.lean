import Memorai.Graph.PropertyGraph

/-! A property graph with other nodes under the same keys. The shape of the graph stays. -/
namespace Memorai.Graph.PropertyGraph
variable {K V R : Type} {key : V → K}

/-- Every node rewritten. The rewrite may not change a key. -/
def relabel (g : PropertyGraph key R) (f : V → V) (hf : ∀ v, key (f v) = key v) : PropertyGraph key R where
  nodes := g.nodes.map f
  edges := g.edges
  unique := by
    have hkeys : (g.nodes.map f).map key = g.nodes.map key := by rw [List.map_map, (funext hf : key ∘ f = key)]
    exact hkeys ▸ g.unique
  joined := by
    have hkeys : (g.nodes.map f).map key = g.nodes.map key := by rw [List.map_map, (funext hf : key ∘ f = key)]
    exact hkeys ▸ g.joined

section Relabel
variable {g : PropertyGraph key R} {f : V → V} {hf : ∀ v, key (f v) = key v}

theorem nodes_relabel : (g.relabel f hf).nodes = g.nodes.map f := rfl

@[simp] theorem edges_relabel : (g.relabel f hf).edges = g.edges := rfl

@[simp] theorem keys_relabel : (g.relabel f hf).keys = g.keys := by
  rw [keys, nodes_relabel, List.map_map, (funext hf : key ∘ f = key), keys]

theorem find?_relabel [DecidableEq K] (k : K) : (g.relabel f hf).find? k = (g.find? k).map f := by
  rw [find?, nodes_relabel, List.find?_map, find?]
  refine congrArg (Option.map f) (congrArg (fun p => g.nodes.find? p) (funext (fun v => ?_)))
  rw [Function.comp_apply, hf v]

end Relabel
end Memorai.Graph.PropertyGraph
