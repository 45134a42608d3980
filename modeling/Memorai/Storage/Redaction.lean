import Memorai.Graph.Relabel
import Memorai.Storage.CitesReads
import Memorai.Storage.VectorSearch

/-! A store with the contents of its nodes rewritten. The queries see where a node is and whose it is, and hand its
contents on unread. -/
namespace Memorai.Storage
open Schema Memorai.Graph Memorai.Order

/-- Under its key and its owner a row is given other contents. -/
structure Redaction where
  hide : Row → Row
  key : ∀ r, (hide r).key = r.key
  ownerId : ∀ r, (hide r).ownerId = r.ownerId

namespace Redaction
variable (f : Redaction)

def store (s : Store) : Store := s.relabel f.hide f.key

/-- The rows in the order that the rows with their own contents would have come in. -/
def rows (s : Store) (rows : RowOrder Row) : RowOrder Row where
  order hidden :=
    let own := hidden.filterMap (fun r => s.find? r.key)
    if own.map f.hide = hidden then (rows.order own).map f.hide else hidden
  perm hidden := by
    dsimp only
    split
    · rename_i h
      exact ((rows.perm _).map f.hide).trans (.of_eq h)
    · exact .refl _

section Reads
variable {f : Redaction} {s : Store} {ownerId : String} {order : RowOrder Row}

theorem order_rows {l : List Row} (h : ∀ r ∈ l, r ∈ s.nodes) : (f.rows s order).order (l.map f.hide) = (order.order l).map f.hide := by
  have hown : (l.map f.hide).filterMap (fun r => s.find? r.key) = l := by
    rw [List.filterMap_map]
    have hfind : ∀ r ∈ l, ((fun r => s.find? r.key) ∘ f.hide) r = some r := by
      intro r hr
      rw [Function.comp_apply, f.key r]
      exact (PropertyGraph.find?_eq_some_iff s _ r).mpr ⟨h r hr, rfl⟩
    rw [List.filterMap_congr hfind, List.filterMap_some]
  simp only [rows, hown, if_true]

private theorem filter_nodes {p : Row → Bool} (hp : ∀ r, p (f.hide r) = p r) :
    (f.store s).nodes.filter p = (s.nodes.filter p).map f.hide := by
  rw [store, PropertyGraph.nodes_relabel, List.filter_map]
  refine congrArg (List.map f.hide) (List.filter_congr (fun r _ => ?_))
  rw [Function.comp_apply, hp r]

@[simp] theorem ownedBy_store (k : NodeKey) : (f.store s).ownedBy ownerId k = s.ownedBy ownerId k := by
  rw [Store.ownedBy, store, PropertyGraph.find?_relabel, Option.any_map, Store.ownedBy]
  refine congrArg (fun p => (s.find? k).any p) (funext (fun r => ?_))
  simp only [f.ownerId r]

theorem getMany_store {nodeIds : List String} :
    (f.store s).getMany (f.rows s order) ownerId nodeIds = (s.getMany order ownerId nodeIds).map f.hide := by
  rw [Store.getMany, filter_nodes (fun r => by rw [f.ownerId r, f.key r]), Store.getMany]
  exact order_rows (fun r hr => (List.mem_filter.mp hr).1)

@[simp] theorem seedKeys_store {nodeIds : List String} : (f.store s).seedKeys ownerId nodeIds = s.seedKeys ownerId nodeIds := by
  rw [Store.seedKeys, filter_nodes (fun r => by rw [f.ownerId r, f.key r]), List.map_map, (funext f.key : Row.key ∘ f.hide = Row.key)]
  rfl

@[simp] theorem neighbourIds_store {nodeIds : List String} {hops : Nat} :
    (f.store s).neighbourIds ownerId nodeIds hops = s.neighbourIds ownerId nodeIds hops := by
  have hhops : (f.store s).hopsTo ownerId nodeIds hops = s.hopsTo ownerId nodeIds hops := by
    funext x
    simp only [Store.hopsTo, seedKeys_store, ownedBy_store]
    rfl
  have hids : ((f.store s).nodes.filter (fun r => r.ownerId = ownerId)).map (fun r => r.key.id) =
      (s.nodes.filter (fun r => r.ownerId = ownerId)).map (fun r => r.key.id) := by
    rw [filter_nodes (fun r => by rw [f.ownerId r]), List.map_map]
    exact List.map_congr_left (fun r _ => congrArg NodeKey.id (f.key r))
  rw [Store.neighbourIds, Store.neighbourIds, hhops, hids]

@[simp] theorem edgesAmong_store {nodeIds : List String} :
    (f.store s).edgesAmong ownerId nodeIds = s.edgesAmong ownerId nodeIds := by
  simp only [Store.edgesAmong, ownedBy_store]
  rfl

@[simp] theorem citesChain_store {nodeId : String} {hops : Nat} :
    (f.store s).citesChain ownerId nodeId hops = s.citesChain ownerId nodeId hops := by
  have hpaths : (f.store s).citesPaths ownerId nodeId = s.citesPaths ownerId nodeId := by
    funext n
    have howned : (f.store s).ownedBy ownerId = s.ownedBy ownerId := funext ownedBy_store
    simp only [Store.citesPaths, seedKeys_store, howned]
    rfl
  rw [Store.citesChain, Store.citesChain, hpaths]

end Reads

section Search
variable {Vector Score : Type} [LinearOrder Score] {similarity : Vector → String → Score} {v : Vector} {s : Store}

/-- The index over the rewritten nodes, where the embeddings stay. -/
def index (f : Redaction) (hf : ∀ r, (f.hide r).embedding = r.embedding) (index : VectorIndex similarity v s.nodes) :
    VectorIndex similarity v (f.store s).nodes where
  order := index.order.map f.hide
  perm := index.perm.map f.hide
  descending := by
    refine List.pairwise_map.mpr (index.descending.imp (fun {a b} h => ?_))
    rw [hf a, hf b]
    exact h

theorem vectorSearch_index {f : Redaction} {hf : ∀ r, (f.hide r).embedding = r.embedding} {index : VectorIndex similarity v s.nodes}
    {ownerId : String} {topK : Nat} : vectorSearch (f.index hf index) ownerId topK =
      (vectorSearch index ownerId topK).map (fun row => (f.hide row.1, row.2)) := by
  have howned : ∀ l : List Row, owned (l.map f.hide) ownerId = (owned l ownerId).map f.hide := by
    intro l
    rw [owned, List.filter_map, owned]
    refine congrArg (List.map f.hide) (List.filter_congr (fun r _ => ?_))
    rw [Function.comp_apply, f.ownerId r]
  have horder : (f.index hf index).order = index.order.map f.hide := rfl
  rw [vectorSearch_eq, vectorSearch_eq, horder, ← List.map_take, howned, ← List.map_take, List.map_map, List.map_map]
  refine List.map_congr_left (fun r _ => ?_)
  rw [Function.comp_apply, Function.comp_apply, hf r]

end Search
end Redaction
end Memorai.Storage
