import Memorai.Graph.Trails
import Memorai.Storage.HistoryReads

/-! The store queries behind a neighbourhood read. -/
namespace Memorai.Storage
open Schema Memorai.Graph

/-- `type(r)` -/
def Rel.type : Rel → String
  | .mentions => "MENTIONS"
  | .cites => "CITES"
  | .about => "ABOUT"
  | .owedBy => "OWED_BY"
  | .owedTo => "OWED_TO"
  | .supersedes => "SUPERSEDES"
  | .contradicts => "CONTRADICTS"
  | .other name => name

namespace Store

/-- `MATCH (seed:Memory {owner_id}) WHERE seed.id IN ..` -/
def seedKeys (s : Store) (ownerId : String) (nodeIds : List String) : List NodeKey :=
  (s.nodes.filter (fun r => r.ownerId = ownerId ∧ r.key.id ∈ nodeIds)).map Row.key

theorem mem_seedKeys {s : Store} {ownerId : String} {nodeIds : List String} {k : NodeKey} : k ∈ s.seedKeys ownerId nodeIds ↔
    ∃ r ∈ s.nodes, r.ownerId = ownerId ∧ r.key = k ∧ k.id ∈ nodeIds := by
  simp only [seedKeys, List.mem_map, List.mem_filter, decide_eq_true_eq]
  constructor
  · rintro ⟨r, ⟨hr, ho, hid⟩, rfl⟩
    exact ⟨r, hr, ho, rfl, hid⟩
  · rintro ⟨r, hr, ho, rfl, hid⟩
    exact ⟨r, ⟨hr, ho, hid⟩, rfl⟩

/-- `min(length(path))` over the paths of one to `hops` edges from a seed to a node of the owner with this
id. A path takes no relationship twice. The nodes in between may be anyone's. -/
def hopsTo (s : Store) (ownerId : String) (nodeIds : List String) (hops : Nat) (x : String) : Option Nat :=
  (List.range' 1 hops).find? (fun n => (s.seedKeys ownerId nodeIds).any (fun seed =>
    (trailEnds n s.edges seed).any (fun k => k.id = x && s.ownedBy ownerId k)))

/-- Node id and shortest hop distance from any of `nodeIds`. -/
def neighbourIds (s : Store) (ownerId : String) (nodeIds : List String) (hops : Nat) : List (String × Nat) :=
  (((s.nodes.filter (fun r => r.ownerId = ownerId)).map (fun r => r.key.id)).dedup).filterMap (fun x =>
    (s.hopsTo ownerId nodeIds hops x).map (fun n => (x, n)))

/-- `ORDER BY from_id, rel, to_id` -/
def tripleBefore (a b : String × String × String) : Prop :=
  a.1 < b.1 ∨ a.1 = b.1 ∧ (a.2.1 < b.2.1 ∨ a.2.1 = b.2.1 ∧ a.2.2 ≤ b.2.2)

instance : DecidableRel tripleBefore := fun a b => by unfold tripleBefore; infer_instance

/-- The edges whose two endpoints are in `nodeIds`, within one owner. -/
def edgesAmong (s : Store) (ownerId : String) (nodeIds : List String) : List (String × String × String) :=
  if nodeIds = [] then []
  else (((s.edges.filter (fun e => s.ownedBy ownerId e.1 ∧ s.ownedBy ownerId e.2.2 ∧ e.1.id ∈ nodeIds ∧
      e.2.2.id ∈ nodeIds)).map (fun e => (e.1.id, e.2.1.type, e.2.2.id))).dedup).insertionSort tripleBefore

end Store
end Memorai.Storage
