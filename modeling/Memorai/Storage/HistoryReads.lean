import Mathlib.Data.List.Sort
import Memorai.Storage.MemoryStore

/-! The store queries behind a history read. -/
namespace Memorai.Storage.Store
open Schema Memorai.Graph

/-- Bulk `get`, constrained to one owner. -/
def getMany (rows : RowOrder Row) (s : Store) (ownerId : String) (nodeIds : List String) : List Row :=
  rows.order (s.nodes.filter (fun r => r.ownerId = ownerId ∧ r.key.id ∈ nodeIds))

def ownedBy (s : Store) (ownerId : String) (k : NodeKey) : Bool := (s.find? k).any (fun r => r.ownerId = ownerId)

theorem ownedBy_iff {s : Store} {ownerId : String} {k : NodeKey} :
    s.ownedBy ownerId k = true ↔ ∃ r ∈ s.nodes, r.key = k ∧ r.ownerId = ownerId := by
  rw [ownedBy, Option.any_eq_true]
  simp only [PropertyGraph.find?_eq_some_iff, decide_eq_true_eq, and_assoc]

theorem mem_getMany {rows : RowOrder Row} {s : Store} {ownerId : String} {nodeIds : List String} {r : Row} :
    r ∈ s.getMany rows ownerId nodeIds ↔ r ∈ s.nodes ∧ r.ownerId = ownerId ∧ r.key.id ∈ nodeIds := by
  rw [getMany, (rows.perm _).mem_iff, List.mem_filter, decide_eq_true_eq]

/-- The nodes seen so far, and those of the owner one `SUPERSEDES` edge away in either direction. -/
def supersessionHop (s : Store) (ownerId : String) (seen : List NodeKey) : List NodeKey :=
  s.keys.filter (fun k => k ∈ seen ∨ s.ownedBy ownerId k ∧
    s.edges.any (fun e => e.2.1 = .supersedes ∧ (e.1 = k ∧ e.2.2 ∈ seen ∨ e.2.2 = k ∧ e.1 ∈ seen)))

/-- `ORDER BY occurred_at_ms, id` -/
def rowBefore (a b : Row) : Prop :=
  a.occurredAtMs < b.occurredAtMs ∨ a.occurredAtMs = b.occurredAtMs ∧ a.key.id ≤ b.key.id

instance : DecidableRel rowBefore := fun a b => by unfold rowBefore; infer_instance

/-- Every claim at most `maxHops` supersessions away from this one, over nodes of the owner. -/
def supersessionChain (s : Store) (ownerId claimId : String) (maxHops : Nat) : List Row :=
  if s.ownedBy ownerId ⟨.claim, claimId⟩ then
    let reached := Nat.iterate (s.supersessionHop ownerId) maxHops [⟨.claim, claimId⟩]
    (s.nodes.filter (fun r => r.key ∈ reached ∧ r.key.label = .claim)).insertionSort rowBefore
  else []

def pairBefore (a b : String × String) : Prop := a.1 < b.1 ∨ a.1 = b.1 ∧ a.2 ≤ b.2

instance : DecidableRel pairBefore := fun a b => by unfold pairBefore; infer_instance

/-- Pairs of a claim and one it contradicts, where one of the two is among `claimIds`. -/
def conflictLinks (s : Store) (ownerId : String) (claimIds : List String) : List (String × String) :=
  (((s.edges.filter (fun e => e.2.1 = .contradicts ∧ e.1.label = .claim ∧ e.2.2.label = .claim ∧
      s.ownedBy ownerId e.1 ∧ s.ownedBy ownerId e.2.2 ∧ (e.1.id ∈ claimIds ∨ e.2.2.id ∈ claimIds))).map
    (fun e => (e.1.id, e.2.2.id))).dedup).insertionSort pairBefore

end Memorai.Storage.Store
