import Memorai.Graph.Shortcuts
import Memorai.Nearby.Shown

/-! Graph proximity across owners. Only the two ends of a path have to be the owner's, so a node of another owner can
bring two nodes of the owner together. -/
namespace Memorai.Nearby
open Schema Memorai.Graph Storage

/-- The shortest path from a seed to a node with this id takes `n` relationships. All nodes on it are the owner's. -/
def OwnDistance (s : Store) (ownerId : String) (nodeIds : List String) (hops : Nat) (x : String) (n : Nat) : Prop :=
  Least hops (TrailTo (inside (s.ownedBy ownerId) s.edges) (s.seedKeys ownerId nodeIds) (fun k => k.id = x)) n

/-- A path that goes through another owner's node to a node with this id, and is shorter than any that does not. -/
def ForeignShortcut (s : Store) (ownerId : String) (nodeIds : List String) (hops : Nat) (x : String)
    (p : Path NodeKey Rel) : Prop :=
  Shortcut s.edges (s.ownedBy ownerId) (s.seedKeys ownerId nodeIds) (fun k => k.id = x) hops p

section Owners
variable {s : Store} {ownerId : String} {nodeIds : List String} {hops : Nat}

theorem ownedBy_of_seedKeys {k : NodeKey} (hk : k ∈ s.seedKeys ownerId nodeIds) : s.ownedBy ownerId k := by
  obtain ⟨r, hr, howner, hkey, _⟩ := Store.mem_seedKeys.mp hk
  exact Store.ownedBy_iff.mpr ⟨r, hr, hkey, howner⟩

/-- The query takes the least length over all paths between nodes of the owner. -/
theorem mem_neighbourIds_iff_least {x : String} {n : Nat} : (x, n) ∈ s.neighbourIds ownerId nodeIds hops ↔
    Least hops (TrailTo s.edges (s.seedKeys ownerId nodeIds) (fun k => s.ownedBy ownerId k ∧ k.id = x)) n := by
  have htrail : ∀ m, ((s.seedKeys ownerId nodeIds).any (fun seed =>
      (trailEnds m s.edges seed).any (fun k => k.id = x && s.ownedBy ownerId k))) = true ↔
        TrailTo s.edges (s.seedKeys ownerId nodeIds) (fun k => s.ownedBy ownerId k ∧ k.id = x) m := by
    intro m
    simp only [List.any_eq_true, Bool.and_eq_true, decide_eq_true_eq, mem_trailEnds_iff]
    refine exists_congr (fun seed => and_congr_right (fun _ => ?_))
    constructor
    · rintro ⟨_, ⟨p, hp, rfl⟩, hid, howned⟩
      exact ⟨p, hp, howned, hid⟩
    · rintro ⟨p, hp, howned, hid⟩
      exact ⟨p.last, ⟨p, hp, rfl⟩, hid, howned⟩
  rw [mem_neighbourIds, Store.hopsTo, List.find?_range'_eq_some, htrail, List.mem_range'_1]
  simp only [Bool.not_eq_eq_eq_not, Bool.not_true, ← Bool.not_eq_true, htrail]
  constructor
  · rintro ⟨hends, hn, hmin⟩
    exact ⟨⟨hn.1, by omega⟩, hends, hmin⟩
  · rintro ⟨hn, hends, hmin⟩
    exact ⟨hends, ⟨hn.1, by omega⟩, hmin⟩

end Owners

/-- Every node is assigned its distance in the graph of the owner's nodes, and no other node is assigned any, exactly if
no path through another owner's node is a shortcut. -/
theorem neighbour_ids_own_iff (s : Store) (ownerId : String) (nodeIds : List String) (hops : Nat) :
    (∀ x n, (x, n) ∈ s.neighbourIds ownerId nodeIds hops ↔ OwnDistance s ownerId nodeIds hops x n) ↔
      ∀ x p, ¬ ForeignShortcut s ownerId nodeIds hops x p := by
  refine forall_congr' (fun x => ?_)
  simp only [mem_neighbourIds_iff_least]
  exact least_inside_iff (fun seed hseed => ownedBy_of_seedKeys hseed)

/-- Two documents of one owner, each linked to a document of another. -/
def borrowed : List StoreOp :=
  [.upsert (.event (document "evt_a" false)) "evt_a", .upsert (.event { document "evt_b" false with ownerId := "bob" }) "evt_b",
    .upsert (.event (document "evt_c" false)) "evt_c", .link "evt_b" .cites "evt_a", .link "evt_b" .cites "evt_c"]

theorem foreign_neighbour : ("evt_c", 2) ∈ (execAll borrowed PropertyGraph.empty).neighbourIds "alice" ["evt_a"] 2 ∧
    ∀ n, ¬ OwnDistance (execAll borrowed PropertyGraph.empty) "alice" ["evt_a"] 2 "evt_c" n := by
  refine ⟨by decide +kernel, ?_⟩
  rintro n ⟨⟨hpos, _⟩, ⟨seed, _, p, hp, _⟩, _⟩
  -- No edge is between two documents of the owner.
  have hnone : inside ((execAll borrowed PropertyGraph.empty).ownedBy "alice") (execAll borrowed PropertyGraph.empty).edges = [] := by
    decide +kernel
  rw [hnone] at hp
  cases n with
  | zero => omega
  | succ n => exact absurd hp List.not_mem_nil

end Memorai.Nearby
