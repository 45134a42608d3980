import Mathlib.Data.List.Dedup
import Memorai.Graph.Paths
import Memorai.Storage.NeighbourReads

/-! The store queries behind a context chain. -/
namespace Memorai.Storage.Store
open Memorai.Graph

/-- The `CITES` paths of exactly `n` edges from the owner's node with this id, all over nodes of the owner. A
path takes no relationship twice. -/
def citesPaths (s : Store) (ownerId nodeId : String) (n : Nat) : List (Path NodeKey Rel) :=
  (s.seedKeys ownerId [nodeId]).flatMap (fun seed =>
    (trails n (s.edges.filter (fun e => e.2.1 = .cites)) seed).filter (fun p => p.nodes.all (s.ownedBy ownerId)))

/-- `other.id, min(length(path))`, and the distinct pairs of citer and cited on the same paths. -/
def citesChain (s : Store) (ownerId nodeId : String) (hops : Nat) : List (String × Nat) × List (String × String) :=
  let paths := (List.range' 1 hops).flatMap (s.citesPaths ownerId nodeId)
  let others := (paths.map (fun p => p.last.id)).dedup
  let pairs := paths.flatMap (fun p => p.edges.map (fun e => (e.1.id, e.2.2.id)))
  (others.filterMap (fun x => ((paths.filter (fun p => p.last.id = x)).map Path.length).min?.map (fun n => (x, n))),
    pairs.dedup.insertionSort pairBefore)

section Reads
variable {s : Store} {ownerId nodeId : String} {hops n : Nat}

/-- The `CITES` edges between nodes of the owner. -/
def ownCites (s : Store) (ownerId : String) : List (NodeKey × Rel × NodeKey) :=
  (s.edges.filter (fun e => e.2.1 = .cites)).filter (fun e => s.ownedBy ownerId e.1 ∧ s.ownedBy ownerId e.2.2)

theorem mem_ownCites {e : NodeKey × Rel × NodeKey} : e ∈ s.ownCites ownerId ↔
    e ∈ s.edges ∧ e.2.1 = .cites ∧ s.ownedBy ownerId e.1 ∧ s.ownedBy ownerId e.2.2 := by
  simp only [ownCites, List.mem_filter, decide_eq_true_eq, and_assoc]

/-- The paths of the query are the trails of the owner's own citation graph. -/
theorem mem_citesPaths {p : Path NodeKey Rel} : p ∈ s.citesPaths ownerId nodeId n ↔
    ∃ seed ∈ s.seedKeys ownerId [nodeId], p ∈ trails n (s.ownCites ownerId) seed := by
  simp only [citesPaths, List.mem_flatMap, List.mem_filter, List.all_eq_true]
  refine exists_congr (fun seed => and_congr_right (fun hseed => ?_))
  obtain ⟨r, hr, ho, hk, _⟩ := mem_seedKeys.mp hseed
  exact (mem_trails_filter (ownedBy_iff.mpr ⟨r, hr, hk, ho⟩)).symm

private theorem mem_paths {p : Path NodeKey Rel} : p ∈ (List.range' 1 hops).flatMap (s.citesPaths ownerId nodeId) ↔
    ∃ n, 1 ≤ n ∧ n ≤ hops ∧ p ∈ s.citesPaths ownerId nodeId n := by
  simp only [List.mem_flatMap, List.mem_range'_1, and_assoc]
  refine exists_congr (fun n => and_congr_right (fun _ => and_congr_left (fun _ => ?_)))
  omega

theorem length_of_mem_citesPaths {p : Path NodeKey Rel} (h : p ∈ s.citesPaths ownerId nodeId n) : p.length = n := by
  obtain ⟨seed, _, hp⟩ := mem_citesPaths.mp h
  exact length_of_mem_trails hp

/-- The hop count of an id is the least length of a path that leads to it. -/
theorem mem_citesChain {x : String} : (x, n) ∈ (s.citesChain ownerId nodeId hops).1 ↔
    (1 ≤ n ∧ n ≤ hops) ∧ (∃ p ∈ s.citesPaths ownerId nodeId n, p.last.id = x) ∧
      ∀ m, 1 ≤ m → m < n → ¬ ∃ p ∈ s.citesPaths ownerId nodeId m, p.last.id = x := by
  have hlengths : ∀ m, m ∈ (((List.range' 1 hops).flatMap (s.citesPaths ownerId nodeId)).filter (fun p => p.last.id = x)).map
      Path.length ↔ (1 ≤ m ∧ m ≤ hops) ∧ ∃ p ∈ s.citesPaths ownerId nodeId m, p.last.id = x := by
    intro m
    simp only [List.mem_map, List.mem_filter, mem_paths, decide_eq_true_eq]
    constructor
    · rintro ⟨p, ⟨⟨m, hpos, hle, hp⟩, hx⟩, rfl⟩
      rw [length_of_mem_citesPaths hp]
      exact ⟨⟨hpos, hle⟩, p, hp, hx⟩
    · rintro ⟨⟨hpos, hle⟩, p, hp, hx⟩
      exact ⟨p, ⟨⟨m, hpos, hle, hp⟩, hx⟩, length_of_mem_citesPaths hp⟩
  simp only [citesChain, List.mem_filterMap, Option.map_eq_some_iff, Prod.mk.injEq, List.min?_eq_some_iff]
  constructor
  · rintro ⟨y, _, m, ⟨hm, hmin⟩, rfl, rfl⟩
    obtain ⟨hbound, hend⟩ := (hlengths m).mp hm
    refine ⟨hbound, hend, fun l hpos hlt hl => ?_⟩
    exact absurd (hmin l ((hlengths l).mpr ⟨⟨hpos, by omega⟩, hl⟩)) (by omega)
  · rintro ⟨hbound, ⟨p, hp, hx⟩, hmin⟩
    refine ⟨x, ?_, n, ⟨(hlengths n).mpr ⟨hbound, p, hp, hx⟩, fun m hm => ?_⟩, rfl, rfl⟩
    · exact List.mem_dedup.mpr (List.mem_map.mpr ⟨p, mem_paths.mpr ⟨n, hbound.1, hbound.2, hp⟩, hx⟩)
    · obtain ⟨hm, hend⟩ := (hlengths m).mp hm
      exact Nat.le_of_not_lt (fun hlt => hmin m hm.1 hlt hend)

/-- The pairs are the citations with an end less than `hops` away. -/
theorem mem_citesChain_pairs {x y : String} : (x, y) ∈ (s.citesChain ownerId nodeId hops).2 ↔
    ∃ e ∈ s.ownCites ownerId, (∃ seed ∈ s.seedKeys ownerId [nodeId], ∃ d < hops,
      Distance (s.ownCites ownerId) seed d e.1 ∨ Distance (s.ownCites ownerId) seed d e.2.2) ∧ x = e.1.id ∧ y = e.2.2.id := by
  simp only [citesChain, List.mem_insertionSort, List.mem_dedup]
  rw [List.mem_flatMap]
  simp only [mem_paths, mem_citesPaths, List.mem_map, Prod.mk.injEq]
  constructor
  · rintro ⟨p, ⟨n, hpos, hle, seed, hseed, hp⟩, e, he, rfl, rfl⟩
    obtain ⟨hmem, hnear⟩ := exists_trail_through_iff.mp ⟨n, hpos, hle, p, hp, he⟩
    exact ⟨e, hmem, ⟨seed, hseed, hnear⟩, rfl, rfl⟩
  · rintro ⟨e, hmem, ⟨seed, hseed, hnear⟩, rfl, rfl⟩
    obtain ⟨n, hpos, hle, p, hp, he⟩ := exists_trail_through_iff.mpr ⟨hmem, hnear⟩
    exact ⟨p, ⟨n, hpos, hle, seed, hseed, hp⟩, e, he, rfl, rfl⟩

end Reads
end Memorai.Storage.Store
