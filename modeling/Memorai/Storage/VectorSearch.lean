import Mathlib.Data.Nat.Basic
import Memorai.Order.Ranking
import Memorai.Storage.MemoryStore

/-! Search by embedding. The index knows nothing of owners, so the search asks it for more than it needs. -/
namespace Memorai.Storage
open Schema Memorai.Graph Memorai.Order

variable {Vector Score : Type} [LinearOrder Score]

/-- The vector index over some nodes, as it ranks them for one query vector. -/
abbrev VectorIndex (similarity : Vector → String → Score) (v : Vector) (nodes : List Row) :=
  Ranked (fun r : Row => similarity v r.embedding) nodes

section Search
variable {similarity : Vector → String → Score} {v : Vector} {nodes : List Row}

/-- `db.index.vector.queryNodes` -/
def queryNodes (index : VectorIndex similarity v nodes) (k : Nat) : List (Row × Score) :=
  (index.best k).map (fun r => (r, similarity v r.embedding))

/-- The owner filter is applied after the index returns. -/
def vectorSearch (index : VectorIndex similarity v nodes) (ownerId : String) (topK : Nat) : List (Row × Score) :=
  ((queryNodes index (max (topK * 4) topK)).filter (fun row => row.1.ownerId = ownerId)).take topK

/-- The nodes of one owner. -/
def owned (nodes : List Row) (ownerId : String) : List Row := nodes.filter (fun r => r.ownerId = ownerId)

/-- What a search returns is what it returns with the owner's nodes alone: the nearest of them, as many as are asked for. -/
def Undisplaced (index : VectorIndex similarity v nodes) (ownerId : String) (topK : Nat) : Prop :=
  ∃ alone : VectorIndex similarity v (owned nodes ownerId),
    vectorSearch index ownerId topK = vectorSearch alone ownerId topK ∧ vectorSearch index ownerId topK = queryNodes alone topK

/-- Of the owner's nodes, whichever has fewer than `topK` of them ahead of it has fewer than four times as many of anybody's. -/
def InReach (index : VectorIndex similarity v nodes) (ownerId : String) (topK : Nat) : Prop :=
  ∀ pre r post, index.order = pre ++ r :: post → r.ownerId = ownerId → (owned pre ownerId).length < topK → pre.length < topK * 4

theorem vectorSearch_eq (index : VectorIndex similarity v nodes) (ownerId : String) (topK : Nat) :
    vectorSearch index ownerId topK =
      ((owned (index.order.take (topK * 4)) ownerId).take topK).map (fun r => (r, similarity v r.embedding)) := by
  rw [vectorSearch, queryNodes, Nat.max_eq_left (by omega), List.filter_map, ← List.map_take]
  rfl

/-- With the nodes of one owner alone the filter has nothing to do. -/
theorem vectorSearch_alone (alone : VectorIndex similarity v (owned nodes ownerId)) (topK : Nat) :
    vectorSearch alone ownerId topK = queryNodes alone topK := by
  have hall : ∀ r ∈ alone.order.take (topK * 4), r.ownerId = ownerId := by
    intro r hr
    have hin := alone.perm.mem_iff.mp (List.mem_of_mem_take hr)
    simpa using (List.mem_filter.mp hin).2
  have hkeep : owned (alone.order.take (topK * 4)) ownerId = alone.order.take (topK * 4) :=
    List.filter_eq_self.mpr (fun r hr => by simpa using hall r hr)
  rw [vectorSearch_eq, hkeep, List.take_take, Nat.min_eq_left (by omega)]
  rfl

theorem undisplaced_iff_best (index : VectorIndex similarity v nodes) (ownerId : String) (topK : Nat) :
    Undisplaced index ownerId topK ↔
      ∃ alone : VectorIndex similarity v (owned nodes ownerId),
        (owned (index.order.take (topK * 4)) ownerId).take topK = alone.best topK := by
  have hinj : Function.Injective (fun r : Row => (r, similarity v r.embedding)) := fun a b h => (Prod.mk.inj h).1
  apply exists_congr
  intro alone
  rw [vectorSearch_alone, and_self, vectorSearch_eq, queryNodes]
  exact (List.map_injective_iff.mpr hinj).eq_iff

/-- As long as the others have no more than three nodes for each one that is asked for, none of them is in the way. -/
theorem inReach_of_few (index : VectorIndex similarity v nodes) {ownerId : String} {topK : Nat}
    (h : (nodes.filter (fun r => r.ownerId ≠ ownerId)).length ≤ topK * 3) : InReach index ownerId topK := by
  rintro pre r post horder _ hk
  have hsub : (pre.filter (fun r => r.ownerId ≠ ownerId)).length ≤ (nodes.filter (fun r => r.ownerId ≠ ownerId)).length := by
    rw [← (index.perm.filter _).length_eq, horder, List.filter_append, List.length_append]
    omega
  have hparts := List.length_eq_length_filter_add (l := pre) (fun r => decide (r.ownerId = ownerId))
  rw [owned] at hk
  simp only [ne_eq, decide_not] at hsub h
  omega

end Search

section Store
variable {similarity : Vector → String → Score} {v : Vector}

/-- An owner's results are not displaced by anybody's nodes exactly when the wanted ones are within reach of the
over-fetch. -/
theorem undisplaced_iff (s : Store) (index : VectorIndex similarity v s.nodes) (ownerId : String) (topK : Nat) :
    Undisplaced index ownerId topK ↔ InReach index ownerId topK := by
  rw [undisplaced_iff_best]
  refine (exists_best_iff index (topK * 4) topK).trans ((take_filter_take_iff _ _ _).trans ?_)
  simp only [decide_eq_true_eq]
  rfl

end Store

/-- A project somebody knows. -/
def knownProject (ownerId entityId name : String) : Entity where
  id := entityId
  ownerId := ownerId
  kind := .project
  name := name
  firstSeenAtMs := 0
  lastSeenAtMs := 0
  provenance := { derivedBy := "mock-extractor@v1", createdAtMs := 0 }
  acl := { ownerId := ownerId, occurredAtMs := 0 }

/-- Bob knows four projects called Atlas, Alice one called Borealis. -/
def crowded : Store :=
  execAll ((["ent_1", "ent_2", "ent_3", "ent_4"].map (fun entityId => .upsert (.entity (knownProject "bob" entityId "Atlas")) "Atlas ")) ++
    [.upsert (.entity (knownProject "alice" "ent_5" "Borealis")) "Borealis "]) PropertyGraph.empty

def sameText (v embedding : String) : Nat := if embedding = v then 1 else 0

def crowdedIndex : VectorIndex sameText "Atlas " crowded.nodes where
  order := crowded.nodes
  perm := .refl _
  descending := by decide +kernel

/-- Alice asks for the node nearest to Atlas and is given none. -/
theorem displaced : ¬ ∀ (s : Store) (index : VectorIndex sameText "Atlas " s.nodes) (ownerId : String) (topK : Nat),
    1 ≤ topK → Undisplaced index ownerId topK := by
  intro h
  obtain ⟨alone, _, hbest⟩ := h crowded crowdedIndex "alice" 1 (le_refl 1)
  have hnone : vectorSearch crowdedIndex "alice" 1 = [] := by decide +kernel
  have hone : (owned crowded.nodes "alice").length = 1 := by decide +kernel
  have hlen : (queryNodes alone 1).length = 1 := by rw [queryNodes, List.length_map, alone.length_best, hone, Nat.min_self]
  rw [← hbest, hnone] at hlen
  exact absurd hlen (by decide)

end Memorai.Storage
