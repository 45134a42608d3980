import Mathlib.Data.List.Dedup
import Mathlib.Data.Prod.Lex
import Mathlib.Data.String.Basic
import Memorai.Nearby.Read
import Memorai.Order.KeySort
import Memorai.Storage.StoreLaws

/-! What the walk of a neighbourhood read visits: the stored seeds and what is reached from them. -/
namespace Memorai.Nearby
open Schema Memorai.Graph Storage

section Region
variable (s : Store) (ownerId : String) (seedIds : List String) (hops : Nat)

/-- Ids tell the owner's nodes apart. -/
def UniqueIds : Prop := ((s.nodes.filter (fun r => r.ownerId = ownerId)).map (fun r => r.key.id)).Nodup

instance : Decidable (UniqueIds s ownerId) := by unfold UniqueIds; infer_instance

variable {s ownerId} in
theorem UniqueIds.row_eq (h : UniqueIds s ownerId) {a b : Row} (ha : a ∈ s.nodes) (hao : a.ownerId = ownerId)
    (hb : b ∈ s.nodes) (hbo : b.ownerId = ownerId) (hid : a.key.id = b.key.id) : a = b :=
  List.inj_on_of_nodup_map h (List.mem_filter.mpr ⟨ha, by simpa using hao⟩) (List.mem_filter.mpr ⟨hb, by simpa using hbo⟩) hid

variable {s ownerId} in
theorem UniqueIds.nodup_getMany (h : UniqueIds s ownerId) (rows : RowOrder Row) (nodeIds : List String) :
    (((s.getMany rows ownerId nodeIds).map Row.payload).map MemoryNode.id).Nodup := by
  rw [Store.getMany, List.map_map, ((rows.perm _).map _).nodup_iff]
  refine List.Nodup.sublist (List.Sublist.map _ ?_) h
  exact List.monotone_filter_right _ (fun r hr => by
    rw [decide_eq_true_eq] at hr ⊢
    exact hr.1)

/-- Ids that tell their kind are unique. -/
theorem uniqueIds_of_tagged (h : TaggedKeys s) : UniqueIds s ownerId := by
  have hkeys : ((s.nodes.filter (fun r => r.ownerId = ownerId)).map Row.key).Nodup :=
    s.unique.sublist (List.filter_sublist.map _)
  rw [UniqueIds, show (fun r : Row => r.key.id) = NodeKey.id ∘ Row.key from rfl, ← List.map_map]
  refine List.Nodup.map_on (fun k hk j hj hid => h.eq_of_id ?_ ?_ hid) hkeys
  · exact (List.filter_sublist.map Row.key).subset hk
  · exact (List.filter_sublist.map Row.key).subset hj

def storedSeeds : List String :=
  (s.nodes.filter (fun r => r.ownerId = ownerId ∧ r.key.id ∈ seedIds)).map (fun r => r.key.id)

/-- The owner's stored seeds, with every node reached from them. -/
def region : List Row :=
  s.nodes.filter (fun r => r.ownerId = ownerId ∧
    (r.key.id ∈ seedIds ∨ r.key.id ∈ (s.neighbourIds ownerId (storedSeeds s ownerId seedIds) hops).map Prod.fst))

/-- How far a node of the region is from the stored seeds. -/
def hopsOf (x : String) : Nat :=
  if x ∈ storedSeeds s ownerId seedIds then 0
  else (s.hopsTo ownerId (storedSeeds s ownerId seedIds) hops x).getD 0

end Region

section Walk
variable {rows : RowOrder Row} {s : Store} {scope : Scope} {ownerId : String} {seedIds : List String} {hops : Nat}

theorem mem_distinct {x : String} : x ∈ distinct seedIds ↔ x ∈ seedIds := by
  rw [distinct, Dict.mem_keys_collect]
  simp

theorem mem_storedSeeds {x : String} : x ∈ storedSeeds s ownerId seedIds ↔
    x ∈ seedIds ∧ ∃ r ∈ s.nodes, r.ownerId = ownerId ∧ r.key.id = x := by
  simp only [storedSeeds, List.mem_map, List.mem_filter, decide_eq_true_eq]
  constructor
  · rintro ⟨r, ⟨hr, ho, hx⟩, rfl⟩
    exact ⟨hx, r, hr, ho, rfl⟩
  · rintro ⟨hx, r, hr, ho, rfl⟩
    exact ⟨r, ⟨hr, ho, hx⟩, rfl⟩

private theorem mem_present {x : String} :
    x ∈ (s.getMany rows ownerId (distinct seedIds)).map (fun r => r.key.id) ↔ x ∈ storedSeeds s ownerId seedIds := by
  simp only [mem_storedSeeds, List.mem_map, Store.mem_getMany, mem_distinct]
  constructor
  · rintro ⟨r, ⟨hr, ho, hx⟩, rfl⟩
    exact ⟨hx, r, hr, ho, rfl⟩
  · rintro ⟨hx, r, hr, ho, rfl⟩
    exact ⟨r, ⟨hr, ho, hx⟩, rfl⟩

theorem neighbourIds_congr {xs ys : List String} (h : ∀ x, x ∈ xs ↔ x ∈ ys) :
    s.neighbourIds ownerId xs hops = s.neighbourIds ownerId ys hops := by
  have hseeds : s.seedKeys ownerId xs = s.seedKeys ownerId ys := by
    simp only [Store.seedKeys, h]
  simp only [Store.neighbourIds, Store.hopsTo, hseeds]

theorem mem_neighbourIds {nodeIds : List String} {x : String} {n : Nat} :
    (x, n) ∈ s.neighbourIds ownerId nodeIds hops ↔ s.hopsTo ownerId nodeIds hops x = some n := by
  simp only [Store.neighbourIds, List.mem_filterMap, List.mem_dedup, List.mem_map, List.mem_filter, Option.map_eq_some_iff,
    Prod.mk.injEq, decide_eq_true_eq]
  constructor
  · rintro ⟨y, _, m, hm, rfl, rfl⟩
    exact hm
  · intro h
    refine ⟨x, ?_, n, h, rfl, rfl⟩
    -- A node of the owner has this id.
    have hfound := List.find?_some h
    simp only [List.any_eq_true, Bool.and_eq_true, decide_eq_true_eq] at hfound
    obtain ⟨_, _, k, _, rfl, hk⟩ := hfound
    obtain ⟨r, hr, rfl, ho⟩ := Store.ownedBy_iff.mp hk
    exact ⟨r, ⟨hr, ho⟩, rfl⟩

theorem neighbourIds_nil : s.neighbourIds ownerId [] hops = [] := by
  rw [List.eq_nil_iff_forall_not_mem]
  intro ⟨x, n⟩ hmem
  have hfound := List.find?_some (mem_neighbourIds.mp hmem)
  simp [Store.seedKeys] at hfound

/-- The distances the walk notes down, whichever order the rows come in. -/
theorem mem_hopOf {x : String} {n : Nat} : (x, n) ∈ (walk rows s scope seedIds hops).hopOf ↔
    x ∈ storedSeeds s scope.ownerId seedIds ∧ n = 0 ∨ x ∉ storedSeeds s scope.ownerId seedIds ∧
      s.hopsTo scope.ownerId (storedSeeds s scope.ownerId seedIds) hops x = some n := by
  have hpresent : ∀ y, y ∈ (s.getMany rows scope.ownerId (distinct seedIds)).map (fun r => r.key.id) ↔
      y ∈ storedSeeds s scope.ownerId seedIds := fun y => mem_present
  unfold walk
  dsimp only
  split
  · rename_i hnone
    rw [hnone] at hpresent
    have hseeds : storedSeeds s scope.ownerId seedIds = [] :=
      List.eq_nil_iff_forall_not_mem.mpr (fun y hy => List.not_mem_nil ((hpresent y).mpr hy))
    have hfar : (x, n) ∈ s.neighbourIds scope.ownerId [] hops ↔ s.hopsTo scope.ownerId [] hops x = some n :=
      mem_neighbourIds
    rw [neighbourIds_nil] at hfar
    simpa [hseeds] using hfar
  · rw [neighbourIds_congr hpresent]
    have hnear : ∀ p : String × Nat, p ∈ ((distinct seedIds).filter (fun sid =>
        sid ∈ (s.getMany rows scope.ownerId (distinct seedIds)).map (fun r => r.key.id))).map (fun sid => (sid, 0)) ↔
          p.1 ∈ storedSeeds s scope.ownerId seedIds ∧ p.2 = 0 := by
      intro ⟨y, m⟩
      simp only [List.mem_map, List.mem_filter, mem_distinct, decide_eq_true_eq, Prod.mk.injEq]
      constructor
      · rintro ⟨z, ⟨_, hz⟩, rfl, rfl⟩
        exact ⟨(hpresent z).mp (List.mem_map.mpr hz), rfl⟩
      · rintro ⟨hy, rfl⟩
        exact ⟨y, ⟨(mem_storedSeeds.mp hy).1, List.mem_map.mp ((hpresent y).mpr hy)⟩, rfl, rfl⟩
    have hnears : ∀ y, y ∈ (((distinct seedIds).filter (fun sid =>
        sid ∈ (s.getMany rows scope.ownerId (distinct seedIds)).map (fun r => r.key.id))).map (fun sid => (sid, 0))).map
          Prod.fst ↔ y ∈ storedSeeds s scope.ownerId seedIds := by
      intro y
      rw [List.mem_map]
      constructor
      · rintro ⟨p, hp, rfl⟩
        exact ((hnear p).mp hp).1
      · intro hy
        exact ⟨(y, 0), (hnear _).mpr ⟨hy, rfl⟩, rfl⟩
    rw [List.mem_append, hnear, List.mem_filter, mem_neighbourIds]
    simp only [decide_eq_true_eq, hnears]
    exact or_congr Iff.rfl and_comm

/-- `hop_of.get(x, 0)` -/
theorem getD_hopOf (x : String) :
    ((walk rows s scope seedIds hops).hopOf.lookup x).getD 0 = hopsOf s scope.ownerId seedIds hops x := by
  unfold hopsOf
  cases h : (walk rows s scope seedIds hops).hopOf.lookup x with
  | some n =>
    rcases mem_hopOf.mp (Dict.mem_of_lookup h) with ⟨hx, rfl⟩ | ⟨hx, hn⟩
    · rw [if_pos hx]
      rfl
    · rw [if_neg hx, hn]
  | none =>
    have hno : ∀ n, (x, n) ∉ (walk rows s scope seedIds hops).hopOf := fun n hn => by
      have hkey := List.lookup_eq_none_iff.mp h _ hn
      simp at hkey
    by_cases hx : x ∈ storedSeeds s scope.ownerId seedIds
    · exact absurd (mem_hopOf.mpr (Or.inl ⟨hx, rfl⟩)) (hno 0)
    · rw [if_neg hx]
      cases hn : s.hopsTo scope.ownerId (storedSeeds s scope.ownerId seedIds) hops x with
      | none => rfl
      | some n => exact absurd (mem_hopOf.mpr (Or.inr ⟨hx, hn⟩)) (hno n)

theorem mem_region {r : Row} : r ∈ region s ownerId seedIds hops ↔ r ∈ s.nodes ∧ r.ownerId = ownerId ∧
    (r.key.id ∈ seedIds ∨ r.key.id ∈ (s.neighbourIds ownerId (storedSeeds s ownerId seedIds) hops).map Prod.fst) := by
  rw [region, List.mem_filter, decide_eq_true_eq]

private theorem mem_ids {r : Row} (hr : r ∈ s.nodes) (ho : r.ownerId = scope.ownerId) :
    r.key.id ∈ (walk rows s scope seedIds hops).hopOf.map Prod.fst ↔ r ∈ region s scope.ownerId seedIds hops := by
  have hseed : r.key.id ∈ storedSeeds s scope.ownerId seedIds ↔ r.key.id ∈ seedIds :=
    mem_storedSeeds.trans ⟨fun h => h.1, fun h => ⟨h, r, hr, ho, rfl⟩⟩
  rw [mem_region, List.mem_map, List.mem_map, ← hseed]
  constructor
  · rintro ⟨⟨x, n⟩, hx, heq⟩
    dsimp only at heq
    rw [heq, mem_hopOf] at hx
    refine ⟨hr, ho, hx.imp And.left (fun h => ⟨(r.key.id, n), mem_neighbourIds.mpr h.2, rfl⟩)⟩
  · rintro ⟨_, _, h⟩
    by_cases hx : r.key.id ∈ storedSeeds s scope.ownerId seedIds
    · exact ⟨(r.key.id, 0), mem_hopOf.mpr (Or.inl ⟨hx, rfl⟩), rfl⟩
    · obtain ⟨⟨x, n⟩, hn, heq⟩ := h.resolve_left hx
      dsimp only at heq
      rw [heq, mem_neighbourIds] at hn
      exact ⟨(r.key.id, n), mem_hopOf.mpr (Or.inr ⟨hx, hn⟩), rfl⟩

theorem candidates_eq : (walk rows s scope seedIds hops).candidates =
    (s.getMany rows scope.ownerId ((walk rows s scope seedIds hops).hopOf.map Prod.fst)).map Row.payload := by
  unfold walk
  dsimp only
  split
  · have hnone : s.getMany rows scope.ownerId [] = [] :=
      List.eq_nil_iff_forall_not_mem.mpr (fun r hr => List.not_mem_nil (Store.mem_getMany.mp hr).2.2)
    rw [List.map_nil, hnone, List.map_nil]
  · rfl

/-- The walk hydrates its region. -/
theorem candidates_perm : (walk rows s scope seedIds hops).candidates.Perm
    ((region s scope.ownerId seedIds hops).map Row.payload) := by
  rw [candidates_eq, Store.getMany, region]
  refine ((rows.perm _).trans (List.Perm.of_eq (List.filter_congr (fun r hr => ?_)))).map _
  refine decide_eq_decide.mpr (and_congr_right (fun ho => ?_))
  rw [mem_ids hr ho, mem_region]
  exact ⟨fun h => h.2.2, fun h => ⟨hr, ho, h⟩⟩

private theorem edges_eq : (walk rows s scope seedIds hops).edges =
    s.edgesAmong scope.ownerId ((walk rows s scope seedIds hops).hopOf.map Prod.fst) := by
  unfold walk
  dsimp only
  split <;> rfl

/-- The edges the walk reads are those inside its region. -/
theorem mem_edges {a t b : String} : (a, t, b) ∈ (walk rows s scope seedIds hops).edges ↔
    ∃ k ∈ region s scope.ownerId seedIds hops, ∃ j ∈ region s scope.ownerId seedIds hops, ∃ r,
      (k.key, r, j.key) ∈ s.edges ∧ a = k.key.id ∧ t = r.type ∧ b = j.key.id := by
  rw [edges_eq, Store.edgesAmong]
  split
  · rename_i hnone
    refine ⟨fun h => absurd h List.not_mem_nil, ?_⟩
    rintro ⟨k, hk, _⟩
    have hin : k.key.id ∈ (walk rows s scope seedIds hops).hopOf.map Prod.fst :=
      (mem_ids (mem_region.mp hk).1 (mem_region.mp hk).2.1).mpr hk
    rw [hnone] at hin
    exact absurd hin List.not_mem_nil
  · simp only [List.mem_insertionSort, List.mem_dedup, List.mem_map, List.mem_filter, decide_eq_true_eq, Prod.mk.injEq,
      Store.ownedBy_iff]
    constructor
    · rintro ⟨⟨_, r, _⟩, ⟨he, ⟨k, hk, rfl, hko⟩, ⟨j, hj, rfl, hjo⟩, hkid, hjid⟩, rfl, rfl, rfl⟩
      exact ⟨k, (mem_ids hk hko).mp (List.mem_map.mpr hkid), j, (mem_ids hj hjo).mp (List.mem_map.mpr hjid), r, he, rfl, rfl, rfl⟩
    · rintro ⟨k, hk, j, hj, r, he, rfl, rfl, rfl⟩
      obtain ⟨hkn, hko, _⟩ := mem_region.mp hk
      obtain ⟨hjn, hjo, _⟩ := mem_region.mp hj
      exact ⟨_, ⟨he, ⟨k, hkn, rfl, hko⟩, ⟨j, hjn, rfl, hjo⟩, List.mem_map.mp ((mem_ids hkn hko).mpr hk),
        List.mem_map.mp ((mem_ids hjn hjo).mpr hj)⟩, rfl, rfl, rfl⟩

theorem nodup_edges : (walk rows s scope seedIds hops).edges.Nodup := by
  rw [edges_eq, Store.edgesAmong]
  split
  · exact List.nodup_nil
  · exact (List.perm_insertionSort _ _).nodup_iff.mpr (List.nodup_dedup _)

/-- What the edges are sorted by. -/
def tripleKey (e : String × String × String) : String ×ₗ (String ×ₗ String) := toLex (e.1, toLex (e.2.1, e.2.2))

theorem tripleBefore_iff (a b : String × String × String) : Store.tripleBefore a b ↔ tripleKey a ≤ tripleKey b := by
  rw [Store.tripleBefore, tripleKey, tripleKey, Prod.Lex.toLex_le_toLex, Prod.Lex.toLex_le_toLex]

theorem tripleKey_injective : Function.Injective tripleKey := fun a b h => by
  obtain ⟨h₁, h₂⟩ := Prod.mk.inj (toLex.injective h)
  obtain ⟨h₂, h₃⟩ := Prod.mk.inj (toLex.injective h₂)
  exact Prod.ext h₁ (Prod.ext h₂ h₃)

theorem pairwise_edges : (walk rows s scope seedIds hops).edges.Pairwise Store.tripleBefore := by
  rw [edges_eq, Store.edgesAmong]
  split
  · exact List.Pairwise.nil
  · exact Order.pairwise_sort tripleKey tripleBefore_iff _

end Walk
end Memorai.Nearby
