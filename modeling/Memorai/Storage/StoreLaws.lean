import Memorai.Storage.MemoryStore

/-! What each store statement does to the stored claims, the edges and the owner column. -/
namespace Memorai.Storage
open Schema Memorai.Graph

namespace Store

def edge (source : NodeKey) (rel : Rel) (target : NodeKey) : NodeKey × Rel × NodeKey := (source, rel, target)

abbrev claimKey (claimId : String) : NodeKey := ⟨.claim, claimId⟩
abbrev entityKey (entityId : String) : NodeKey := ⟨.entity, entityId⟩
abbrev eventKey (eventId : String) : NodeKey := ⟨.event, eventId⟩

theorem claim?_eq_some_iff (s : Store) (x : String) (c : Claim) :
    s.claim? x = some c ↔ ∃ r ∈ s.nodes, r.claim? = some c ∧ c.id = x := by
  simp only [claim?, Option.bind_eq_some_iff, PropertyGraph.find?_eq_some_iff]
  constructor
  · rintro ⟨r, ⟨hr, hk⟩, hc⟩
    refine ⟨r, hr, hc, ?_⟩
    simpa [Row.key_of_claim? hc] using hk
  · rintro ⟨r, hr, hc, rfl⟩
    exact ⟨r, ⟨hr, Row.key_of_claim? hc⟩, hc⟩

theorem id_of_claim? {s : Store} {x : String} {c : Claim} (h : s.claim? x = some c) : c.id = x := by
  obtain ⟨_, _, _, hx⟩ := (claim?_eq_some_iff s x c).mp h
  exact hx

theorem claim?_isSome_iff (s : Store) (x : String) : (∃ c, s.claim? x = some c) ↔ claimKey x ∈ s.keys := by
  rw [PropertyGraph.mem_keys_iff]
  constructor
  · rintro ⟨c, hc⟩
    obtain ⟨r, hr, _⟩ := Option.bind_eq_some_iff.mp hc
    exact ⟨r, hr⟩
  · rintro ⟨r, hr⟩
    have hk := ((PropertyGraph.find?_eq_some_iff s _ _).mp hr).2
    obtain ⟨c, hc⟩ := Row.claim?_isSome_of_label (r := r) (by rw [hk])
    exact ⟨c, Option.bind_eq_some_iff.mpr ⟨r, hr, hc⟩⟩

theorem event?_isSome_iff (s : Store) (x : String) : (∃ e, s.event? x = some e) ↔ eventKey x ∈ s.keys := by
  rw [PropertyGraph.mem_keys_iff]
  constructor
  · rintro ⟨e, he⟩
    obtain ⟨r, hr, _⟩ := Option.bind_eq_some_iff.mp he
    exact ⟨r, hr⟩
  · rintro ⟨r, hr⟩
    have hk := ((PropertyGraph.find?_eq_some_iff s _ _).mp hr).2
    obtain ⟨e, he⟩ := Row.event?_isSome_of_label (r := r) (by rw [hk])
    exact ⟨e, Option.bind_eq_some_iff.mpr ⟨r, hr, he⟩⟩

theorem id_of_event? {s : Store} {x : String} {e : Event} (h : s.event? x = some e) : e.id = x := by
  obtain ⟨r, hr, he⟩ := Option.bind_eq_some_iff.mp h
  have hk := ((PropertyGraph.find?_eq_some_iff s _ _).mp hr).2
  rw [Row.key_of_event? he] at hk
  exact congrArg NodeKey.id hk

/-- A lookup by id alone succeeds when a node of any label carries the id. -/
theorem get_isSome_iff (s : Store) (x : String) : (s.get x).isSome ↔ ∃ k ∈ s.keys, k.id = x := by
  simp [get, List.find?_isSome, PropertyGraph.keys]

theorem get_isSome_of_claim? {s : Store} {x : String} {c : Claim} (h : s.claim? x = some c) :
    (s.get x).isSome :=
  (get_isSome_iff s x).mpr ⟨claimKey x, (claim?_isSome_iff s x).mp ⟨c, h⟩, rfl⟩

theorem claim?_eq_none_of_get {s : Store} {x : String} (h : ¬ (s.get x).isSome) : s.claim? x = none := by
  cases hc : s.claim? x with
  | none => rfl
  | some c => exact absurd (get_isSome_of_claim? hc) h

@[simp] theorem claim?_upsert_claim (s : Store) (c : Claim) (t x : String) :
    (s.upsert (.claim c) t).claim? x = if x = c.id then some c else s.claim? x := by
  simp only [claim?, upsert, PropertyGraph.find?_merge]
  by_cases h : x = c.id <;> simp [h, Row.key, Row.of, labelOf, MemoryNode.id, Row.claim?]

theorem claim?_upsert_other (s : Store) (n : MemoryNode) (t x : String) (h : labelOf n ≠ .claim) :
    (s.upsert n t).claim? x = s.claim? x := by
  simp only [claim?, upsert, PropertyGraph.find?_merge]
  rw [if_neg]
  intro e
  exact h (congrArg NodeKey.label e).symm

@[simp] theorem claim?_link (s : Store) (a : String) (r : Rel) (b x : String) :
    (s.link a r b).claim? x = s.claim? x := rfl

@[simp] theorem claim?_setClaimStatus (s : Store) (y : String) (st : ClaimStatus) (x : String) :
    (s.setClaimStatus y st).claim? x =
      if x = y then (s.claim? x).map (fun c => { c with status := st }) else s.claim? x := by
  simp only [claim?, setClaimStatus, PropertyGraph.find?_modify]
  by_cases h : x = y
  · subst h
    cases s.find? ⟨.claim, x⟩ <;> simp
  · simp [h]

@[simp] theorem edges_upsert (s : Store) (n : MemoryNode) (t : String) : (s.upsert n t).edges = s.edges :=
  PropertyGraph.edges_merge s _

@[simp] theorem edges_setClaimStatus (s : Store) (y : String) (st : ClaimStatus) :
    (s.setClaimStatus y st).edges = s.edges := rfl

theorem mem_edges_link (s : Store) (a : String) (r : Rel) (b : String) (k j : NodeKey) (q : Rel) :
    (k, q, j) ∈ (s.link a r b).edges ↔
      (k, q, j) ∈ s.edges ∨ ((k ∈ s.keys ∧ k.id = a) ∧ q = r ∧ j ∈ s.keys ∧ j.id = b) := by
  simp [link, PropertyGraph.mem_edges_link]

theorem mem_keys_upsert (s : Store) (n : MemoryNode) (t : String) (k : NodeKey) :
    k ∈ (s.upsert n t).keys ↔ k = ⟨labelOf n, n.id⟩ ∨ k ∈ s.keys :=
  PropertyGraph.mem_keys_merge s _ k

@[simp] theorem keys_link (s : Store) (a : String) (r : Rel) (b : String) : (s.link a r b).keys = s.keys := rfl

@[simp] theorem keys_setClaimStatus (s : Store) (y : String) (st : ClaimStatus) :
    (s.setClaimStatus y st).keys = s.keys := PropertyGraph.keys_modify _ _ _ _

end Store

/-- The owner column repeats the owner of the payload. -/
def OwnerColumns (s : Store) : Prop := ∀ r ∈ s.nodes, r.ownerId = r.payload.ownerId

theorem OwnerColumns.empty : OwnerColumns PropertyGraph.empty := fun _ h => absurd h List.not_mem_nil

theorem OwnerColumns.exec {s : Store} (h : OwnerColumns s) (op : StoreOp) : OwnerColumns (op.exec s) := by
  cases op with
  | upsert n t =>
    intro r hr
    rcases (PropertyGraph.mem_nodes_merge s _ r).mp hr with rfl | ⟨hr, _⟩
    · rfl
    · exact h r hr
  | link a q b => exact h
  | setClaimStatus y st =>
    intro r hr
    have hf := (PropertyGraph.find?_eq_some_iff _ r.key r).mpr ⟨hr, rfl⟩
    rw [StoreOp.exec, Store.setClaimStatus, PropertyGraph.find?_modify] at hf
    by_cases hk : r.key = ⟨.claim, y⟩
    · rw [if_pos hk] at hf
      obtain ⟨w, hw, rfl⟩ := Option.map_eq_some_iff.mp hf
      have := h w ((PropertyGraph.find?_eq_some_iff s _ w).mp hw).1
      obtain ⟨payload, _, _, _, _, _, _, _, _⟩ := w
      cases payload <;> exact this
    · rw [if_neg hk] at hf
      exact h r ((PropertyGraph.find?_eq_some_iff s _ r).mp hf).1

theorem OwnerColumns.execAll {s : Store} (h : OwnerColumns s) (ops : List StoreOp) :
    OwnerColumns (execAll ops s) := by
  induction ops generalizing s with
  | nil => exact h
  | cons op ops ih => exact ih (h.exec op)

def idTag : Label → String
  | .entity => "ent_"
  | .event => "evt_"
  | .claim => "clm_"

/-- An id as `stable_id` builds it for a node of this label. -/
def Tagged (k : NodeKey) : Prop := ∃ digest, k.id = idTag k.label ++ digest

theorem Tagged.label_eq {k j : NodeKey} (hk : Tagged k) (hj : Tagged j) (h : k.id = j.id) : k.label = j.label := by
  obtain ⟨a, ha⟩ := hk
  obtain ⟨b, hb⟩ := hj
  have he : (idTag k.label ++ a).toList = (idTag j.label ++ b).toList := by rw [← ha, ← hb, h]
  cases hl : k.label <;> cases hm : j.label <;> simp [hl, hm, idTag] at he ⊢

/-- No id is used under two labels. -/
def TaggedKeys (s : Store) : Prop := ∀ k ∈ s.keys, Tagged k

theorem TaggedKeys.eq_of_id {s : Store} (h : TaggedKeys s) {k j : NodeKey} (hk : k ∈ s.keys) (hj : j ∈ s.keys)
    (hid : k.id = j.id) : k = j := by
  have hl : k.label = j.label := (h k hk).label_eq (h j hj) hid
  obtain ⟨l, x⟩ := k
  obtain ⟨m, y⟩ := j
  dsimp only at hl hid
  rw [hl, hid]

theorem TaggedKeys.get_isNone_iff {s : Store} (h : TaggedKeys s) {x : String} (hx : Tagged (Store.claimKey x)) :
    (s.get x).isNone ↔ s.claim? x = none := by
  refine ⟨fun hn => Store.claim?_eq_none_of_get (by simpa using hn), fun hn => ?_⟩
  by_contra hsome
  have hget : (s.get x).isSome := by
    cases hg : s.get x with
    | none => exact absurd (by rw [hg]; rfl) hsome
    | some r => rfl
  obtain ⟨k, hk, hid⟩ := (Store.get_isSome_iff s x).mp hget
  have hl : k = Store.claimKey x := by
    obtain ⟨l, i⟩ := k
    have hl := (h _ hk).label_eq hx hid
    dsimp only at hl hid
    rw [hl, hid]
  obtain ⟨c, hc⟩ := (Store.claim?_isSome_iff s x).mpr (hl ▸ hk)
  rw [hn] at hc
  exact absurd hc (by simp)

/-- The claims resolution reads back: of this owner, with an edge to one of the entities. -/
theorem Store.mem_claimsAbout {s : Store} (h : OwnerColumns s) (o : String) (ids : List String) (c : Claim) :
    c ∈ s.claimsAbout o ids ↔ s.claim? c.id = some c ∧ c.ownerId = o ∧
      ∃ e ∈ ids, (claimKey c.id, Rel.about, entityKey e) ∈ s.edges := by
  simp only [claimsAbout, List.mem_filterMap, List.mem_filter, decide_eq_true_eq, List.any_eq_true,
    claim?_eq_some_iff]
  constructor
  · rintro ⟨r, ⟨hr, ho, _, ⟨k, q, j⟩, he, hk, rfl, hj, hji⟩, hc⟩
    have hown : r.ownerId = c.ownerId := by rw [h r hr, (Row.claim?_eq_some_iff r c).mp hc]; rfl
    dsimp only at hk hj hji he
    rw [Row.key_of_claim? hc] at hk
    refine ⟨⟨r, hr, hc, trivial⟩, hown ▸ ho, j.id, hji, ?_⟩
    obtain ⟨l, i⟩ := j
    subst hk hj
    exact he
  · rintro ⟨⟨r, hr, hc, _⟩, ho, e, he, hedge⟩
    have hown : r.ownerId = c.ownerId := by rw [h r hr, (Row.claim?_eq_some_iff r c).mp hc]; rfl
    have hk := Row.key_of_claim? hc
    exact ⟨r, ⟨hr, hown.trans ho, by rw [hk], _, hedge, by simp [hk, he]⟩, hc⟩

end Memorai.Storage
