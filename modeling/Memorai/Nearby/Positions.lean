import Memorai.Nearby.Shown

/-! Two stores that look the same through a grant. The read tells them apart by how far the permitted
objects are from the seeds, and by nothing else. -/
namespace Memorai.Nearby
open Schema Memorai.Graph Storage

section Distance
variable {s : Store} {ownerId : String} {seedIds : List String} {hops : Nat}

theorem seedKeys_storedSeeds : s.seedKeys ownerId (storedSeeds s ownerId seedIds) = s.seedKeys ownerId seedIds := by
  refine congrArg (List.map Row.key) (List.filter_congr (fun r hr => decide_eq_decide.mpr ?_))
  refine and_congr_right (fun ho => mem_storedSeeds.trans ?_)
  exact ⟨fun h => h.1, fun h => ⟨h, r, hr, ho, rfl⟩⟩

private theorem hopsTo_eq_some (hids : UniqueIds s ownerId) {r : Row} (hr : r ∈ s.nodes) (ho : r.ownerId = ownerId) {n : Nat} :
    s.hopsTo ownerId (storedSeeds s ownerId seedIds) hops r.key.id = some n ↔
      (1 ≤ n ∧ n ≤ hops) ∧ (∃ seed ∈ s.seedKeys ownerId seedIds, r.key ∈ trailEnds n s.edges seed) ∧
        ∀ m, 1 ≤ m → m < n → ¬ ∃ seed ∈ s.seedKeys ownerId seedIds, r.key ∈ trailEnds m s.edges seed := by
  have hends : ∀ m, ((s.seedKeys ownerId seedIds).any (fun seed =>
      (trailEnds m s.edges seed).any (fun k => k.id = r.key.id && s.ownedBy ownerId k))) = true ↔
        ∃ seed ∈ s.seedKeys ownerId seedIds, r.key ∈ trailEnds m s.edges seed := by
    intro m
    simp only [List.any_eq_true, Bool.and_eq_true, decide_eq_true_eq]
    refine exists_congr (fun seed => and_congr_right (fun _ => ?_))
    constructor
    · rintro ⟨k, hk, hid, hown⟩
      obtain ⟨q, hq, rfl, hqo⟩ := Store.ownedBy_iff.mp hown
      exact hids.row_eq hq hqo hr ho hid ▸ hk
    · exact fun hk => ⟨r.key, hk, rfl, Store.ownedBy_iff.mpr ⟨r, hr, rfl, ho⟩⟩
  rw [Store.hopsTo, seedKeys_storedSeeds, List.find?_range'_eq_some, hends, List.mem_range'_1]
  simp only [Bool.not_eq_eq_eq_not, Bool.not_true, ← Bool.not_eq_true, hends]
  constructor
  · rintro ⟨h, hn, hmin⟩
    exact ⟨⟨hn.1, by omega⟩, h, hmin⟩
  · rintro ⟨hn, h, hmin⟩
    exact ⟨h, ⟨hn.1, by omega⟩, hmin⟩

/-- The hop count of an object is its distance from the seeds in the whole graph, whoever may see the
objects in between. -/
theorem hopsOf_le_iff (hids : UniqueIds s ownerId) {r : Row} (hr : r ∈ region s ownerId seedIds hops) (m : Nat) :
    hopsOf s ownerId seedIds hops r.key.id ≤ m ↔ Within s.edges (s.seedKeys ownerId seedIds) m r.key := by
  obtain ⟨hnode, howner, hin⟩ := mem_region.mp hr
  unfold hopsOf
  by_cases hseed : r.key.id ∈ storedSeeds s ownerId seedIds
  · rw [if_pos hseed]
    have hkey : r.key ∈ s.seedKeys ownerId seedIds := Store.mem_seedKeys.mpr ⟨r, hnode, howner, rfl, (mem_storedSeeds.mp hseed).1⟩
    exact ⟨fun _ => ⟨r.key, hkey, 0, by omega, .here⟩, fun _ => by omega⟩
  · have hfar : r.key ∉ s.seedKeys ownerId seedIds := by
      intro hkey
      obtain ⟨q, hq, hqo, hqk, hid⟩ := Store.mem_seedKeys.mp hkey
      exact hseed (mem_storedSeeds.mpr ⟨hid, r, hnode, howner, rfl⟩)
    have hreached : ∃ n, s.hopsTo ownerId (storedSeeds s ownerId seedIds) hops r.key.id = some n := by
      rcases hin with hin | hin
      · exact absurd (mem_storedSeeds.mpr ⟨hin, r, hnode, howner, rfl⟩) hseed
      · obtain ⟨⟨x, n⟩, hn, hx⟩ := List.mem_map.mp hin
        dsimp only at hx
        exact ⟨n, hx ▸ mem_neighbourIds.mp hn⟩
    obtain ⟨n, hn⟩ := hreached
    obtain ⟨hbound, htrail, hmin⟩ := (hopsTo_eq_some hids hnode howner).mp hn
    rw [if_neg hseed, hn, Option.getD_some, ← exists_trail_iff hfar]
    constructor
    · intro hle
      obtain ⟨seed, hs, ht⟩ := htrail
      exact ⟨n, hbound.1, hle, seed, hs, ht⟩
    · rintro ⟨k, hk, hkm, hex⟩
      by_contra hlt
      exact hmin k hk (by omega) hex

end Distance

section Views
variable (s s' : Store) (scope : Scope) (seedIds : List String) (hops : Nat) (nowMs : Int)

/-- The permitted objects and the edges between them are the same, and the same of them are walked. -/
structure SamePermitted : Prop where
  objects : ∀ r : Row, r.ownerId = scope.ownerId → Permitted scope nowMs r → (r ∈ s.nodes ↔ r ∈ s'.nodes)
  edges : ∀ a b : Row, a.ownerId = scope.ownerId → b.ownerId = scope.ownerId → Permitted scope nowMs a →
    Permitted scope nowMs b → a ∈ s.nodes → b ∈ s.nodes → ∀ r, (a.key, r, b.key) ∈ s.edges ↔ (a.key, r, b.key) ∈ s'.edges
  walked : ∀ r : Row, Permitted scope nowMs r → (r ∈ region s scope.ownerId seedIds hops ↔ r ∈ region s' scope.ownerId seedIds hops)

/-- The counts and the reasons are the same. -/
structure SameAggregate (n n' : Neighbourhood) : Prop where
  considered : n.considered = n'.considered
  withheld : n.withheld = n'.withheld
  withheldEdges : n.withheldEdges = n'.withheldEdges
  withheldReasons : n.withheldReasons = n'.withheldReasons

/-- Every permitted object walked is as far from the stored seeds in one store as in the other. -/
def EquallyFar : Prop :=
  ∀ r ∈ region s scope.ownerId seedIds hops, Permitted scope nowMs r → ∀ m,
    (Within s.edges (s.seedKeys scope.ownerId seedIds) m r.key ↔ Within s'.edges (s'.seedKeys scope.ownerId seedIds) m r.key)

end Views

section Views
variable {repr : String → String} {rows rows' : RowOrder Row} {s s' : Store} {scope : Scope} {seedIds : List String}
variable {hops : Nat} {nowMs : Int}

theorem equallyFar_iff (hids : UniqueIds s scope.ownerId) (hids' : UniqueIds s' scope.ownerId)
    (hsame : SamePermitted s s' scope seedIds hops nowMs) : EquallyFar s s' scope seedIds hops nowMs ↔
      ∀ r ∈ region s scope.ownerId seedIds hops, Permitted scope nowMs r →
        hopsOf s scope.ownerId seedIds hops r.key.id = hopsOf s' scope.ownerId seedIds hops r.key.id := by
  refine forall₂_congr (fun r hr => forall_congr' (fun hp => ?_))
  have hr' := (hsame.walked r hp).mp hr
  simp only [← hopsOf_le_iff hids hr, ← hopsOf_le_iff hids' hr']
  refine ⟨fun h => ?_, fun h m => by rw [h]⟩
  exact le_antisymm ((h _).mpr le_rfl) ((h _).mp le_rfl)

private theorem shownNodes_eq (hids : UniqueIds s scope.ownerId) (hids' : UniqueIds s' scope.ownerId)
    (hsame : SamePermitted s s' scope seedIds hops nowMs)
    (hfar : ∀ r ∈ region s scope.ownerId seedIds hops, Permitted scope nowMs r →
      hopsOf s scope.ownerId seedIds hops r.key.id = hopsOf s' scope.ownerId seedIds hops r.key.id) :
    shownNodes rows s scope seedIds hops nowMs = shownNodes rows' s' scope seedIds hops nowMs := by
  have hmem : ∀ v, v ∈ shownNodes rows s scope seedIds hops nowMs ↔ v ∈ shownNodes rows' s' scope seedIds hops nowMs := by
    intro v
    rw [mem_shownNodes, mem_shownNodes]
    constructor
    · rintro ⟨r, hr, hp, rfl⟩
      exact ⟨r, (hsame.walked r hp).mp hr, hp, by rw [hfar r hr hp]⟩
    · rintro ⟨r, hr, hp, rfl⟩
      have hr := (hsame.walked r hp).mpr hr
      exact ⟨r, hr, hp, by rw [hfar r hr hp]⟩
  have hnodup : ((shownNodes rows s scope seedIds hops nowMs).map NodeView.id).Nodup := nodup_shownNodes hids
  have hnodup' : ((shownNodes rows' s' scope seedIds hops nowMs).map NodeView.id).Nodup := nodup_shownNodes hids'
  refine List.Perm.eq_of_pairwise (fun v w hv hw hvw hwv => ?_) pairwise_shownNodes pairwise_shownNodes
    ((List.perm_ext_iff_of_nodup hnodup.of_map hnodup'.of_map).mpr hmem)
  refine List.inj_on_of_nodup_map hnodup hv ((hmem w).mpr hw) ?_
  rcases hvw with hlt | ⟨hhops, hle⟩
  · rcases hwv with hgt | ⟨heq, _⟩ <;> omega
  · rcases hwv with hgt | ⟨_, hge⟩
    · omega
    · exact le_antisymm hle hge

private theorem shownEdges_eq (hids : UniqueIds s scope.ownerId) (hids' : UniqueIds s' scope.ownerId)
    (hsame : SamePermitted s s' scope seedIds hops nowMs) :
    shownEdges rows s scope seedIds hops nowMs = shownEdges rows' s' scope seedIds hops nowMs := by
  have hmem : ∀ e, e ∈ shownEdges rows s scope seedIds hops nowMs ↔ e ∈ shownEdges rows' s' scope seedIds hops nowMs := by
    intro e
    rw [mem_shownEdges hids, mem_shownEdges hids']
    have hedges : ∀ a ∈ region s scope.ownerId seedIds hops, ∀ b ∈ region s scope.ownerId seedIds hops, ∀ r,
        Permitted scope nowMs a → Permitted scope nowMs b → ((a.key, r, b.key) ∈ s.edges ↔ (a.key, r, b.key) ∈ s'.edges) := by
      intro a ha b hb r hpa hpb
      obtain ⟨han, hao, _⟩ := mem_region.mp ha
      obtain ⟨hbn, hbo, _⟩ := mem_region.mp hb
      exact hsame.edges a b hao hbo hpa hpb han hbn r
    constructor
    · rintro ⟨a, ha, b, hb, r, hpa, hpb, hr, rfl⟩
      exact ⟨a, (hsame.walked a hpa).mp ha, b, (hsame.walked b hpb).mp hb, r, hpa, hpb,
        (hedges a ha b hb r hpa hpb).mp hr, rfl⟩
    · rintro ⟨a, ha, b, hb, r, hpa, hpb, hr, rfl⟩
      have ha := (hsame.walked a hpa).mpr ha
      have hb := (hsame.walked b hpb).mpr hb
      exact ⟨a, ha, b, hb, r, hpa, hpb, (hedges a ha b hb r hpa hpb).mpr hr, rfl⟩
  refine List.Perm.eq_of_pairwise (fun e f _ _ hef hfe => ?_) pairwise_shownEdges pairwise_shownEdges
    ((List.perm_ext_iff_of_nodup nodup_shownEdges nodup_shownEdges).mpr hmem)
  have hkey := tripleKey_injective (le_antisymm ((tripleBefore_iff _ _).mp hef) ((tripleBefore_iff _ _).mp hfe))
  obtain ⟨h₁, h₂⟩ := Prod.mk.inj hkey
  obtain ⟨h₂, h₃⟩ := Prod.mk.inj h₂
  obtain ⟨_, _, _⟩ := e
  obtain ⟨_, _, _⟩ := f
  exact EdgeView.mk.injEq .. ▸ ⟨h₁, h₂, h₃⟩

end Views

/-- Through the same grant two stores that agree on what it permits, and on how much it withholds and why,
look the same exactly if the permitted objects are equally far from the seeds in both. -/
theorem same_view_iff_equally_far (repr : String → String) (rows rows' : RowOrder Row) (s s' : Store) (scope : Scope)
    (seedIds : List String) (hops : Nat) (nowMs : Int) (hids : UniqueIds s scope.ownerId)
    (hids' : UniqueIds s' scope.ownerId) (hsame : SamePermitted s s' scope seedIds hops nowMs)
    (hagg : SameAggregate (neighbourhood repr rows s scope seedIds hops nowMs)
      (neighbourhood repr rows' s' scope seedIds hops nowMs)) :
    neighbourhood repr rows s scope seedIds hops nowMs = neighbourhood repr rows' s' scope seedIds hops nowMs ↔
      EquallyFar s s' scope seedIds hops nowMs := by
  rw [equallyFar_iff hids hids' hsame]
  rw [neighbourhood_eq hids, neighbourhood_eq hids'] at hagg ⊢
  constructor
  · intro h r hr hp
    have hnodes : shownNodes rows s scope seedIds hops nowMs = shownNodes rows' s' scope seedIds hops nowMs :=
      congrArg Neighbourhood.nodes h
    have hv : nodeView r.payload (hopsOf s scope.ownerId seedIds hops r.key.id) ∈ shownNodes rows s scope seedIds hops nowMs :=
      mem_shownNodes.mpr ⟨r, hr, hp, rfl⟩
    rw [hnodes] at hv
    obtain ⟨r', hr', hp', hview⟩ := mem_shownNodes.mp hv
    have hid := congrArg NodeView.id hview
    have hhops := congrArg NodeView.hops hview
    rw [id_nodeView, id_nodeView] at hid
    rw [hops_nodeView, hops_nodeView] at hhops
    obtain rfl := row_eq_of_id hids' ((hsame.walked r hp).mp hr) hr' hid
    exact hhops
  · intro hfar
    have hnodes : shownNodes rows s scope seedIds hops nowMs = shownNodes rows' s' scope seedIds hops nowMs :=
      shownNodes_eq hids hids' hsame hfar
    have hedges : shownEdges rows s scope seedIds hops nowMs = shownEdges rows' s' scope seedIds hops nowMs :=
      shownEdges_eq hids hids' hsame
    have hsources : shownSources rows s scope seedIds hops nowMs = shownSources rows' s' scope seedIds hops nowMs := by
      rw [shownSources, shownSources, hnodes]
    have hcount : (shown rows s scope seedIds hops nowMs).length = (shown rows' s' scope seedIds hops nowMs).length := by
      have hlen := congrArg List.length hnodes
      rwa [shownNodes, shownNodes, List.length_map, List.length_map, List.length_insertionSort,
        List.length_insertionSort] at hlen
    have hanswered : shown rows s scope seedIds hops nowMs ≠ [] ↔ shown rows' s' scope seedIds hops nowMs ≠ [] := by
      rw [← List.length_pos_iff, ← List.length_pos_iff, hcount]
    obtain ⟨hconsidered, hwithheld, hwithheldEdges, hreasons⟩ := hagg
    dsimp only at hconsidered hwithheld hwithheldEdges hreasons
    rw [hedges] at hwithheldEdges
    have htext : shownText repr rows s scope seedIds hops nowMs = shownText repr rows' s' scope seedIds hops nowMs := by
      rw [shownText, shownText, hconsidered, hcount, hedges, hsources, hreasons]
    simp only [hconsidered, hcount, hwithheldEdges, hreasons, hnodes, hedges, hsources, htext, decide_eq_decide.mpr hanswered]

def documents : List Event :=
  [document "evt_a" false, document "evt_b" true, document "evt_c" true, document "evt_d" false]

/-- One confidential document leads to the last one, the other is beside the way. -/
def shortcut : Store := library documents [("evt_b", "evt_a"), ("evt_c", "evt_b"), ("evt_d", "evt_b")]

/-- Both confidential documents lie on the way. -/
def detour : Store := library documents [("evt_b", "evt_a"), ("evt_c", "evt_b"), ("evt_d", "evt_c")]

private theorem samePermitted_detour : SamePermitted shortcut detour personalOnly ["evt_a"] 3 10 := by
  have hnodes : shortcut.nodes = detour.nodes := by decide +kernel
  have hregion : region shortcut personalOnly.ownerId ["evt_a"] 3 = region detour personalOnly.ownerId ["evt_a"] 3 := by
    decide +kernel
  have hclosed : ∀ e ∈ shortcut.edges ++ detour.edges, ∀ a ∈ shortcut.nodes, ∀ b ∈ shortcut.nodes, e.1 = a.key →
      e.2.2 = b.key → ¬ (permits personalOnly a.payload.acl 10 ∧ permits personalOnly b.payload.acl 10) := by
    decide +kernel
  refine ⟨fun r _ _ => by rw [hnodes], fun a b _ _ hpa hpb ha hb r => ?_, fun r _ => by rw [hregion]⟩
  constructor
  · intro he
    exact absurd ⟨hpa, hpb⟩ (hclosed _ (List.mem_append_left _ he) a ha b hb rfl rfl)
  · intro he
    exact absurd ⟨hpa, hpb⟩ (hclosed _ (List.mem_append_right _ he) a ha b hb rfl rfl)

private theorem sameAggregate_detour : SameAggregate (neighbourhood id .asStored shortcut personalOnly ["evt_a"] 3 10)
    (neighbourhood id .asStored detour personalOnly ["evt_a"] 3 10) :=
  ⟨by decide +kernel, by decide +kernel, by decide +kernel, by decide +kernel⟩

theorem same_view_iff_detour : UniqueIds shortcut personalOnly.ownerId ∧ UniqueIds detour personalOnly.ownerId ∧
    SamePermitted shortcut detour personalOnly ["evt_a"] 3 10 ∧
    SameAggregate (neighbourhood id .asStored shortcut personalOnly ["evt_a"] 3 10)
      (neighbourhood id .asStored detour personalOnly ["evt_a"] 3 10) ∧
    (neighbourhood id .asStored shortcut personalOnly ["evt_a"] 3 10 =
        neighbourhood id .asStored detour personalOnly ["evt_a"] 3 10 ↔
      EquallyFar shortcut detour personalOnly ["evt_a"] 3 10) := by
  have hids : UniqueIds shortcut personalOnly.ownerId := by decide +kernel
  have hids' : UniqueIds detour personalOnly.ownerId := by decide +kernel
  exact ⟨hids, hids', samePermitted_detour, sameAggregate_detour, same_view_iff_equally_far id .asStored .asStored
    shortcut detour personalOnly ["evt_a"] 3 10 hids hids' samePermitted_detour sameAggregate_detour⟩

/-- How far the last document is tells whether one confidential document lies on the way, or two. -/
theorem detour_visible : SamePermitted shortcut detour personalOnly ["evt_a"] 3 10 ∧
    SameAggregate (neighbourhood id .asStored shortcut personalOnly ["evt_a"] 3 10)
      (neighbourhood id .asStored detour personalOnly ["evt_a"] 3 10) ∧
    neighbourhood id .asStored shortcut personalOnly ["evt_a"] 3 10 ≠
      neighbourhood id .asStored detour personalOnly ["evt_a"] 3 10 :=
  ⟨samePermitted_detour, sameAggregate_detour, by decide +kernel⟩

end Memorai.Nearby
