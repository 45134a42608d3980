import Memorai.Context.Chain
import Memorai.Ingestion.RunLaws
import Memorai.Nearby.Shown

/-! The context chain of an object is the ball around it in its owner's citation graph. -/
namespace Memorai.Context
open Schema Memorai.Graph Storage
open Nearby (UniqueIds Permitted verdict nearer nearness nearer_iff sortedSet mem_sortedSet)

/-- The shortest way to `r` from the owner's object with this id takes `d` citations. All objects on it are
the owner's. -/
def At (s : Store) (ownerId objectId : String) (d : Nat) (r : Row) : Prop :=
  r ∈ s.nodes ∧ r.ownerId = ownerId ∧ ∃ seed ∈ s.nodes, seed.ownerId = ownerId ∧ seed.key.id = objectId ∧
    Distance (s.ownCites ownerId) seed.key d r.key

section Walk
variable {rows : RowOrder Row} {s : Store} {scope : Scope} {ownerId objectId : String} {hops d d' : Nat} {r : Row}

theorem At.unique (hids : UniqueIds s ownerId) (h : At s ownerId objectId d r) (h' : At s ownerId objectId d' r) : d = d' := by
  obtain ⟨_, _, seed, hs, hso, hid, hfar⟩ := h
  obtain ⟨_, _, seed', hs', hso', hid', hfar'⟩ := h'
  obtain rfl := hids.row_eq hs hso hs' hso' (hid.trans hid'.symm)
  exact hfar.unique hfar'

/-- Where the seed is stored, the paths of the query are the trails from it. -/
private theorem citesPaths_to (hids : UniqueIds s ownerId) {seed : Row} (hs : seed ∈ s.nodes) (hso : seed.ownerId = ownerId)
    (hr : r ∈ s.nodes) (ho : r.ownerId = ownerId) {n : Nat} :
    (∃ p ∈ s.citesPaths ownerId seed.key.id n, p.last.id = r.key.id) ↔
      ∃ p ∈ trails n (s.ownCites ownerId) seed.key, p.last = r.key := by
  simp only [Store.mem_citesPaths, Store.mem_seedKeys, List.mem_singleton]
  constructor
  · rintro ⟨p, ⟨_, ⟨q, hq, hqo, rfl, hqid⟩, hp⟩, hlast⟩
    obtain rfl := hids.row_eq hq hqo hs hso hqid
    refine ⟨p, hp, ?_⟩
    -- The last node of the path is a node of the owner, and its id tells which.
    have hkeep : ∀ k ∈ p.nodes, s.ownedBy ownerId k := by
      have hown := Store.ownedBy_iff.mpr ⟨q, hq, rfl, hqo⟩
      exact ((mem_trails_filter hown).mp hp).2
    obtain ⟨w, hw, hwk, hwo⟩ := Store.ownedBy_iff.mp (hkeep _ p.last_mem_nodes)
    rw [← hwk] at hlast ⊢
    rw [hids.row_eq hw hwo hr ho hlast]
  · rintro ⟨p, hp, hlast⟩
    exact ⟨p, ⟨seed.key, ⟨seed, hs, hso, rfl, rfl⟩, hp⟩, by rw [hlast]⟩

/-- The distances the walk notes down. -/
theorem mem_hopOf (hids : UniqueIds s scope.ownerId) (hr : r ∈ s.nodes) (ho : r.ownerId = scope.ownerId) :
    (r.key.id, d) ∈ (walk rows s scope objectId hops).hopOf ↔ d ≤ hops ∧ At s scope.ownerId objectId d r := by
  simp only [walk, List.mem_cons, Prod.mk.injEq, List.mem_filter, decide_eq_true_eq]
  by_cases hseed : r.key.id = objectId
  · subst hseed
    constructor
    · rintro (⟨_, rfl⟩ | ⟨_, hne⟩)
      · exact ⟨by omega, hr, ho, r, hr, ho, rfl, Distance.zero_iff.mpr rfl⟩
      · exact absurd rfl hne
    · rintro ⟨_, hat⟩
      exact Or.inl ⟨rfl, hat.unique hids ⟨hr, ho, r, hr, ho, rfl, Distance.zero_iff.mpr rfl⟩⟩
  · rw [Store.mem_citesChain]
    constructor
    · rintro (⟨h, _⟩ | ⟨⟨⟨hpos, hle⟩, hend, hmin⟩, _⟩)
      · exact absurd h hseed
      · have ⟨p, hp, _⟩ := hend
        obtain ⟨_, hkey, _⟩ := Store.mem_citesPaths.mp hp
        obtain ⟨seed, hs, hso, rfl, hid⟩ := Store.mem_seedKeys.mp hkey
        obtain rfl := List.mem_singleton.mp hid
        simp only [citesPaths_to hids hs hso hr ho] at hend hmin
        have hne : r.key ≠ seed.key := fun h => hseed (congrArg NodeKey.id h)
        exact ⟨hle, hr, ho, seed, hs, hso, rfl, (least_trail_iff hne).mp ⟨hpos, hend, hmin⟩⟩
    · rintro ⟨hle, _, _, seed, hs, hso, rfl, hfar⟩
      have hne : r.key ≠ seed.key := fun h => hseed (congrArg NodeKey.id h)
      obtain ⟨hpos, hend, hmin⟩ := (least_trail_iff hne).mpr hfar
      simp only [← citesPaths_to hids hs hso hr ho] at hend hmin
      exact Or.inr ⟨⟨⟨hpos, hle⟩, hend, hmin⟩, hseed⟩

theorem lookup_hopOf (hids : UniqueIds s scope.ownerId) (hat : At s scope.ownerId objectId d r) (hd : d ≤ hops) :
    ((walk rows s scope objectId hops).hopOf.lookup r.key.id).getD 0 = d := by
  have ⟨hr, ho, _⟩ := hat
  have hmem : (r.key.id, d) ∈ (walk rows s scope objectId hops).hopOf := (mem_hopOf hids hr ho).mpr ⟨hd, hat⟩
  cases h : (walk rows s scope objectId hops).hopOf.lookup r.key.id with
  | some n =>
    obtain ⟨_, hat'⟩ := (mem_hopOf hids hr ho).mp (Dict.mem_of_lookup h)
    exact hat'.unique hids hat
  | none =>
    have hkey := List.lookup_eq_none_iff.mp h _ hmem
    simp at hkey

/-- The walk hydrates the objects up to `hops` away. -/
theorem mem_candidates (hids : UniqueIds s scope.ownerId) {n : MemoryNode} :
    n ∈ (walk rows s scope objectId hops).candidates ↔ ∃ r, ∃ d ≤ hops, At s scope.ownerId objectId d r ∧ n = r.payload := by
  have hcandidates : (walk rows s scope objectId hops).candidates =
      (s.getMany rows scope.ownerId ((walk rows s scope objectId hops).hopOf.map Prod.fst)).map Row.payload := rfl
  simp only [hcandidates, List.mem_map, Store.mem_getMany]
  constructor
  · rintro ⟨r, ⟨hr, ho, ⟨_, d⟩, hmem, rfl⟩, rfl⟩
    obtain ⟨hd, hat⟩ := (mem_hopOf hids hr ho).mp hmem
    exact ⟨r, d, hd, hat, rfl⟩
  · rintro ⟨r, d, hd, hat, rfl⟩
    have ⟨hr, ho, _⟩ := hat
    exact ⟨r, ⟨hr, ho, (r.key.id, d), (mem_hopOf hids hr ho).mpr ⟨hd, hat⟩, rfl⟩, rfl⟩

variable (rows) in
/-- The pairs the walk reads are the citations with an end less than `hops` away. -/
theorem mem_edges {e : String × String} : e ∈ (walk rows s scope objectId hops).edges ↔ ∃ a ∈ s.nodes, ∃ b ∈ s.nodes,
    a.ownerId = scope.ownerId ∧ b.ownerId = scope.ownerId ∧ (a.key, Rel.cites, b.key) ∈ s.edges ∧
      (∃ d < hops, At s scope.ownerId objectId d a ∨ At s scope.ownerId objectId d b) ∧ e = (a.key.id, b.key.id) := by
  obtain ⟨x, y⟩ := e
  rw [show (walk rows s scope objectId hops).edges = (s.citesChain scope.ownerId objectId hops).2 from rfl,
    Store.mem_citesChain_pairs]
  constructor
  · rintro ⟨⟨j, q, k⟩, he, ⟨_, hseed, d, hd, hnear⟩, rfl, rfl⟩
    obtain ⟨he, rfl, hj, hk⟩ := Store.mem_ownCites.mp he
    obtain ⟨a, ha, rfl, hao⟩ := Store.ownedBy_iff.mp hj
    obtain ⟨b, hb, rfl, hbo⟩ := Store.ownedBy_iff.mp hk
    obtain ⟨seed, hs, hso, rfl, hid⟩ := Store.mem_seedKeys.mp hseed
    have hid := List.mem_singleton.mp hid
    refine ⟨a, ha, b, hb, hao, hbo, he, ⟨d, hd, ?_⟩, rfl⟩
    exact hnear.imp (fun h => ⟨ha, hao, seed, hs, hso, hid, h⟩) (fun h => ⟨hb, hbo, seed, hs, hso, hid, h⟩)
  · rintro ⟨a, ha, b, hb, hao, hbo, he, ⟨d, hd, hnear⟩, heq⟩
    obtain ⟨rfl, rfl⟩ := Prod.mk.inj heq
    have hown : (a.key, Rel.cites, b.key) ∈ s.ownCites scope.ownerId := Store.mem_ownCites.mpr
      ⟨he, rfl, Store.ownedBy_iff.mpr ⟨a, ha, rfl, hao⟩, Store.ownedBy_iff.mpr ⟨b, hb, rfl, hbo⟩⟩
    refine ⟨_, hown, ?_, rfl, rfl⟩
    rcases hnear with ⟨_, _, seed, hs, hso, hid, h⟩ | ⟨_, _, seed, hs, hso, hid, h⟩
    · exact ⟨seed.key, Store.mem_seedKeys.mpr ⟨seed, hs, hso, rfl, List.mem_singleton.mpr hid⟩, d, hd, Or.inl h⟩
    · exact ⟨seed.key, Store.mem_seedKeys.mpr ⟨seed, hs, hso, rfl, List.mem_singleton.mpr hid⟩, d, hd, Or.inr h⟩

/-- A citation leads at most one further. -/
theorem At.across (hat : At s ownerId objectId d r) {q : Row} (hq : q ∈ s.nodes) (hqo : q.ownerId = ownerId)
    (he : (r.key, Rel.cites, q.key) ∈ s.edges ∨ (q.key, Rel.cites, r.key) ∈ s.edges) :
    ∃ d' ≤ d + 1, At s ownerId objectId d' q := by
  obtain ⟨hr, ho, seed, hs, hso, hid, hfar⟩ := hat
  have hrown := Store.ownedBy_iff.mpr ⟨r, hr, rfl, ho⟩
  have hqown := Store.ownedBy_iff.mpr ⟨q, hq, rfl, hqo⟩
  have hstep : Hops (s.ownCites ownerId) 1 r.key q.key := by
    rcases he with he | he
    · exact .out (Store.mem_ownCites.mpr ⟨he, rfl, hrown, hqown⟩) .here
    · exact .back (Store.mem_ownCites.mpr ⟨he, rfl, hqown, hrown⟩) .here
  obtain ⟨d', hd', hfar'⟩ := (hfar.1.trans hstep).distance
  exact ⟨d', hd', hq, hqo, seed, hs, hso, hid, hfar'⟩

end Walk
section Views
variable {repr : String → String} {rows : RowOrder Row} {s : Store} {scope : Scope} {objectId : String} {hops d : Nat}
variable {nowMs : Int} {r : Row}

@[simp] theorem id_nodeView (n : MemoryNode) (h : Nat) (denied : Option DenyReason) : (nodeView n h denied).id = n.id := by
  cases denied <;> rfl

@[simp] theorem hops_nodeView (n : MemoryNode) (h : Nat) (denied : Option DenyReason) : (nodeView n h denied).hops = h := by
  cases denied <;> rfl

theorem content_nodeView (n : MemoryNode) (h : Nat) :
    (nodeView n h (verdict scope nowMs n)).content?.isSome ↔ permits scope n.acl nowMs := by
  rw [← Nearby.verdict_eq_none_iff]
  cases verdict scope nowMs n <;> simp [nodeView, NodeView.content?]

theorem mem_sources_nodeView {n : MemoryNode} {h : Nat} {source : SourceId} :
    source ∈ (nodeView n h (verdict scope nowMs n)).sources ↔ permits scope n.acl nowMs ∧ source ∈ n.acl.sources := by
  rw [← Nearby.verdict_eq_none_iff]
  cases verdict scope nowMs n <;> simp [nodeView, NodeView.sources]

variable (rows s scope objectId hops nowMs) in
/-- The views of the walked objects, each under its own verdict. -/
def views : List NodeView :=
  ((walk rows s scope objectId hops).candidates.insertionSort (nearer (walk rows s scope objectId hops).hopOf)).map
    (fun n => nodeView n (((walk rows s scope objectId hops).hopOf.lookup n.id).getD 0) (verdict scope nowMs n))

private theorem nodup_candidates (hids : UniqueIds s scope.ownerId) :
    ((walk rows s scope objectId hops).candidates.map MemoryNode.id).Nodup := hids.nodup_getMany rows _

/-- The read in closed form, where it answers. -/
theorem contextChain_eq (hids : UniqueIds s scope.ownerId)
    (hans : (contextChain repr rows s scope objectId hops nowMs).answered = true) :
    contextChain repr rows s scope objectId hops nowMs =
      { objectId := objectId
        answered := true
        text := contextText objectId (views rows s scope objectId hops nowMs)
          (sortedSet ((views rows s scope objectId hops nowMs).flatMap (fun v => v.sources.map Subtype.val)))
        hops := hops
        nodes := views rows s scope objectId hops nowMs
        edges := (walk rows s scope objectId hops).edges
        sources := sortedSet ((views rows s scope objectId hops nowMs).flatMap (fun v => v.sources.map Subtype.val))
        denied := (Nearby.checkPermissions scope nowMs (walk rows s scope objectId hops).candidates).2
        considered := (walk rows s scope objectId hops).candidates.length } := by
  have hnd : ((walk rows s scope objectId hops).candidates.map MemoryNode.id).Nodup := nodup_candidates hids
  have hwalked : Dict.collect MemoryNode.id id (walk rows s scope objectId hops).candidates = _ :=
    Dict.collect_of_nodup MemoryNode.id id hnd
  have hnodes : ((walk rows s scope objectId hops).candidates.map (fun n => (n.id, id n))).map Prod.snd =
      (walk rows s scope objectId hops).candidates := by
    rw [List.map_map]
    exact List.map_id _
  have hviews : ((walk rows s scope objectId hops).candidates.insertionSort
      (nearer (walk rows s scope objectId hops).hopOf)).map (fun n =>
        nodeView n (((walk rows s scope objectId hops).hopOf.lookup n.id).getD 0)
          (History.Verdicts.reason (Dict.collect MemoryNode.id (verdict scope nowMs)
            (walk rows s scope objectId hops).candidates) n.id)) = views rows s scope objectId hops nowMs :=
    List.map_congr_left (fun n hn => by rw [Nearby.reason_of_mem hnd ((List.mem_insertionSort _).mp hn)])
  unfold contextChain assemble at hans ⊢
  dsimp only [Nearby.checkPermissions] at hans ⊢
  rw [hwalked] at hans ⊢
  split at hans
  · exact absurd hans Bool.false_ne_true
  · rename_i hsome
    split at hans
    · exact absurd hans Bool.false_ne_true
    · rename_i hpermitted
      rw [if_neg hsome, if_neg hpermitted, hnodes, hviews, List.length_map]

theorem mem_views (hids : UniqueIds s scope.ownerId) {v : NodeView} : v ∈ views rows s scope objectId hops nowMs ↔
    ∃ r, ∃ d ≤ hops, At s scope.ownerId objectId d r ∧ v = nodeView r.payload d (verdict scope nowMs r.payload) := by
  simp only [views, List.mem_map, List.mem_insertionSort, mem_candidates hids]
  constructor
  · rintro ⟨_, ⟨r, d, hd, hat, rfl⟩, rfl⟩
    exact ⟨r, d, hd, hat, congrArg (fun h => nodeView r.payload h _) (lookup_hopOf hids hat hd)⟩
  · rintro ⟨r, d, hd, hat, rfl⟩
    exact ⟨r.payload, ⟨r, d, hd, hat, rfl⟩, congrArg (fun h => nodeView r.payload h _) (lookup_hopOf hids hat hd)⟩

theorem nodup_views (hids : UniqueIds s scope.ownerId) :
    ((views rows s scope objectId hops nowMs).map NodeView.id).Nodup := by
  have hid : (NodeView.id ∘ fun n : MemoryNode => nodeView n (((walk rows s scope objectId hops).hopOf.lookup n.id).getD 0)
      (verdict scope nowMs n)) = MemoryNode.id := by
    funext n
    exact id_nodeView n _ _
  rw [views, List.map_map, hid]
  exact ((List.perm_insertionSort _ _).map _).nodup_iff.mpr (nodup_candidates hids)

theorem pairwise_views : (views rows s scope objectId hops nowMs).Pairwise
    (fun a b => a.hops < b.hops ∨ a.hops = b.hops ∧ a.id ≤ b.id) := by
  rw [views, List.pairwise_map]
  refine (Order.pairwise_sort (nearness (walk rows s scope objectId hops).hopOf) (nearer_iff _) _).imp (fun {a b} hab => ?_)
  simp only [hops_nodeView, id_nodeView]
  exact hab

end Views

/-- `c` shows the ball around the object in its owner's citation graph: all of it, the content as far as the
grant goes. -/
structure CitationBall (s : Store) (scope : Scope) (objectId : String) (hops : Nat) (nowMs : Int) (c : ContextChain) :
    Prop where
  nodes : ∀ v, v ∈ c.nodes ↔
    ∃ r, ∃ d ≤ hops, At s scope.ownerId objectId d r ∧ v = nodeView r.payload d (verdict scope nowMs r.payload)
  once : (c.nodes.map NodeView.id).Nodup
  sorted : c.nodes.Pairwise (fun a b => a.hops < b.hops ∨ a.hops = b.hops ∧ a.id ≤ b.id)
  edges : ∀ e, e ∈ c.edges ↔ ∃ a ∈ s.nodes, ∃ b ∈ s.nodes, a.ownerId = scope.ownerId ∧ b.ownerId = scope.ownerId ∧
    (a.key, Rel.cites, b.key) ∈ s.edges ∧
      (∃ d < hops, At s scope.ownerId objectId d a ∨ At s scope.ownerId objectId d b) ∧ e = (a.key.id, b.key.id)
  edgesOnce : c.edges.Nodup
  listed : ∀ e ∈ c.edges, e.1 ∈ c.nodes.map NodeView.id ∧ e.2 ∈ c.nodes.map NodeView.id
  content : ∀ v ∈ c.nodes, ∀ r ∈ s.nodes, r.ownerId = scope.ownerId → r.key.id = v.id →
    (v.content?.isSome ↔ Permitted scope nowMs r)
  sources : ∀ x, x ∈ c.sources ↔ ∃ r, ∃ d ≤ hops, At s scope.ownerId objectId d r ∧ Permitted scope nowMs r ∧
    ∃ source ∈ r.payload.acl.sources, x = source.val
  sourcesOnce : c.sources.Nodup

/-- In a store that runs have left, ids tell the nodes apart. -/
theorem uniqueIds_runAll (jobs : List Ingestion.Job) (ownerId : String) :
    UniqueIds (Ingestion.runAll jobs PropertyGraph.empty) ownerId :=
  Nearby.uniqueIds_of_tagged _ _ (Ingestion.Keyed.empty.runAll jobs).tagged

/-- A context chain that answers is the citation ball of its seed. That ids tell the nodes of the owner apart is no condition on
a store that runs have left (`uniqueIds_runAll`). -/
theorem contextChain_ball (repr : String → String) (rows : RowOrder Row) (s : Store) (scope : Scope) (objectId : String)
    (hops : Nat) (nowMs : Int) (hids : UniqueIds s scope.ownerId)
    (hans : (contextChain repr rows s scope objectId hops nowMs).answered = true) :
    CitationBall s scope objectId hops nowMs (contextChain repr rows s scope objectId hops nowMs) := by
  rw [contextChain_eq hids hans]
  have hlisted : ∀ {d r}, d ≤ hops → At s scope.ownerId objectId d r →
      r.key.id ∈ (views rows s scope objectId hops nowMs).map NodeView.id := fun {d r} hd hat =>
    List.mem_map.mpr ⟨_, (mem_views hids).mpr ⟨r, d, hd, hat, rfl⟩, id_nodeView _ _ _⟩
  refine ⟨fun v => mem_views hids, nodup_views hids, pairwise_views, fun e => mem_edges rows, ?_, ?_, ?_, ?_, ?_⟩
  · exact (List.perm_insertionSort _ _).nodup_iff.mpr (List.nodup_dedup _)
  · intro e he
    obtain ⟨a, ha, b, hb, hao, hbo, hcites, ⟨d, hd, hnear⟩, rfl⟩ := (mem_edges rows).mp he
    rcases hnear with hat | hat
    · obtain ⟨d', hd', hat'⟩ := hat.across hb hbo (Or.inl hcites)
      exact ⟨hlisted (by omega) hat, hlisted (by omega) hat'⟩
    · obtain ⟨d', hd', hat'⟩ := hat.across ha hao (Or.inr hcites)
      exact ⟨hlisted (by omega) hat', hlisted (by omega) hat⟩
  · intro v hv r hr ho hid
    obtain ⟨q, d, _, hat, rfl⟩ := (mem_views hids).mp hv
    obtain rfl := hids.row_eq hr ho hat.1 hat.2.1 (hid.trans (id_nodeView _ _ _))
    exact content_nodeView _ _
  · intro x
    simp only [mem_sortedSet, List.mem_flatMap, List.mem_map, mem_views hids]
    constructor
    · rintro ⟨_, ⟨r, d, hd, hat, rfl⟩, source, hsource, rfl⟩
      obtain ⟨hp, hsource⟩ := mem_sources_nodeView.mp hsource
      exact ⟨r, d, hd, hat, hp, source, hsource, rfl⟩
    · rintro ⟨r, d, hd, hat, hp, source, hsource, rfl⟩
      exact ⟨_, ⟨r, d, hd, hat, rfl⟩, source, mem_sources_nodeView.mpr ⟨hp, hsource⟩, rfl⟩
  · exact (List.perm_insertionSort _ _).nodup_iff.mpr (List.nodup_dedup _)

/-- Three documents that cite each other in turn, one of them confidential, and one that nothing leads to. -/
def roundabout : Store :=
  Nearby.library
    [Nearby.document "evt_a" false, Nearby.document "evt_b" true, Nearby.document "evt_c" false, Nearby.document "evt_d" false]
    [("evt_b", "evt_a"), ("evt_c", "evt_b"), ("evt_a", "evt_c")]

theorem contextChain_ball_roundabout : UniqueIds roundabout Nearby.personalOnly.ownerId ∧
    (contextChain id .asStored roundabout Nearby.personalOnly "evt_a" 2 10).answered = true ∧
    CitationBall roundabout Nearby.personalOnly "evt_a" 2 10
      (contextChain id .asStored roundabout Nearby.personalOnly "evt_a" 2 10) := by
  have hids : UniqueIds roundabout Nearby.personalOnly.ownerId := by decide +kernel
  have hans : (contextChain id .asStored roundabout Nearby.personalOnly "evt_a" 2 10).answered = true := by decide +kernel
  exact ⟨hids, hans, contextChain_ball id .asStored roundabout Nearby.personalOnly "evt_a" 2 10 hids hans⟩

end Memorai.Context
