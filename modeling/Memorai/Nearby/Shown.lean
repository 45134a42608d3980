import Memorai.Nearby.Region

/-! What a neighbourhood read shows: the permitted part of what its walk visits, and of the rest only
how much it is. -/
namespace Memorai.Nearby
open Schema Memorai.Graph Storage
open History (Verdicts Denial)

section Closed
variable (repr : String → String) (rows : RowOrder Row) (s : Store) (scope : Scope) (seedIds : List String) (hops : Nat)
variable (nowMs : Int)

/-- The walked objects the grant allows. -/
def shown : List MemoryNode :=
  (walk rows s scope seedIds hops).candidates.filter (fun n => verdict scope nowMs n = none)

def shownNodes : List NodeView :=
  ((shown rows s scope seedIds hops nowMs).insertionSort (nearer (walk rows s scope seedIds hops).hopOf)).map
    (fun n => nodeView n (hopsOf s scope.ownerId seedIds hops n.id))

def shownEdges : List EdgeView :=
  ((walk rows s scope seedIds hops).edges.filter (fun e =>
    e.1 ∈ (shown rows s scope seedIds hops nowMs).map MemoryNode.id ∧
      e.2.2 ∈ (shown rows s scope seedIds hops nowMs).map MemoryNode.id)).map (fun e => ⟨e.1, e.2.1, e.2.2⟩)

/-- The distinct reasons of the denials. -/
def reasons : List String :=
  sortedSet ((checkPermissions scope nowMs (walk rows s scope seedIds hops).candidates).2.map (fun d => d.reason.value))

def shownSources : List String :=
  sortedSet ((shownNodes rows s scope seedIds hops nowMs).flatMap (fun v => v.sources.map Subtype.val))

def shownText : String :=
  let walked := (walk rows s scope seedIds hops).candidates.length
  let visible := (shown rows s scope seedIds hops nowMs).length
  if walked = 0 then "No object among " ++ repr (Text.join ", " (distinct seedIds)) ++ " is present in this memory."
  else if visible = 0 then
    "Declining to answer: " ++ toString walked ++ " object(s) are in this " ++
      "neighbourhood, but none are within the requesting agent's scope (" ++
      pretty (reasons rows s scope seedIds hops nowMs) ++ ")."
  else textOf (distinct seedIds) visible (shownEdges rows s scope seedIds hops nowMs).length (walked - visible)
    (shownSources rows s scope seedIds hops nowMs)

end Closed

section Closed
variable {repr : String → String} {rows : RowOrder Row} {s : Store} {scope : Scope} {seedIds : List String} {hops : Nat}
variable {nowMs : Int}

theorem verdict_eq_none_iff (node : MemoryNode) : verdict scope nowMs node = none ↔ permits scope node.acl nowMs := by
  unfold verdict permits PermissionDecision.allowed
  split <;> simp [*]

private theorem nodup_candidates (hids : UniqueIds s scope.ownerId) :
    ((walk rows s scope seedIds hops).candidates.map MemoryNode.id).Nodup := by
  rw [candidates_eq]
  exact hids.nodup_getMany rows _

theorem reason_of_mem {candidates : List MemoryNode} (hnd : (candidates.map MemoryNode.id).Nodup) {n : MemoryNode}
    (hn : n ∈ candidates) :
    Verdicts.reason (Dict.collect MemoryNode.id (verdict scope nowMs) candidates) n.id = verdict scope nowMs n := by
  have hmem : (n.id, verdict scope nowMs n) ∈ Dict.collect MemoryNode.id (verdict scope nowMs) candidates := by
    rw [Dict.collect_of_nodup _ _ hnd]
    exact List.mem_map.mpr ⟨n, hn, rfl⟩
  rw [Verdicts.reason, Dict.lookup_collect hmem]
  rfl

private theorem length_denials (candidates : List MemoryNode) :
    (checkPermissions scope nowMs candidates).2.length =
      candidates.length - (candidates.filter (fun n => verdict scope nowMs n = none)).length := by
  induction candidates with
  | nil => rfl
  | cons n ns ih =>
    have hle := List.length_filter_le (fun n => decide (verdict scope nowMs n = none)) ns
    rw [checkPermissions] at ih ⊢
    cases hv : verdict scope nowMs n with
    | none =>
      rw [List.filterMap_cons_none (by rw [hv]; rfl), List.filter_cons_of_pos (by simp [hv]), ih]
      simp
    | some reason =>
      rw [List.filterMap_cons_some (by rw [hv]; rfl), List.filter_cons_of_neg (by simp [hv]), List.length_cons, ih]
      rw [List.length_cons]
      omega

private theorem filter_visible {candidates : List MemoryNode} (hnd : (candidates.map MemoryNode.id).Nodup)
    {visible : String × MemoryNode → Bool} (hv : ∀ p, visible p ↔
      Verdicts.reason (Dict.collect MemoryNode.id (verdict scope nowMs) candidates) p.1 = none) :
    (candidates.map (fun n => (n.id, id n))).filter visible =
      (candidates.filter (fun n => verdict scope nowMs n = none)).map (fun n => (n.id, n)) := by
  rw [List.filter_map]
  refine congrArg (List.map _) (List.filter_congr (fun n hn => ?_))
  rw [Function.comp_apply, Bool.eq_iff_iff, hv, reason_of_mem hnd hn, decide_eq_true_eq]

/-- Where nothing is walked there are no edges. -/
private theorem edges_eq_nil (hnone : (walk rows s scope seedIds hops).candidates = []) :
    (walk rows s scope seedIds hops).edges = [] := by
  rw [List.eq_nil_iff_forall_not_mem]
  intro ⟨a, t, b⟩ he
  obtain ⟨k, hk, _⟩ := mem_edges.mp he
  have hin : k.payload ∈ (walk rows s scope seedIds hops).candidates :=
    candidates_perm.mem_iff.mpr (List.mem_map_of_mem hk)
  rw [hnone] at hin
  exact absurd hin List.not_mem_nil

/-- The read in closed form. -/
theorem neighbourhood_eq (hids : UniqueIds s scope.ownerId) : neighbourhood repr rows s scope seedIds hops nowMs =
    { seedIds := distinct seedIds
      answered := shown rows s scope seedIds hops nowMs ≠ []
      text := shownText repr rows s scope seedIds hops nowMs
      hops := hops
      nodes := shownNodes rows s scope seedIds hops nowMs
      edges := shownEdges rows s scope seedIds hops nowMs
      sources := shownSources rows s scope seedIds hops nowMs
      withheld := (walk rows s scope seedIds hops).candidates.length - (shown rows s scope seedIds hops nowMs).length
      withheldReasons := reasons rows s scope seedIds hops nowMs
      withheldEdges := (walk rows s scope seedIds hops).edges.length - (shownEdges rows s scope seedIds hops nowMs).length
      considered := (walk rows s scope seedIds hops).candidates.length } := by
  have hnd : ((walk rows s scope seedIds hops).candidates.map MemoryNode.id).Nodup := nodup_candidates hids
  have hwalked : Dict.collect MemoryNode.id id (walk rows s scope seedIds hops).candidates = _ :=
    Dict.collect_of_nodup MemoryNode.id id hnd
  have hlen : (checkPermissions scope nowMs (walk rows s scope seedIds hops).candidates).2.length = _ :=
    length_denials (walk rows s scope seedIds hops).candidates
  unfold neighbourhood assemble
  dsimp only [checkPermissions] at hlen ⊢
  rw [hwalked]
  by_cases hnone : (walk rows s scope seedIds hops).candidates = []
  · simp [hnone, edges_eq_nil hnone, shown, shownNodes, shownEdges, shownText, shownSources, reasons, sortedSet, checkPermissions]
  · have hsome : (walk rows s scope seedIds hops).candidates.length ≠ 0 := fun h => hnone (List.length_eq_zero_iff.mp h)
    rw [if_neg (by simpa using hnone), filter_visible hnd (fun p => decide_eq_true_iff)]
    by_cases hdenied : shown rows s scope seedIds hops nowMs = []
    · have hfilter := hdenied
      unfold shown at hfilter
      rw [hfilter]
      simp [hnone, hdenied, shownNodes, shownEdges, shownText, shownSources, reasons, sortedSet, checkPermissions]
    · have hfilter := hdenied
      unfold shown at hfilter
      rw [if_neg (by simpa using hfilter)]
      have hvisible : (shown rows s scope seedIds hops nowMs).length ≠ 0 := fun h => hdenied (List.length_eq_zero_iff.mp h)
      have hids : (((walk rows s scope seedIds hops).candidates.filter (fun n => verdict scope nowMs n = none)).map
          (fun n => (n.id, n))).map Prod.fst = (shown rows s scope seedIds hops nowMs).map MemoryNode.id := by
        rw [List.map_map]
        rfl
      have hnodes : (((walk rows s scope seedIds hops).candidates.filter (fun n => verdict scope nowMs n = none)).map
          (fun n => (n.id, n))).map Prod.snd = shown rows s scope seedIds hops nowMs := by
        rw [List.map_map]
        exact List.map_id _
      have hcount : (walk rows s scope seedIds hops).candidates.length - ((walk rows s scope seedIds hops).candidates.filter
          (fun n => verdict scope nowMs n = none)).length =
            (walk rows s scope seedIds hops).candidates.length - (shown rows s scope seedIds hops nowMs).length := rfl
      simp only [hids, hnodes, getD_hopOf, hlen, hcount]
      simp [hdenied, hsome, hvisible, shownText, shownNodes, shownEdges, shownSources, reasons, checkPermissions]

end Closed

section Permitted
variable (s : Store) (scope : Scope) (nowMs : Int)

/-- The distinct triples whose two ends are in `rows`. -/
def triplesInside (rows : List Row) : List (String × String × String) :=
  ((s.edges.filter (fun e => e.1 ∈ rows.map Row.key ∧ e.2.2 ∈ rows.map Row.key)).map
    (fun e => (e.1.id, e.2.1.type, e.2.2.id))).dedup

def Permitted (r : Row) : Prop := permits scope r.payload.acl nowMs

/-- `n` shows of the objects `walked` the permitted ones, with what they have to do with each other, and
counts the others. -/
structure ShowsPermitted (walked : List Row) (hopsOf : String → Nat) (n : Neighbourhood) : Prop where
  answered : n.answered ↔ ∃ r ∈ walked, Permitted scope nowMs r
  nodes : ∀ v, v ∈ n.nodes ↔ ∃ r ∈ walked, Permitted scope nowMs r ∧ v = nodeView r.payload (hopsOf r.key.id)
  once : (n.nodes.map NodeView.id).Nodup
  sorted : n.nodes.Pairwise (fun a b => a.hops < b.hops ∨ a.hops = b.hops ∧ a.id ≤ b.id)
  edges : ∀ e, e ∈ n.edges ↔ ∃ a ∈ walked, ∃ b ∈ walked, ∃ r, Permitted scope nowMs a ∧ Permitted scope nowMs b ∧
    (a.key, r, b.key) ∈ s.edges ∧ e = ⟨a.key.id, r.type, b.key.id⟩
  edgesOnce : n.edges.Nodup
  sources : ∀ x, x ∈ n.sources ↔ ∃ r ∈ walked, Permitted scope nowMs r ∧ ∃ source ∈ r.payload.acl.sources, x = source.val
  considered : n.considered = walked.length
  withheld : n.withheld + n.nodes.length = n.considered
  withheldEdges : n.withheldEdges + n.edges.length = (triplesInside s walked).length

end Permitted

section Permitted
variable {rows : RowOrder Row} {s : Store} {scope : Scope} {ownerId : String} {seedIds : List String} {hops : Nat}
variable {nowMs : Int}

theorem id_nodeView (n : MemoryNode) (h : Nat) : (nodeView n h).id = n.id := by cases n <;> rfl

theorem hops_nodeView (n : MemoryNode) (h : Nat) : (nodeView n h).hops = h := by cases n <;> rfl

theorem sources_nodeView (n : MemoryNode) (h : Nat) : (nodeView n h).sources = n.acl.sources := by cases n <;> rfl

/-- What the nodes are sorted by. -/
def nearness (hopOf : List (String × Nat)) (n : MemoryNode) : Nat ×ₗ String := toLex ((hopOf.lookup n.id).getD 0, n.id)

theorem nearer_iff (hopOf : List (String × Nat)) (a b : MemoryNode) :
    nearer hopOf a b ↔ nearness hopOf a ≤ nearness hopOf b := by
  rw [nearer, nearness, nearness, Prod.Lex.toLex_le_toLex]

theorem mem_shown {n : MemoryNode} : n ∈ shown rows s scope seedIds hops nowMs ↔
    ∃ r ∈ region s scope.ownerId seedIds hops, Permitted scope nowMs r ∧ n = r.payload := by
  rw [shown, List.mem_filter, candidates_perm.mem_iff, List.mem_map, decide_eq_true_eq, verdict_eq_none_iff]
  constructor
  · rintro ⟨⟨r, hr, rfl⟩, hp⟩
    exact ⟨r, hr, hp, rfl⟩
  · rintro ⟨r, hr, hp, rfl⟩
    exact ⟨⟨r, hr, rfl⟩, hp⟩

theorem mem_shownNodes {v : NodeView} : v ∈ shownNodes rows s scope seedIds hops nowMs ↔
    ∃ r ∈ region s scope.ownerId seedIds hops, Permitted scope nowMs r ∧
      v = nodeView r.payload (hopsOf s scope.ownerId seedIds hops r.key.id) := by
  rw [shownNodes, List.mem_map]
  constructor
  · rintro ⟨n, hn, rfl⟩
    obtain ⟨r, hr, hp, rfl⟩ := mem_shown.mp ((List.mem_insertionSort _).mp hn)
    exact ⟨r, hr, hp, rfl⟩
  · rintro ⟨r, hr, hp, rfl⟩
    exact ⟨r.payload, (List.mem_insertionSort _).mpr (mem_shown.mpr ⟨r, hr, hp, rfl⟩), rfl⟩

theorem nodup_shownNodes (hids : UniqueIds s scope.ownerId) :
    ((shownNodes rows s scope seedIds hops nowMs).map NodeView.id).Nodup := by
  have hid : NodeView.id ∘ (fun n : MemoryNode => nodeView n (hopsOf s scope.ownerId seedIds hops n.id)) = MemoryNode.id := by
    funext n
    exact id_nodeView n _
  rw [shownNodes, List.map_map, hid]
  have hperm := (List.perm_insertionSort (nearer (walk rows s scope seedIds hops).hopOf)
    (shown rows s scope seedIds hops nowMs)).map MemoryNode.id
  exact hperm.nodup_iff.mpr ((nodup_candidates hids).sublist (List.filter_sublist.map _))

theorem pairwise_shownNodes : (shownNodes rows s scope seedIds hops nowMs).Pairwise
    (fun a b => a.hops < b.hops ∨ a.hops = b.hops ∧ a.id ≤ b.id) := by
  rw [shownNodes, List.pairwise_map]
  refine (Order.pairwise_sort (nearness (walk rows s scope seedIds hops).hopOf) (nearer_iff _) _).imp (fun {a b} hab => ?_)
  unfold nearer at hab
  simp only [getD_hopOf] at hab
  rw [hops_nodeView, hops_nodeView, id_nodeView, id_nodeView]
  exact hab

/-- Within the region a node of the owner is known by its id. -/
theorem row_eq_of_id (hids : UniqueIds s ownerId) {a b : Row} (ha : a ∈ region s ownerId seedIds hops)
    (hb : b ∈ region s ownerId seedIds hops) (h : a.key.id = b.key.id) : a = b := by
  obtain ⟨ha, hao, _⟩ := mem_region.mp ha
  obtain ⟨hb, hbo, _⟩ := mem_region.mp hb
  exact hids.row_eq ha hao hb hbo h

private theorem permitted_of_id (hids : UniqueIds s scope.ownerId) {a : Row}
    (ha : a ∈ region s scope.ownerId seedIds hops) :
    a.key.id ∈ (shown rows s scope seedIds hops nowMs).map MemoryNode.id ↔ Permitted scope nowMs a := by
  rw [List.mem_map]
  constructor
  · rintro ⟨n, hn, hid⟩
    obtain ⟨r, hr, hp, rfl⟩ := mem_shown.mp hn
    exact row_eq_of_id hids hr ha hid ▸ hp
  · intro hp
    exact ⟨a.payload, mem_shown.mpr ⟨a, ha, hp, rfl⟩, rfl⟩

theorem mem_shownEdges (hids : UniqueIds s scope.ownerId) {e : EdgeView} :
    e ∈ shownEdges rows s scope seedIds hops nowMs ↔ ∃ a ∈ region s scope.ownerId seedIds hops,
      ∃ b ∈ region s scope.ownerId seedIds hops, ∃ r, Permitted scope nowMs a ∧ Permitted scope nowMs b ∧
        (a.key, r, b.key) ∈ s.edges ∧ e = ⟨a.key.id, r.type, b.key.id⟩ := by
  simp only [shownEdges, List.mem_map, List.mem_filter, decide_eq_true_eq]
  constructor
  · rintro ⟨⟨x, t, y⟩, ⟨he, hx, hy⟩, rfl⟩
    obtain ⟨a, ha, b, hb, r, hr, rfl, rfl, rfl⟩ := mem_edges.mp he
    rw [← List.mem_map] at hx hy
    exact ⟨a, ha, b, hb, r, (permitted_of_id hids ha).mp hx, (permitted_of_id hids hb).mp hy, hr, rfl⟩
  · rintro ⟨a, ha, b, hb, r, hpa, hpb, hr, rfl⟩
    refine ⟨(a.key.id, r.type, b.key.id), ⟨mem_edges.mpr ⟨a, ha, b, hb, r, hr, rfl, rfl, rfl⟩, ?_, ?_⟩, rfl⟩
    · exact List.mem_map.mp ((permitted_of_id hids ha).mpr hpa)
    · exact List.mem_map.mp ((permitted_of_id hids hb).mpr hpb)

theorem nodup_shownEdges : (shownEdges rows s scope seedIds hops nowMs).Nodup := by
  refine List.Nodup.map (fun a b hab => ?_) (nodup_edges.filter _)
  injection hab with h₁ h₂ h₃
  exact Prod.ext h₁ (Prod.ext h₂ h₃)

theorem pairwise_shownEdges : (shownEdges rows s scope seedIds hops nowMs).Pairwise
    (fun e f => Store.tripleBefore (e.fromId, e.type, e.toId) (f.fromId, f.type, f.toId)) := by
  rw [shownEdges, List.pairwise_map]
  exact pairwise_edges.sublist List.filter_sublist

theorem mem_sortedSet {values : List String} {x : String} : x ∈ sortedSet values ↔ x ∈ values := by
  rw [sortedSet, List.mem_insertionSort, List.mem_dedup]

theorem mem_shownSources {x : String} : x ∈ shownSources rows s scope seedIds hops nowMs ↔
    ∃ r ∈ region s scope.ownerId seedIds hops, Permitted scope nowMs r ∧ ∃ source ∈ r.payload.acl.sources, x = source.val := by
  rw [shownSources, mem_sortedSet, List.mem_flatMap]
  constructor
  · rintro ⟨v, hv, hx⟩
    obtain ⟨r, hr, hp, rfl⟩ := mem_shownNodes.mp hv
    obtain ⟨source, hsource, rfl⟩ := List.mem_map.mp hx
    exact ⟨r, hr, hp, source, sources_nodeView _ _ ▸ hsource, rfl⟩
  · rintro ⟨r, hr, hp, source, hsource, rfl⟩
    exact ⟨_, mem_shownNodes.mpr ⟨r, hr, hp, rfl⟩, List.mem_map.mpr ⟨source, (sources_nodeView _ _).symm ▸ hsource, rfl⟩⟩

theorem length_candidates :
    (walk rows s scope seedIds hops).candidates.length = (region s scope.ownerId seedIds hops).length :=
  candidates_perm.length_eq.trans (List.length_map _)

/-- The edges of the walk are the distinct triples inside its region. -/
theorem length_edges : (walk rows s scope seedIds hops).edges.length =
    (triplesInside s (region s scope.ownerId seedIds hops)).length := by
  refine List.Perm.length_eq ((List.perm_ext_iff_of_nodup nodup_edges (List.nodup_dedup _)).mpr (fun e => ?_))
  obtain ⟨x, t, y⟩ := e
  simp only [mem_edges, List.mem_dedup, List.mem_map, List.mem_filter, decide_eq_true_eq, Prod.mk.injEq]
  constructor
  · rintro ⟨a, ha, b, hb, r, hr, rfl, rfl, rfl⟩
    exact ⟨_, ⟨hr, ⟨a, ha, rfl⟩, b, hb, rfl⟩, rfl, rfl, rfl⟩
  · rintro ⟨⟨_, r, _⟩, ⟨hr, ⟨a, ha, rfl⟩, b, hb, rfl⟩, rfl, rfl, rfl⟩
    exact ⟨a, ha, b, hb, r, hr, rfl, rfl, rfl⟩

end Permitted

/-- A neighbourhood read shows exactly the permitted part of what it walks. -/
theorem shows_permitted_part (repr : String → String) (rows : RowOrder Row) (s : Store) (scope : Scope)
    (seedIds : List String) (hops : Nat) (nowMs : Int) (hids : UniqueIds s scope.ownerId) :
    ShowsPermitted s scope nowMs (region s scope.ownerId seedIds hops) (hopsOf s scope.ownerId seedIds hops)
      (neighbourhood repr rows s scope seedIds hops nowMs) := by
  rw [neighbourhood_eq hids]
  refine ⟨?_, fun v => mem_shownNodes, nodup_shownNodes hids, pairwise_shownNodes,
    fun e => mem_shownEdges hids, nodup_shownEdges, fun x => mem_shownSources, length_candidates, ?_, ?_⟩
  · rw [decide_eq_true_eq, ne_eq, List.eq_nil_iff_forall_not_mem, not_forall]
    simp only [not_not, mem_shown]
    exact ⟨fun ⟨_, r, hr, hp, _⟩ => ⟨r, hr, hp⟩, fun ⟨r, hr, hp⟩ => ⟨_, r, hr, hp, rfl⟩⟩
  · have hle : (shown rows s scope seedIds hops nowMs).length ≤ (walk rows s scope seedIds hops).candidates.length :=
      List.length_filter_le _ _
    rw [shownNodes, List.length_map, List.length_insertionSort]
    exact Nat.sub_add_cancel hle
  · have hle : (shownEdges rows s scope seedIds hops nowMs).length ≤ (walk rows s scope seedIds hops).edges.length := by
      rw [shownEdges, List.length_map]
      exact List.length_filter_le _ _
    rw [← (length_edges : (walk rows s scope seedIds hops).edges.length = _)]
    exact Nat.sub_add_cancel hle

/-- A document of the owner's, confidential or not. -/
def document (id : String) (confidential : Bool) : Event where
  id := id
  ownerId := "alice"
  summary := id
  source := { connector := ⟨"mock", checkSourceId_mock⟩, externalId := id, occurredAtMs := 1, ingestedAtMs := 2 }
  provenance := { derivedBy := "mock", createdAtMs := 2 }
  acl := { ownerId := "alice", sources := [⟨"mock", checkSourceId_mock⟩], entityKinds := [.artifact], occurredAtMs := 1,
           sensitivity := if confidential then .confidential else .personal }

/-- Documents, and which of them cites which. -/
def library (documents : List Event) (cites : List (String × String)) : Store :=
  execAll (documents.map (fun e => .upsert (.event e) e.summary) ++ cites.map (fun (a, b) => .link a .cites b))
    PropertyGraph.empty

/-- A grant for whatever is not confidential. -/
def personalOnly : Scope where
  agentId := "agent"
  ownerId := "alice"
  sources := [⟨"mock", checkSourceId_mock⟩]
  entityKinds := [.artifact]

/-- Two documents with a confidential one between them. -/
def between : Store :=
  library [document "evt_a" false, document "evt_b" true, document "evt_c" false] [("evt_b", "evt_a"), ("evt_c", "evt_b")]

theorem shows_permitted_part_between : UniqueIds between personalOnly.ownerId ∧
    ShowsPermitted between personalOnly 10 (region between personalOnly.ownerId ["evt_a"] 2)
      (hopsOf between personalOnly.ownerId ["evt_a"] 2) (neighbourhood id .asStored between personalOnly ["evt_a"] 2 10) := by
  have hids : UniqueIds between personalOnly.ownerId := by decide +kernel
  exact ⟨hids, shows_permitted_part id .asStored between personalOnly ["evt_a"] 2 10 hids⟩

end Memorai.Nearby
