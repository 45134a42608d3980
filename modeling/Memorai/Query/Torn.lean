import Memorai.Context.Chain
import Memorai.History.ShiftGuards
import Memorai.Query.Redaction

/-! Reads that are torn: the store may be written between any two queries of one read. What is checked is what was fetched,
so nothing is shown under the verdict on something else. -/
namespace Memorai.Query
open Schema Storage
open History (ShiftHistory ClaimView Denial Verdicts claimView reconciledInto)
open Nearby (distinct)

section Reads
variable (rows : RowOrder Row) (scope : Scope) (nowMs : Int)

/-- `why_did_this_shift`, with the stores that its three queries find. -/
def shiftOver (fmt : History.Formatting) (chained linked fetched : Store) (claimId : String) : ShiftHistory :=
  let chain := chained.supersessionChain scope.ownerId claimId 24
  let ids := chain.map (fun r => r.key.id)
  let links := if ids = [] then [] else linked.conflictLinks scope.ownerId ids
  let reconciled := chain.filterMap (fun r => r.claim?.bind reconciledInto)
  let extra := (reconciled ++ links.flatMap (fun (a, b) => [a, b])).filter (· ∉ ids)
  let found := chain ++ (if extra = [] then [] else fetched.getMany rows scope.ownerId extra)
  let walked : History.Walk := { candidates := found.filterMap Row.claim?, edges := links, hopOf := ids }
  let (verdicts, denials) := History.checkPermissions scope nowMs walked.candidates
  History.assemble fmt claimId walked verdicts denials

/-- `context_chain`, with the stores that its three queries find: `cites_chain` asks for the nodes and then for the edges. -/
def contextOver (repr : String → String) (cited traced fetched : Store) (objectId : String) (hops : Nat) :
    Context.ContextChain :=
  let reached := (cited.citesChain scope.ownerId objectId hops).1
  let edges := (traced.citesChain scope.ownerId objectId hops).2
  let hopOf := (objectId, 0) :: reached.filter (fun p => p.1 ≠ objectId)
  let walked : Context.Walk :=
    { candidates := (fetched.getMany rows scope.ownerId (hopOf.map Prod.fst)).map Row.payload
      edges := edges
      hopOf := hopOf }
  let (verdicts, denials) := Nearby.checkPermissions scope nowMs walked.candidates
  Context.assemble repr objectId hops walked verdicts denials

/-- `neighbourhood`, with the stores that its four queries find. -/
def neighbourhoodOver (repr : String → String) (seeded near fetched joined : Store) (seedIds : List String) (hops : Nat) :
    Nearby.Neighbourhood :=
  let seeds := distinct seedIds
  let present := (seeded.getMany rows scope.ownerId seeds).map (fun r => r.key.id)
  let walked : Nearby.Walk :=
    if present = [] then {}
    else
      let reached := near.neighbourIds scope.ownerId present hops
      let start := (seeds.filter (· ∈ present)).map (fun sid => (sid, 0))
      let hopOf := start ++ reached.filter (fun p => p.1 ∉ start.map Prod.fst)
      let ids := hopOf.map Prod.fst
      { candidates := (fetched.getMany rows scope.ownerId ids).map Row.payload
        edges := joined.edgesAmong scope.ownerId ids
        hopOf := hopOf }
  let (verdicts, denials) := Nearby.checkPermissions scope nowMs walked.candidates
  Nearby.assemble repr seedIds hops walked verdicts denials

end Reads

section Whole
variable {rows : RowOrder Row} {scope : Scope} {nowMs : Int} {s : Store}

/-- Over one store they are the reads. -/
theorem shiftOver_same (fmt : History.Formatting) (claimId : String) : shiftOver rows scope nowMs fmt s s s claimId =
    History.whyDidThisShift fmt rows s scope claimId nowMs := rfl

theorem contextOver_same (repr : String → String) (objectId : String) (hops : Nat) :
    contextOver rows scope nowMs repr s s s objectId hops = Context.contextChain repr rows s scope objectId hops nowMs := rfl

theorem neighbourhoodOver_same (repr : String → String) (seedIds : List String) (hops : Nat) :
    neighbourhoodOver rows scope nowMs repr s s s s seedIds hops = Nearby.neighbourhood repr rows s scope seedIds hops nowMs := rfl

end Whole

/-- Every claim that a history says something of. -/
def views (history : ShiftHistory) : List ClaimView :=
  history.chain ++ history.steps.flatMap (fun st => [st.superseding, st.superseded]) ++
    history.conflicts.flatMap (fun (a, b) => [a, b]) ++
    history.reconciliations.flatMap (fun (view, other) => match other with
      | .claim view' => [view, view']
      | .absent _ => [view])

/-- An object of the owner in one of these stores. -/
def Fetched (stores : List Store) (ownerId : String) (node : MemoryNode) : Prop :=
  ∃ s ∈ stores, ∃ r ∈ s.nodes, r.payload = node ∧ r.ownerId = ownerId

section Shift
variable {scope : Scope} {nowMs : Int} {walked : History.Walk}

/-- A view of a walked claim, under the verdict on that claim. -/
def IsView (scope : Scope) (nowMs : Int) (candidates : List Claim) (view : ClaimView) : Prop :=
  ∃ c ∈ candidates, view = claimView c (History.verdict scope nowMs c)

private theorem view_of_mem {k : String} {c : Claim} (h : (k, c) ∈ Dict.collect Claim.id id walked.candidates) :
    c ∈ walked.candidates ∧
      History.viewOf (History.checkPermissions scope nowMs walked.candidates).1 c = claimView c (History.verdict scope nowMs c) := by
  have hreason : (History.checkPermissions scope nowMs walked.candidates).1.reason k = History.verdict scope nowMs c :=
    History.reason_of_mem h
  obtain ⟨own, hown, heq⟩ := Dict.mem_collect _ h
  obtain ⟨rfl, rfl⟩ := Prod.mk.inj heq
  exact ⟨hown, congrArg (claimView _) hreason⟩

private theorem isView_of_mem {k : String} {c : Claim} (h : (k, c) ∈ Dict.collect Claim.id id walked.candidates) :
    IsView scope nowMs walked.candidates (History.viewOf (History.checkPermissions scope nowMs walked.candidates).1 c) :=
  ⟨c, view_of_mem h⟩

private theorem exists_mem_of_ordered {hopOf : List String} {c : Claim}
    (h : c ∈ History.orderedOf (Dict.collect Claim.id id walked.candidates) hopOf) :
    ∃ k, (k, c) ∈ Dict.collect Claim.id id walked.candidates := by
  obtain ⟨⟨k, _⟩, hk, rfl⟩ := List.mem_map.mp ((List.mem_insertionSort _).mp h)
  exact ⟨k, (List.mem_filter.mp hk).1⟩

private theorem isView_of_ordered {hopOf : List String} {c : Claim}
    (h : c ∈ History.orderedOf (Dict.collect Claim.id id walked.candidates) hopOf) :
    IsView scope nowMs walked.candidates (History.viewOf (History.checkPermissions scope nowMs walked.candidates).1 c) :=
  let ⟨_, hc⟩ := exists_mem_of_ordered h
  isView_of_mem hc

theorem isView_of_assemble {fmt : History.Formatting} {claimId : String} {denials : List Denial} {view : ClaimView}
    (h : view ∈ views (History.assemble fmt claimId walked (History.checkPermissions scope nowMs walked.candidates).1 denials)) :
    IsView scope nowMs walked.candidates view := by
  have hlooked : ∀ {k c}, (Dict.collect Claim.id id walked.candidates).lookup k = some c →
      IsView scope nowMs walked.candidates (History.viewOf (History.checkPermissions scope nowMs walked.candidates).1 c) :=
    fun hk => isView_of_mem (Dict.mem_of_lookup hk)
  rw [History.assemble_eq] at h
  dsimp only at h
  split at h
  · exact absurd h (by simp [views])
  · split at h
    · exact absurd h (by simp [views])
    · simp only [views, List.mem_append, List.mem_map, List.mem_flatMap, List.mem_cons, List.not_mem_nil, or_false] at h
      obtain ((⟨c, hc, rfl⟩ | ⟨st, hst, hview⟩) | ⟨⟨a, b⟩, hconflict, hview⟩) | ⟨⟨own, other⟩, hreconciled, hview⟩ := h
      · exact isView_of_ordered hc
      · obtain ⟨⟨k, a⟩, ha, j, _, b, hb, rfl⟩ := (History.mem_stepsOf _ _).mp hst
        obtain rfl | rfl := hview
        · exact isView_of_mem ha
        · exact hlooked hb
      · rw [History.conflictsOf_eq_views, List.mem_filterMap] at hconflict
        obtain ⟨e, _, he⟩ := hconflict
        obtain ⟨_, ha, he⟩ := Option.bind_eq_some_iff.mp he
        obtain ⟨c, hc, rfl⟩ := Option.map_eq_some_iff.mp ha
        obtain ⟨_, hb, he⟩ := Option.map_eq_some_iff.mp he
        obtain ⟨c', hc', rfl⟩ := Option.map_eq_some_iff.mp hb
        obtain ⟨rfl, rfl⟩ := Prod.mk.inj he
        obtain rfl | rfl := hview
        · exact hlooked hc
        · exact hlooked hc'
      · rw [History.reconciliationsOf_eq_views, List.mem_filterMap] at hreconciled
        obtain ⟨c, hc, heq⟩ := hreconciled
        obtain ⟨target, _, heq⟩ := Option.map_eq_some_iff.mp heq
        obtain ⟨rfl, rfl⟩ := Prod.mk.inj heq
        cases htarget : (Dict.collect Claim.id id walked.candidates).lookup target with
        | none =>
          rw [htarget] at hview
          obtain rfl := List.mem_singleton.mp hview
          exact isView_of_ordered hc
        | some other =>
          rw [htarget] at hview
          obtain rfl | hview := List.mem_cons.mp hview
          · exact isView_of_ordered hc
          · obtain rfl := List.mem_singleton.mp hview
            exact hlooked htarget

/-- A reconciliation with a claim that was not fetched names the target that its own claim names. -/
theorem absent_of_assemble {fmt : History.Formatting} {claimId target : String} {denials : List Denial} {view : ClaimView}
    (h : (view, .absent target) ∈ (History.assemble fmt claimId walked
      (History.checkPermissions scope nowMs walked.candidates).1 denials).reconciliations) :
    ∃ c ∈ walked.candidates, reconciledInto c = some target ∧ view = claimView c (History.verdict scope nowMs c) := by
  rw [History.assemble_eq] at h
  dsimp only at h
  split at h
  · exact absurd h List.not_mem_nil
  · split at h
    · exact absurd h List.not_mem_nil
    · rw [History.reconciliationsOf_eq_views, List.mem_filterMap] at h
      obtain ⟨c, hc, heq⟩ := h
      obtain ⟨into, hinto, heq⟩ := Option.map_eq_some_iff.mp heq
      obtain ⟨rfl, hother⟩ := Prod.mk.inj heq
      obtain ⟨k, hk⟩ := exists_mem_of_ordered hc
      obtain ⟨hmem, hview⟩ := @view_of_mem scope nowMs _ _ _ hk
      cases htarget : (Dict.collect Claim.id id walked.candidates).lookup into with
      | none =>
        rw [htarget] at hother
        obtain rfl : into = target := by injection hother
        exact ⟨c, hmem, hinto, hview⟩
      | some other =>
        rw [htarget] at hother
        exact absurd hother (by simp)

theorem denied_of_assemble {fmt : History.Formatting} {claimId : String} {d : Denial}
    (h : d ∈ (History.assemble fmt claimId walked (History.checkPermissions scope nowMs walked.candidates).1
      (History.checkPermissions scope nowMs walked.candidates).2).denied) :
    ∃ c ∈ walked.candidates, History.verdict scope nowMs c = some d.reason ∧ d.id = c.id := by
  have hdenied : d ∈ (History.checkPermissions scope nowMs walked.candidates).2 := by
    unfold History.assemble at h
    dsimp only at h
    split at h
    · exact absurd h List.not_mem_nil
    · split at h
      · exact h
      · exact h
  obtain ⟨c, hc, hdenial⟩ := List.mem_filterMap.mp hdenied
  obtain ⟨reason, hreason, rfl⟩ := Option.map_eq_some_iff.mp hdenial
  exact ⟨c, hc, hreason, rfl⟩

end Shift

section Assemble
variable {repr : String → String} {scope : Scope} {nowMs : Int} {hops : Nat} {denials : List Denial}

theorem node_of_context {walked : Context.Walk} {objectId : String} {v : Context.NodeView}
    (h : v ∈ (Context.assemble repr objectId hops walked (Nearby.checkPermissions scope nowMs walked.candidates).1 denials).nodes) :
    ∃ node ∈ walked.candidates, ∃ n, v = Context.nodeView node n (Nearby.verdict scope nowMs node) := by
  unfold Context.assemble at h
  dsimp only at h
  split at h
  · exact absurd h List.not_mem_nil
  · split at h
    · exact absurd h List.not_mem_nil
    · obtain ⟨node, hnode, rfl⟩ := List.mem_map.mp h
      obtain ⟨⟨k, _⟩, hk, rfl⟩ := List.mem_map.mp ((List.mem_insertionSort _).mp hnode)
      have hreason : (Nearby.checkPermissions scope nowMs walked.candidates).1.reason k = _ := reason_of_collect hk
      obtain ⟨own, hown, heq⟩ := Dict.mem_collect _ hk
      obtain ⟨rfl, rfl⟩ := Prod.mk.inj heq
      exact ⟨_, hown, _, congrArg (Context.nodeView _ _) hreason⟩

theorem denied_of_context {walked : Context.Walk} {objectId : String} {d : Denial}
    (h : d ∈ (Context.assemble repr objectId hops walked (Nearby.checkPermissions scope nowMs walked.candidates).1
      (Nearby.checkPermissions scope nowMs walked.candidates).2).denied) :
    ∃ node ∈ walked.candidates, Nearby.verdict scope nowMs node = some d.reason ∧ d.id = node.id := by
  have hdenied : d ∈ (Nearby.checkPermissions scope nowMs walked.candidates).2 := by
    unfold Context.assemble at h
    dsimp only at h
    split at h
    · exact absurd h List.not_mem_nil
    · split at h
      · exact h
      · exact h
  obtain ⟨node, hnode, hdenial⟩ := List.mem_filterMap.mp hdenied
  obtain ⟨reason, hreason, rfl⟩ := Option.map_eq_some_iff.mp hdenial
  exact ⟨node, hnode, hreason, rfl⟩

/-- The edges of a context chain are the walked ones, whatever became of their ends. -/
theorem edge_of_context {walked : Context.Walk} {objectId : String} {e : String × String} {verdicts : Verdicts}
    (h : e ∈ (Context.assemble repr objectId hops walked verdicts denials).edges) : e ∈ walked.edges := by
  unfold Context.assemble at h
  dsimp only at h
  split at h
  · exact absurd h List.not_mem_nil
  · split at h
    · exact absurd h List.not_mem_nil
    · exact h

private theorem open_of_visible {nodes : List MemoryNode} {p : String × MemoryNode} (h : p ∈ (Dict.collect MemoryNode.id id nodes).filter
    (fun p => (Nearby.checkPermissions scope nowMs nodes).1.reason p.1 = none)) :
    p.2 ∈ nodes ∧ p.1 = p.2.id ∧ Nearby.verdict scope nowMs p.2 = none := by
  obtain ⟨hin, hnone⟩ := List.mem_filter.mp h
  obtain ⟨own, hown, rfl⟩ := Dict.mem_collect _ hin
  exact ⟨hown, rfl, (reason_of_collect hin).symm.trans (of_decide_eq_true hnone)⟩

theorem node_of_neighbourhood {walked : Nearby.Walk} {seedIds : List String} {v : Nearby.NodeView}
    (h : v ∈ (Nearby.assemble repr seedIds hops walked (Nearby.checkPermissions scope nowMs walked.candidates).1 denials).nodes) :
    ∃ node ∈ walked.candidates, Nearby.verdict scope nowMs node = none ∧ ∃ n, v = Nearby.nodeView node n := by
  unfold Nearby.assemble at h
  dsimp only at h
  split at h
  · exact absurd h List.not_mem_nil
  · split at h
    · exact absurd h List.not_mem_nil
    · obtain ⟨node, hnode, rfl⟩ := List.mem_map.mp h
      obtain ⟨p, hp, rfl⟩ := List.mem_map.mp ((List.mem_insertionSort _).mp hnode)
      obtain ⟨hin, _, hopen⟩ := open_of_visible hp
      exact ⟨p.2, hin, hopen, _, rfl⟩

theorem edge_of_neighbourhood {walked : Nearby.Walk} {seedIds : List String} {e : Nearby.EdgeView}
    (h : e ∈ (Nearby.assemble repr seedIds hops walked (Nearby.checkPermissions scope nowMs walked.candidates).1 denials).edges) :
    ∀ x ∈ [e.fromId, e.toId], x ∈ (Nearby.assemble repr seedIds hops walked
      (Nearby.checkPermissions scope nowMs walked.candidates).1 denials).nodes.map Nearby.NodeView.id := by
  unfold Nearby.assemble at h ⊢
  dsimp only at h ⊢
  split at h
  · exact absurd h List.not_mem_nil
  · rename_i hwalked
    rw [if_neg hwalked]
    split at h
    · exact absurd h List.not_mem_nil
    · rename_i hvisible
      rw [if_neg hvisible]
      obtain ⟨edge, hedge, rfl⟩ := List.mem_map.mp h
      obtain ⟨hfrom, hto⟩ := of_decide_eq_true (List.mem_filter.mp hedge).2
      intro x hx
      have hshown : x ∈ ((Dict.collect MemoryNode.id id walked.candidates).filter
          (fun p => (Nearby.checkPermissions scope nowMs walked.candidates).1.reason p.1 = none)).map Prod.fst := by
        obtain rfl | hx := List.mem_cons.mp hx
        · exact hfrom
        · exact List.mem_singleton.mp hx ▸ hto
      obtain ⟨p, hp, rfl⟩ := List.mem_map.mp hshown
      rw [(open_of_visible hp).2.1, ← Nearby.id_nodeView p.2 ((walked.hopOf.lookup p.2.id).getD 0)]
      exact List.mem_map_of_mem (List.mem_map_of_mem ((List.mem_insertionSort _).mpr (List.mem_map_of_mem hp)))

end Assemble

section Fetch
variable {rows : RowOrder Row} {ownerId : String} {s : Store} {stores : List Store}

theorem ownerId_of_supersessionChain {claimId : String} {maxHops : Nat} {r : Row} (h : r ∈ s.supersessionChain ownerId claimId maxHops) :
    r.ownerId = ownerId := by
  unfold Store.supersessionChain at h
  split at h
  · rename_i hclaim
    have howned : ∀ n, ∀ k ∈ Nat.iterate (s.supersessionHop ownerId) n [⟨.claim, claimId⟩], s.ownedBy ownerId k := by
      intro n
      induction n with
      | zero => exact fun k hk => List.mem_singleton.mp hk ▸ hclaim
      | succ n ih =>
        intro k hk
        rw [Function.iterate_succ_apply'] at hk
        rcases of_decide_eq_true (List.mem_filter.mp hk).2 with hk | ⟨hk, _⟩
        · exact ih k hk
        · exact hk
    obtain ⟨hr, hcond⟩ := List.mem_filter.mp ((List.mem_insertionSort _).mp h)
    obtain ⟨w, hw, hkey, hown⟩ := Store.ownedBy_iff.mp (howned maxHops r.key (of_decide_eq_true hcond).1)
    rwa [← List.inj_on_of_nodup_map s.unique hw hr hkey]
  · exact absurd h List.not_mem_nil

theorem fetched_of_getMany (hs : s ∈ stores) {nodeIds : List String} {node : MemoryNode}
    (h : node ∈ (s.getMany rows ownerId nodeIds).map Row.payload) : Fetched stores ownerId node := by
  obtain ⟨r, hr, rfl⟩ := List.mem_map.mp h
  obtain ⟨hin, hown, _⟩ := Store.mem_getMany.mp hr
  exact ⟨s, hs, r, hin, rfl, hown⟩

theorem fetched_of_chain (hs : s ∈ stores) {claimId : String} {maxHops : Nat} {r : Row}
    (h : r ∈ s.supersessionChain ownerId claimId maxHops) : Fetched stores ownerId r.payload :=
  ⟨s, hs, r, History.mem_of_supersessionChain h, rfl, ownerId_of_supersessionChain h⟩

theorem Fetched.claim {found : List Row} {c : Claim} (hfound : ∀ r ∈ found, Fetched stores ownerId r.payload)
    (h : c ∈ found.filterMap Row.claim?) : Fetched stores ownerId (.claim c) := by
  obtain ⟨r, hr, hclaim⟩ := List.mem_filterMap.mp h
  exact (Row.claim?_eq_some_iff r c).mp hclaim ▸ hfound r hr

end Fetch

/-- Whatever is written between the queries of a read, each view and each denial is of an object that was fetched for the
owner, under the verdict on that very object. A bare target is the one that a fetched claim names, a context chain shows
citations between nodes of the owner, and a neighbourhood shows an edge between shown nodes only. -/
theorem torn_reads_confined (rows : RowOrder Row) (scope : Scope) (nowMs : Int) (fmt : History.Formatting) :
    (∀ chained linked fetched claimId,
      (∀ view ∈ views (shiftOver rows scope nowMs fmt chained linked fetched claimId),
        ∃ c, Fetched [chained, fetched] scope.ownerId (.claim c) ∧ view = claimView c (History.verdict scope nowMs c)) ∧
      (∀ view target, (view, .absent target) ∈ (shiftOver rows scope nowMs fmt chained linked fetched claimId).reconciliations →
        ∃ c, Fetched [chained, fetched] scope.ownerId (.claim c) ∧ reconciledInto c = some target ∧
          view = claimView c (History.verdict scope nowMs c)) ∧
      ∀ d ∈ (shiftOver rows scope nowMs fmt chained linked fetched claimId).denied,
        ∃ c, Fetched [chained, fetched] scope.ownerId (.claim c) ∧ History.verdict scope nowMs c = some d.reason ∧ d.id = c.id) ∧
    (∀ cited traced fetched objectId hops,
      (∀ v ∈ (contextOver rows scope nowMs fmt.repr cited traced fetched objectId hops).nodes,
        ∃ node n, Fetched [fetched] scope.ownerId node ∧ v = Context.nodeView node n (Nearby.verdict scope nowMs node)) ∧
      (∀ e ∈ (contextOver rows scope nowMs fmt.repr cited traced fetched objectId hops).edges,
        ∃ c ∈ traced.ownCites scope.ownerId, e = (c.1.id, c.2.2.id)) ∧
      ∀ d ∈ (contextOver rows scope nowMs fmt.repr cited traced fetched objectId hops).denied,
        ∃ node, Fetched [fetched] scope.ownerId node ∧ Nearby.verdict scope nowMs node = some d.reason ∧ d.id = node.id) ∧
    ∀ seeded near fetched joined seedIds hops,
      (∀ v ∈ (neighbourhoodOver rows scope nowMs fmt.repr seeded near fetched joined seedIds hops).nodes,
        ∃ node n, Fetched [fetched] scope.ownerId node ∧ Nearby.verdict scope nowMs node = none ∧ v = Nearby.nodeView node n) ∧
      ∀ e ∈ (neighbourhoodOver rows scope nowMs fmt.repr seeded near fetched joined seedIds hops).edges,
        e.fromId ∈ (neighbourhoodOver rows scope nowMs fmt.repr seeded near fetched joined seedIds hops).nodes.map Nearby.NodeView.id ∧
          e.toId ∈ (neighbourhoodOver rows scope nowMs fmt.repr seeded near fetched joined seedIds hops).nodes.map Nearby.NodeView.id := by
  refine ⟨fun chained linked fetched claimId => ?_, fun cited traced fetched objectId hops => ?_,
    fun seeded near fetched joined seedIds hops => ⟨fun v hv => ?_, fun e he => ?_⟩⟩
  · have hstores : chained ∈ [chained, fetched] ∧ fetched ∈ [chained, fetched] := by simp
    have hextra : ∀ extra : List String, ∀ r ∈ (if extra = [] then [] else fetched.getMany rows scope.ownerId extra),
        Fetched [chained, fetched] scope.ownerId r.payload := by
      intro extra r hr
      exact fetched_of_getMany hstores.2 (List.mem_map_of_mem (List.mem_ite_nil_left.mp hr).2)
    have hcandidate : ∀ extra : List String, ∀ c ∈ (chained.supersessionChain scope.ownerId claimId 24 ++
        (if extra = [] then [] else fetched.getMany rows scope.ownerId extra)).filterMap Row.claim?,
          Fetched [chained, fetched] scope.ownerId (.claim c) := by
      intro extra c hc
      refine Fetched.claim (fun r hr => ?_) hc
      rcases List.mem_append.mp hr with hr | hr
      · exact fetched_of_chain hstores.1 hr
      · exact hextra extra r hr
    refine ⟨fun view hview => ?_, fun view target habsent => ?_, fun d hd => ?_⟩
    · obtain ⟨c, hc, rfl⟩ := isView_of_assemble hview
      exact ⟨c, hcandidate _ c hc, rfl⟩
    · obtain ⟨c, hc, htarget, rfl⟩ := absent_of_assemble habsent
      exact ⟨c, hcandidate _ c hc, htarget, rfl⟩
    · obtain ⟨c, hc, hreason, hid⟩ := denied_of_assemble hd
      exact ⟨c, hcandidate _ c hc, hreason, hid⟩
  · refine ⟨fun v hv => ?_, fun e he => ?_, fun d hd => ?_⟩
    · obtain ⟨node, hnode, n, rfl⟩ := node_of_context hv
      exact ⟨node, n, fetched_of_getMany List.mem_cons_self hnode, rfl⟩
    · obtain ⟨c, hc, _, hfrom, hto⟩ := Store.mem_citesChain_pairs.mp (edge_of_context he)
      exact ⟨c, hc, Prod.ext hfrom hto⟩
    · obtain ⟨node, hnode, hreason, hid⟩ := denied_of_context hd
      exact ⟨node, fetched_of_getMany List.mem_cons_self hnode, hreason, hid⟩
  · obtain ⟨node, hnode, hopen, n, rfl⟩ := node_of_neighbourhood hv
    dsimp only at hnode
    split at hnode
    · exact absurd hnode List.not_mem_nil
    · exact ⟨node, n, fetched_of_getMany List.mem_cons_self hnode, hopen, rfl⟩
  · exact ⟨edge_of_neighbourhood he _ List.mem_cons_self, edge_of_neighbourhood he _ (List.mem_cons_of_mem _ List.mem_cons_self)⟩

end Memorai.Query
