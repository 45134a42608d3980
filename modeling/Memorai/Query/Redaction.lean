import Memorai.Collections.Lists
import Memorai.Context.Chain
import Memorai.Order.KeySort
import Memorai.Query.Answers
import Memorai.Storage.Redaction

/-! What reads keep to themselves: whatever the objects say that a grant does not open, the answers are the same. -/
namespace Memorai.Query
open Schema Memorai.Graph Storage Wire Retrieval Memorai.Lists Memorai.Order
open History (Verdicts Denial)

section Veil
variable (scope : Scope) (nowMs : Int)

/-- One object, with two contents unless the scope opens it. -/
structure Veiled (node node' : MemoryNode) : Prop where
  id : node'.id = node.id
  acl : node'.acl = node.acl
  opened : evaluate scope node.acl nowMs = .allow → node' = node

/-- A redaction that leaves each object its guard, its time and its embedding, and the opened ones everything. -/
structure Veils (f : Redaction) : Prop where
  occurredAtMs : ∀ r, (f.hide r).occurredAtMs = r.occurredAtMs
  embedding : ∀ r, (f.hide r).embedding = r.embedding
  acl : ∀ r, (f.hide r).payload.acl = r.payload.acl
  opened : ∀ r, evaluate scope r.payload.acl nowMs = .allow → (f.hide r).payload = r.payload

end Veil

section Veiled
variable {scope : Scope} {nowMs : Int} {f : Redaction} {node node' : MemoryNode} {nodes nodes' : List MemoryNode}

theorem Veils.veiled (h : Veils scope nowMs f) (r : Row) : Veiled scope nowMs r.payload (f.hide r).payload :=
  ⟨congrArg NodeKey.id (f.key r), h.acl r, h.opened r⟩

theorem Veils.veiled_map (h : Veils scope nowMs f) (l : List Row) :
    List.Forall₂ (Veiled scope nowMs) (l.map Row.payload) ((l.map f.hide).map Row.payload) := by
  rw [List.map_map, List.forall₂_map_left_iff, List.forall₂_map_right_iff]
  exact List.forall₂_same.mpr (fun r _ => h.veiled r)

theorem Veiled.verdict (h : Veiled scope nowMs node node') : Nearby.verdict scope nowMs node' = Nearby.verdict scope nowMs node := by
  rw [Nearby.verdict, h.acl, Nearby.verdict]

theorem Veiled.denial (h : Veiled scope nowMs node node') : (Nearby.verdict scope nowMs node).map (Denial.mk node.id) =
    (Nearby.verdict scope nowMs node').map (Denial.mk node'.id) := by rw [h.verdict, h.id]

theorem Veiled.eq_of_verdict (h : Veiled scope nowMs node node') (hnone : Nearby.verdict scope nowMs node = none) : node' = node := by
  refine h.opened ?_
  unfold Nearby.verdict at hnone
  split at hnone
  · assumption
  · exact absurd hnone (by simp)

theorem checkPermissions_veiled (h : List.Forall₂ (Veiled scope nowMs) nodes nodes') :
    Nearby.checkPermissions scope nowMs nodes' = Nearby.checkPermissions scope nowMs nodes := by
  have hverdicts : List.Forall₂ (fun p q => p.1 = q.1 ∧ p.2 = q.2) (Dict.collect MemoryNode.id (Nearby.verdict scope nowMs) nodes)
      (Dict.collect MemoryNode.id (Nearby.verdict scope nowMs) nodes') :=
    Dict.forall₂_collect (h.imp (fun _ _ hv => ⟨hv.id.symm, hv.verdict.symm⟩))
  refine Prod.ext ?_ (filterMap_eq_of_forall₂ h (fun _ _ hv => hv.denial)).symm
  exact (List.forall₂_eq_eq_eq ▸ hverdicts.imp (fun p q hpq => Prod.ext hpq.1 hpq.2) :
    Dict.collect MemoryNode.id (Nearby.verdict scope nowMs) nodes = _).symm

/-- An entry of the walked objects, with the verdict that is looked up for it. -/
structure Weighed (scope : Scope) (nowMs : Int) (verdicts : Verdicts) (entry entry' : String × MemoryNode) : Prop where
  key : entry.1 = entry'.1
  veiled : Veiled scope nowMs entry.2 entry'.2
  checked : verdicts.reason entry.1 = Nearby.verdict scope nowMs entry.2

theorem reason_of_collect {k : String} (h : (k, node) ∈ Dict.collect MemoryNode.id id nodes) :
    (Nearby.checkPermissions scope nowMs nodes).1.reason k = Nearby.verdict scope nowMs node := by
  have hmap : Dict.collect MemoryNode.id (Nearby.verdict scope nowMs) nodes = _ :=
    Dict.collect_map MemoryNode.id id (Nearby.verdict scope nowMs) nodes
  have hin : (k, Nearby.verdict scope nowMs node) ∈ Dict.collect MemoryNode.id (Nearby.verdict scope nowMs) nodes := by
    rw [hmap]
    exact List.mem_map.mpr ⟨(k, node), h, rfl⟩
  rw [Nearby.checkPermissions, Verdicts.reason, Dict.lookup_collect hin]
  rfl

/-- Both dictionaries hold for each id the object that came last, with the verdict on that one. -/
theorem weighed_collect (h : List.Forall₂ (Veiled scope nowMs) nodes nodes') :
    List.Forall₂ (Weighed scope nowMs (Nearby.checkPermissions scope nowMs nodes).1)
      (Dict.collect MemoryNode.id id nodes) (Dict.collect MemoryNode.id id nodes') := by
  have hdicts : List.Forall₂ (fun p q => p.1 = q.1 ∧ Veiled scope nowMs p.2 q.2) (Dict.collect MemoryNode.id id nodes)
      (Dict.collect MemoryNode.id id nodes') := Dict.forall₂_collect (h.imp (fun _ _ hv => ⟨hv.id.symm, hv⟩))
  exact forall₂_of_mem hdicts (fun p hp q hpq => ⟨hpq.1, hpq.2, reason_of_collect hp⟩)

theorem Weighed.eq_of_reason {verdicts : Verdicts} {entry entry' : String × MemoryNode} (h : Weighed scope nowMs verdicts entry entry')
    (hnone : verdicts.reason entry.1 = none) : entry' = entry :=
  Prod.ext h.key.symm (h.veiled.eq_of_verdict (h.checked ▸ hnone))

end Veiled

section Assemble
variable {scope : Scope} {nowMs : Int} {nodes nodes' : List MemoryNode} (repr : String → String)

theorem neighbourhood_veiled (seedIds : List String) (hops : Nat) (edges : List (String × String × String))
    (hopOf : List (String × Nat)) (h : List.Forall₂ (Veiled scope nowMs) nodes nodes') :
    Nearby.assemble repr seedIds hops ⟨nodes', edges, hopOf⟩ (Nearby.checkPermissions scope nowMs nodes').1
        (Nearby.checkPermissions scope nowMs nodes').2 =
      Nearby.assemble repr seedIds hops ⟨nodes, edges, hopOf⟩ (Nearby.checkPermissions scope nowMs nodes).1
        (Nearby.checkPermissions scope nowMs nodes).2 := by
  rw [checkPermissions_veiled h]
  have hweighed := weighed_collect h
  have hempty : Dict.collect MemoryNode.id id nodes' = [] ↔ Dict.collect MemoryNode.id id nodes = [] := by
    rw [← List.length_eq_zero_iff, ← hweighed.length_eq, List.length_eq_zero_iff]
  have hvisible : (Dict.collect MemoryNode.id id nodes').filter
        (fun p => (Nearby.checkPermissions scope nowMs nodes).1.reason p.1 = none) =
      (Dict.collect MemoryNode.id id nodes).filter
        (fun p => (Nearby.checkPermissions scope nowMs nodes).1.reason p.1 = none) :=
    filter_eq_of_forall₂ hweighed (fun p q hpq => by rw [hpq.key]) (fun p q hpq hp => hpq.eq_of_reason (of_decide_eq_true hp))
  unfold Nearby.assemble
  dsimp only
  rw [hvisible, hweighed.length_eq]
  simp only [hempty]

theorem contextChain_veiled (objectId : String) (hops : Nat) (edges : List (String × String)) (hopOf : List (String × Nat))
    (h : List.Forall₂ (Veiled scope nowMs) nodes nodes') :
    Context.assemble repr objectId hops ⟨nodes', edges, hopOf⟩ (Nearby.checkPermissions scope nowMs nodes').1
        (Nearby.checkPermissions scope nowMs nodes').2 =
      Context.assemble repr objectId hops ⟨nodes, edges, hopOf⟩ (Nearby.checkPermissions scope nowMs nodes).1
        (Nearby.checkPermissions scope nowMs nodes).2 := by
  rw [checkPermissions_veiled h]
  have hweighed := weighed_collect h
  have hempty : Dict.collect MemoryNode.id id nodes' = [] ↔ Dict.collect MemoryNode.id id nodes = [] := by
    rw [← List.length_eq_zero_iff, ← hweighed.length_eq, List.length_eq_zero_iff]
  have hkeys : (Dict.collect MemoryNode.id id nodes').map Prod.fst = (Dict.collect MemoryNode.id id nodes).map Prod.fst :=
    (map_eq_of_forall₂ hweighed (fun _ _ hpq => hpq.key)).symm
  have hall : (Dict.collect MemoryNode.id id nodes').all
        (fun p => ((Nearby.checkPermissions scope nowMs nodes).1.reason p.1).isSome) =
      (Dict.collect MemoryNode.id id nodes).all
        (fun p => ((Nearby.checkPermissions scope nowMs nodes).1.reason p.1).isSome) := by
    have hmap := congrArg (fun ks => ks.all (fun k => ((Nearby.checkPermissions scope nowMs nodes).1.reason k).isSome)) hkeys
    rwa [List.all_map, List.all_map] at hmap
  have hordered : List.Forall₂ (fun n n' => Veiled scope nowMs n n' ∧
        (Nearby.checkPermissions scope nowMs nodes).1.reason n.id = Nearby.verdict scope nowMs n)
      (((Dict.collect MemoryNode.id id nodes).map Prod.snd).insertionSort (Nearby.nearer hopOf))
      (((Dict.collect MemoryNode.id id nodes').map Prod.snd).insertionSort (Nearby.nearer hopOf)) := by
    refine Order.forall₂_sort ?_ (fun a b c d hab hcd => ?_)
    · rw [List.forall₂_map_left_iff, List.forall₂_map_right_iff]
      refine forall₂_of_mem hweighed (fun p hp q hpq => ⟨hpq.veiled, ?_⟩)
      obtain ⟨node, _, rfl⟩ := Dict.mem_collect _ hp
      exact hpq.checked
    · unfold Nearby.nearer
      dsimp only
      rw [hab.1.id, hcd.1.id]
  have hviews := map_eq_of_forall₂ hordered
    (f := fun n => Context.nodeView n ((hopOf.lookup n.id).getD 0) ((Nearby.checkPermissions scope nowMs nodes).1.reason n.id))
    (g := fun n => Context.nodeView n ((hopOf.lookup n.id).getD 0) ((Nearby.checkPermissions scope nowMs nodes).1.reason n.id))
    (fun n n' hn => by
      rw [hn.1.id, hn.2]
      cases hv : Nearby.verdict scope nowMs n with
      | none => rw [hn.1.eq_of_verdict hv]
      | some reason => rw [Context.nodeView, Context.nodeView, hn.1.id])
  unfold Context.assemble
  dsimp only
  rw [hall, hviews, hweighed.length_eq]
  simp only [hempty]

end Assemble

section Reads
variable {f : Redaction} {scope : Scope} {nowMs : Int} {s : Store} {rows : RowOrder Row} {repr : String → String}

/-- The walk sees no contents. -/
theorem neighbourhood_store (h : Veils scope nowMs f) (seedIds : List String) (hops : Nat) :
    Nearby.neighbourhood repr (f.rows s rows) (f.store s) scope seedIds hops nowMs =
      Nearby.neighbourhood repr rows s scope seedIds hops nowMs := by
  have hpresent : ∀ ids, ((f.store s).getMany (f.rows s rows) scope.ownerId ids).map (fun r => r.key.id) =
      (s.getMany rows scope.ownerId ids).map (fun r => r.key.id) := by
    intro ids
    rw [Redaction.getMany_store, List.map_map]
    exact List.map_congr_left (fun r _ => congrArg NodeKey.id (f.key r))
  have hwalk : ∃ nodes', List.Forall₂ (Veiled scope nowMs) (Nearby.walk rows s scope seedIds hops).candidates nodes' ∧
      Nearby.walk (f.rows s rows) (f.store s) scope seedIds hops =
        { Nearby.walk rows s scope seedIds hops with candidates := nodes' } := by
    unfold Nearby.walk
    dsimp only
    rw [hpresent]
    split
    · exact ⟨[], .nil, rfl⟩
    · refine ⟨_, h.veiled_map _, ?_⟩
      simp only [Redaction.neighbourIds_store, Redaction.edgesAmong_store, Redaction.getMany_store]
  obtain ⟨nodes', hnodes, hwalk⟩ := hwalk
  rw [Nearby.neighbourhood, Nearby.neighbourhood, hwalk]
  exact neighbourhood_veiled repr seedIds hops _ _ hnodes

theorem contextChain_store (h : Veils scope nowMs f) (objectId : String) (hops : Nat) :
    Context.contextChain repr (f.rows s rows) (f.store s) scope objectId hops nowMs =
      Context.contextChain repr rows s scope objectId hops nowMs := by
  rw [Context.contextChain, Context.contextChain, Context.walk, Context.walk]
  simp only [Redaction.citesChain_store, Redaction.getMany_store]
  exact contextChain_veiled repr objectId hops _ _ (h.veiled_map _)

end Reads

section Retrieve
variable {Vector : Type} {similarity : Vector → String → ℚ} {v : Vector} {exp : ℚ → ℚ} {found linked : Store}
  {index : VectorIndex similarity v found.nodes} {f : Redaction} {scope : Scope}

private def hideRanked (f : Redaction) (r : RankedNode) : RankedNode := { r with node := f.hide r.node }

private theorem scored_hide {hops : List (String × Nat)} {nowMs : Int} (htime : ∀ r, (f.hide r).occurredAtMs = r.occurredAtMs)
    (candidate : Row × ℚ) : scored exp hops nowMs (f.hide candidate.1, candidate.2) =
      (scored exp hops nowMs candidate).map (hideRanked f) := by
  unfold scored
  dsimp only
  rw [htime, f.key]
  cases proximityScore (hops.lookup candidate.1.key.id) with
  | error e => rfl
  | ok p => rfl

private theorem rank_hide {hops : List (String × Nat)} {nowMs : Int} (htime : ∀ r, (f.hide r).occurredAtMs = r.occurredAtMs)
    (candidates : List (Row × ℚ)) : rank exp (candidates.map (fun c => (f.hide c.1, c.2))) hops nowMs =
      (rank exp candidates hops nowMs).map (List.map (hideRanked f)) := by
  have hscored : (candidates.map (fun c => (f.hide c.1, c.2))).mapM (scored exp hops nowMs) =
      (candidates.mapM (scored exp hops nowMs)).map (List.map (hideRanked f)) := by
    induction candidates with
    | nil => rfl
    | cons c cs ih =>
      rw [List.map_cons, List.mapM_cons, List.mapM_cons, ih, scored_hide htime]
      cases scored exp hops nowMs c with
      | error e => rfl
      | ok r =>
        cases cs.mapM (scored exp hops nowMs) with
        | error e => rfl
        | ok rs => rfl
  rw [rank, hscored, rank]
  cases candidates.mapM (scored exp hops nowMs) with
  | error e => rfl
  | ok ranked =>
    refine congrArg Except.ok (List.map_insertionSort (fun a b => b.score ≤ a.score) _ (hideRanked f) ranked ?_).symm
    exact fun a _ b _ => Iff.rfl

private theorem retrieve_store (h : Veils scope nowMs f) {ownerId : String} {topK : Nat} {retrieved : Int} :
    retrieve exp (f.store found) (f.store linked) (f.index h.embedding index) ownerId topK retrieved =
      (retrieve exp found linked index ownerId topK retrieved).map (List.map (hideRanked f)) := by
  have hseeds : ∀ candidates : List (Row × ℚ), seedIds (candidates.map (fun c => (f.hide c.1, c.2))) = seedIds candidates := by
    intro candidates
    rw [seedIds, List.length_map, ← List.map_take, List.map_map, seedIds]
    exact List.map_congr_left (fun c _ => congrArg NodeKey.id (f.key c.1))
  rw [retrieve, Redaction.vectorSearch_index, hseeds, rank_hide h.occurredAtMs, Redaction.neighbourIds_store, retrieve]
  simp only [List.map_eq_nil_iff]
  split
  · rfl
  · cases rank exp (vectorSearch index ownerId (topK * 2))
        (linked.neighbourIds ownerId (seedIds (vectorSearch index ownerId (topK * 2))) 2) retrieved with
    | error e => rfl
    | ok ranked => exact congrArg Except.ok List.map_take.symm

theorem answerFrom_veiled {nodes nodes' : List MemoryNode} (h : List.Forall₂ (Veiled scope nowMs) nodes nodes') (question : String) :
    answerFrom scope question nowMs nodes' = answerFrom scope question nowMs nodes := by
  have hpermitted : nodes'.filter (fun node => permits scope node.acl nowMs) = nodes.filter (fun node => permits scope node.acl nowMs) :=
    filter_eq_of_forall₂ h (fun _ _ hv => by rw [hv.acl]) (fun _ _ hv hp => hv.opened (permits_iff.mp hp))
  rw [answerFrom, answerFrom, checkPermissions_eq, checkPermissions_eq, hpermitted, h.length_eq,
    filterMap_eq_of_forall₂ h (fun _ _ hv => hv.denial)]

theorem answerUnder_store {checked : Nat} (h : Veils scope checked f) (question : String) (topK retrieved : Nat) :
    answerUnder exp (f.store found) (f.store linked) (f.index h.embedding index) scope question topK retrieved checked =
      answerUnder exp found linked index scope question topK retrieved checked := by
  rw [answerUnder, retrieve_store h, answerUnder]
  cases retrieve exp found linked index scope.ownerId topK retrieved with
  | error e => rfl
  | ok ranked =>
    refine congrArg Except.ok (answerFrom_veiled ?_ question)
    rw [List.map_map, List.forall₂_map_left_iff, List.forall₂_map_right_iff]
    exact List.forall₂_same.mpr (fun r _ => h.veiled r.node)

end Retrieve

/-- Whatever the objects say that a grant does not open, the answers are the same: a query's, a context chain and a
neighbourhood, in every field. -/
theorem closed_contents_unseen {Vector : Type} (similarity : Vector → String → ℚ) (v : Vector) (exp : ℚ → ℚ)
    (repr : String → String) (f : Redaction) (scope : Scope) (checked : Nat) (h : Veils scope checked f) :
    (∀ (found linked : Store) (index : VectorIndex similarity v found.nodes) (question : String) (topK retrieved : Nat),
        answerUnder exp (f.store found) (f.store linked) (f.index h.embedding index) scope question topK retrieved checked =
          answerUnder exp found linked index scope question topK retrieved checked) ∧
      (∀ (s : Store) (rows : RowOrder Row) (objectId : String) (hops : Nat),
        Context.contextChain repr (f.rows s rows) (f.store s) scope objectId hops checked =
          Context.contextChain repr rows s scope objectId hops checked) ∧
      ∀ (s : Store) (rows : RowOrder Row) (seedIds : List String) (hops : Nat),
        Nearby.neighbourhood repr (f.rows s rows) (f.store s) scope seedIds hops checked =
          Nearby.neighbourhood repr rows s scope seedIds hops checked :=
  ⟨fun _ _ _ question topK retrieved => answerUnder_store h question topK retrieved,
    fun _ _ objectId hops => contextChain_store h objectId hops,
    fun _ _ seedIds hops => neighbourhood_store h seedIds hops⟩

def blank : MemoryNode → MemoryNode
  | .event e => .event { e with summary := "" }
  | .claim c => .claim { c with statement := "" }
  | .entity e => .entity { e with name := "" }

/-- Everything blanked that a grant does not open. -/
def blackout (scope : Scope) (nowMs : Int) : Redaction where
  hide r := if evaluate scope r.payload.acl nowMs = .allow then r else { r with payload := blank r.payload, text := "" }
  key r := by
    split
    · rfl
    · unfold Row.key
      cases r.payload <;> rfl
  ownerId r := by split <;> rfl

theorem veils_blackout (scope : Scope) (nowMs : Int) : Veils scope nowMs (blackout scope nowMs) where
  occurredAtMs r := by
    dsimp only [blackout]
    split <;> rfl
  embedding r := by
    dsimp only [blackout]
    split <;> rfl
  acl r := by
    dsimp only [blackout]
    split
    · rfl
    · cases r.payload <;> rfl
  opened r h := by
    dsimp only [blackout]
    rw [if_pos h]

/-- A document cited by a confidential one. -/
def closedCitation : Store := Nearby.library [Nearby.document "evt_a" false, Nearby.document "evt_b" true] [("evt_b", "evt_a")]

theorem closed_contents_unseen_citation : (blackout Nearby.personalOnly 10).store closedCitation ≠ closedCitation ∧
    Nearby.neighbourhood id ((blackout Nearby.personalOnly 10).rows closedCitation .asStored)
        ((blackout Nearby.personalOnly 10).store closedCitation) Nearby.personalOnly ["evt_a"] 3 10 =
      Nearby.neighbourhood id .asStored closedCitation Nearby.personalOnly ["evt_a"] 3 10 := by
  refine ⟨?_, (closed_contents_unseen sameWords "evt_a" (fun _ => 1) id _ _ 10
    (veils_blackout Nearby.personalOnly 10)).2.2 closedCitation .asStored ["evt_a"] 3⟩
  intro h
  exact absurd (congrArg PropertyGraph.nodes h) (by decide +kernel)

end Memorai.Query
