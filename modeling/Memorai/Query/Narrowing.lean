import Memorai.Context.Ball
import Memorai.History.Shape
import Memorai.Nearby.Shown
import Memorai.Query.Answers
import Memorai.Query.Redaction

/-! What a narrower grant shows of the graph: the same walk, with more of it withheld. -/
namespace Memorai.Query
open Schema Storage
open History (ShiftHistory ClaimView Step Reconciled Denial Verdicts)

/-- A view, or the same one withheld. -/
def ClaimWithin (less more : ClaimView) : Prop := less = more ∨ ∃ reason, less = .withheld more.id reason

def NodeWithin (less more : Context.NodeView) : Prop := less = more ∨ ∃ reason, less = .withheld more.id more.hops reason

inductive ReconciledWithin : Reconciled → Reconciled → Prop where
  | claim {less more : ClaimView} : ClaimWithin less more → ReconciledWithin (.claim less) (.claim more)
  | absent (id : String) : ReconciledWithin (.absent id) (.absent id)

/-- A step, or what is left of it with one of its claims withheld. -/
structure StepWithin (less more : Step) : Prop where
  superseding : ClaimWithin less.superseding more.superseding
  superseded : ClaimWithin less.superseded more.superseded
  details : less = more ∨ less.withheld ∧ less.elapsedMs = none ∧ less.newCitations = []

structure ShiftWithin (less more : ShiftHistory) : Prop where
  considered : less.considered = more.considered
  denied : (more.denied.map Denial.id).Sublist (less.denied.map Denial.id)
  answered : less.answered → more.answered
  chain : less.answered → List.Forall₂ ClaimWithin less.chain more.chain
  steps : less.answered → List.Forall₂ StepWithin less.steps more.steps
  conflicts : less.answered → List.Forall₂ (fun p q => ClaimWithin p.1 q.1 ∧ ClaimWithin p.2 q.2) less.conflicts more.conflicts
  reconciliations : less.answered →
    List.Forall₂ (fun p q => ClaimWithin p.1 q.1 ∧ ReconciledWithin p.2 q.2) less.reconciliations more.reconciliations

structure ContextWithin (less more : Context.ContextChain) : Prop where
  considered : less.considered = more.considered
  denied : (more.denied.map Denial.id).Sublist (less.denied.map Denial.id)
  answered : less.answered → more.answered
  nodes : less.answered → List.Forall₂ NodeWithin less.nodes more.nodes
  edges : less.answered → less.edges = more.edges
  sources : ∀ source ∈ less.sources, source ∈ more.sources

structure NeighbourhoodWithin (less more : Nearby.Neighbourhood) : Prop where
  considered : less.considered = more.considered
  answered : less.answered → more.answered
  nodes : less.nodes.Sublist more.nodes
  edges : less.edges.Sublist more.edges
  sources : ∀ source ∈ less.sources, source ∈ more.sources
  withheld : less.answered → more.withheld ≤ less.withheld
  withheldEdges : more.withheldEdges ≤ less.withheldEdges

/-- What the first verdicts leave open, the second ones do. -/
def Opens (less more : Verdicts) : Prop := ∀ id, less.reason id = none → more.reason id = none

section Verdicts
variable {narrow wide : Scope} {checked later : Int}

theorem opens_of_verdict {α : Type} {key : α → String} {less more : α → Option DenyReason} (h : ∀ a, less a = none → more a = none)
    (items : List α) : Opens (Dict.collect key less items) (Dict.collect key more items) := by
  intro x hx
  have hless : Dict.collect key less items = (Dict.collect key id items).map (Prod.map id less) := Dict.collect_map key id less items
  have hmore : Dict.collect key more items = (Dict.collect key id items).map (Prod.map id more) := Dict.collect_map key id more items
  have hreason : ∀ f : α → Option DenyReason, Verdicts.reason ((Dict.collect key id items).map (Prod.map id f)) x =
      (((Dict.collect key id items).lookup x).map f).join := by
    intro f
    exact congrArg Option.join (Dict.lookup_map_values (fun _ => f) _ x)
  rw [hless, hreason] at hx
  rw [hmore, hreason]
  cases hitem : (Dict.collect key id items).lookup x with
  | none => rfl
  | some a =>
    rw [hitem] at hx
    exact h a hx

theorem ids_denied {α : Type} (key : α → String) (verdict : α → Option DenyReason) (items : List α) :
    (items.filterMap (fun a => (verdict a).map (Denial.mk (key a)))).map Denial.id =
      (items.filter (fun a => (verdict a).isSome)).map key := by
  induction items with
  | nil => rfl
  | cons a items ih =>
    cases hverdict : verdict a with
    | none => rw [List.filterMap_cons_none (by rw [hverdict]; rfl), List.filter_cons_of_neg (by simp [hverdict]), ih]
    | some reason =>
      rw [List.filterMap_cons_some (by rw [hverdict]; rfl), List.filter_cons_of_pos (by simp [hverdict]), List.map_cons, List.map_cons, ih]

theorem denied_sublist {α : Type} {key : α → String} {less more : α → Option DenyReason} (h : ∀ a, less a = none → more a = none)
    (items : List α) : ((items.filterMap (fun a => (more a).map (Denial.mk (key a)))).map Denial.id).Sublist
      ((items.filterMap (fun a => (less a).map (Denial.mk (key a)))).map Denial.id) := by
  rw [ids_denied, ids_denied]
  refine (List.monotone_filter_right items (fun a hmore => ?_)).map key
  rw [Option.isSome_iff_ne_none] at hmore ⊢
  exact fun hless => hmore (h a hless)

theorem claim_opens (h : narrow.grant.Narrows wide.grant) (htime : checked ≤ later) (claim : Claim)
    (hnone : History.verdict narrow later claim = none) : History.verdict wide checked claim = none := by
  rw [History.verdict_eq_none_iff] at hnone ⊢
  exact allow_of_narrows h htime hnone

theorem node_opens (h : narrow.grant.Narrows wide.grant) (htime : checked ≤ later) (node : MemoryNode)
    (hnone : Nearby.verdict narrow later node = none) : Nearby.verdict wide checked node = none := by
  rw [Nearby.verdict_eq_none_iff] at hnone ⊢
  exact permits_iff.mpr (allow_of_narrows h htime (permits_iff.mp hnone))

end Verdicts

section Views
variable {less more : Verdicts}

theorem viewOf_within (h : Opens less more) (claim : Claim) : ClaimWithin (History.viewOf less claim) (History.viewOf more claim) := by
  unfold History.viewOf
  cases hless : less.reason claim.id with
  | none =>
    rw [h _ hless]
    exact Or.inl rfl
  | some reason => exact Or.inr ⟨reason, congrArg (ClaimView.withheld · reason) (History.id_claimView claim _).symm⟩

theorem step_within (h : Opens less more) (claim earlier : Claim) :
    StepWithin (History.step claim earlier less) (History.step claim earlier more) where
  superseding := viewOf_within h claim
  superseded := viewOf_within h earlier
  details := by
    by_cases hboth : less.reason claim.id = none ∧ less.reason earlier.id = none
    · have hmore : more.reason claim.id = none ∧ more.reason earlier.id = none := ⟨h _ hboth.1, h _ hboth.2⟩
      left
      simp only [History.step, hboth.1, hboth.2, hmore.1, hmore.2]
    · right
      simp [History.step, hboth]

theorem nodeView_within (h : Opens less more) (node : MemoryNode) (n : Nat) :
    NodeWithin (Context.nodeView node n (less.reason node.id)) (Context.nodeView node n (more.reason node.id)) := by
  cases hless : less.reason node.id with
  | none =>
    rw [h _ hless]
    exact Or.inl rfl
  | some reason =>
    refine Or.inr ⟨reason, ?_⟩
    cases more.reason node.id <;> rfl

theorem NodeWithin.sources {v w : Context.NodeView} (h : NodeWithin v w) : ∀ source ∈ v.sources, source ∈ w.sources := by
  obtain rfl | ⟨reason, rfl⟩ := h
  · exact fun _ hsource => hsource
  · exact fun _ hsource => absurd hsource List.not_mem_nil

/-- Where the second ones deny everything, the first ones do. -/
theorem Opens.all_denied {α : Type} {items : List (String × α)} (h : Opens less more)
    (hall : items.all (fun p => (more.reason p.1).isSome) = true) : items.all (fun p => (less.reason p.1).isSome) = true := by
  rw [List.all_eq_true] at hall ⊢
  intro p hp
  have hmore := hall p hp
  rw [Option.isSome_iff_ne_none] at hmore ⊢
  exact fun hless => hmore (h _ hless)

end Views

section Assemble
variable {less more : Verdicts} {lessDenied moreDenied : List Denial}

private theorem forall₂_map_same {α β : Type} {R : β → β → Prop} {f g : α → β} (l : List α) (h : ∀ a, R (f a) (g a)) :
    List.Forall₂ R (l.map f) (l.map g) := by
  rw [List.forall₂_map_left_iff, List.forall₂_map_right_iff]
  exact List.forall₂_same.mpr (fun a _ => h a)

private theorem forall₂_filterMap_same {α β : Type} {R : β → β → Prop} {f g : α → Option β} (l : List α)
    (h : ∀ a, Option.Rel R (f a) (g a)) : List.Forall₂ R (l.filterMap f) (l.filterMap g) := by
  induction l with
  | nil => exact .nil
  | cons a l ih =>
    have ha := h a
    generalize hf : f a = o, hg : g a = o' at ha
    cases ha with
    | none => rwa [List.filterMap_cons_none hf, List.filterMap_cons_none hg]
    | some hxy =>
      rw [List.filterMap_cons_some hf, List.filterMap_cons_some hg]
      exact .cons hxy ih

private theorem rel_map_same {α β : Type} {R : β → β → Prop} {f g : α → β} (o : Option α) (h : ∀ a, R (f a) (g a)) :
    Option.Rel R (o.map f) (o.map g) := by
  cases o with
  | none => exact .none
  | some a => exact .some (h a)

theorem steps_within (h : Opens less more) (claims : List (String × Claim)) :
    List.Forall₂ StepWithin (History.stepsOf claims less) (History.stepsOf claims more) := by
  unfold History.stepsOf
  induction (claims.map Prod.snd).insertionSort History.claimBefore with
  | nil => exact .nil
  | cons claim rest ih =>
    rw [List.flatMap_cons, List.flatMap_cons]
    refine List.rel_append (forall₂_filterMap_same claim.supersedes (fun k => ?_)) ih
    exact rel_map_same _ (fun earlier => step_within h claim earlier)

theorem conflicts_within (h : Opens less more) (claims : List (String × Claim)) (edges : List (String × String)) :
    List.Forall₂ (fun p q => ClaimWithin p.1 q.1 ∧ ClaimWithin p.2 q.2) (History.conflictsOf claims less edges)
      (History.conflictsOf claims more edges) := by
  refine forall₂_filterMap_same edges (fun e => ?_)
  dsimp only
  cases claims.lookup e.1 with
  | none => exact .none
  | some a => exact rel_map_same _ (fun b => ⟨viewOf_within h a, viewOf_within h b⟩)

theorem reconciliations_within (h : Opens less more) (claims : List (String × Claim)) (hopOf : List String) :
    List.Forall₂ (fun p q => ClaimWithin p.1 q.1 ∧ ReconciledWithin p.2 q.2) (History.reconciliationsOf claims less hopOf)
      (History.reconciliationsOf claims more hopOf) := by
  refine forall₂_filterMap_same _ (fun claim => rel_map_same _ (fun target => ⟨viewOf_within h claim, ?_⟩))
  cases claims.lookup target with
  | none => exact .absent target
  | some other => exact .claim (viewOf_within h other)

theorem shift_within (h : Opens less more) (hdenied : (moreDenied.map Denial.id).Sublist (lessDenied.map Denial.id))
    (fmt : History.Formatting) (claimId : String) (walked : History.Walk) :
    ShiftWithin (History.assemble fmt claimId walked less lessDenied) (History.assemble fmt claimId walked more moreDenied) := by
  rw [History.assemble_eq, History.assemble_eq]
  dsimp only
  by_cases hclaims : Dict.collect Claim.id id walked.candidates = []
  · rw [if_pos hclaims, if_pos hclaims]
    constructor <;> simp
  · rw [if_neg hclaims, if_neg hclaims]
    by_cases hless : (Dict.collect Claim.id id walked.candidates).all (fun p => (less.reason p.1).isSome) = true
    · rw [if_pos hless]
      split
      · exact ⟨rfl, hdenied, id, nofun, nofun, nofun, nofun⟩
      · exact ⟨rfl, hdenied, nofun, nofun, nofun, nofun, nofun⟩
    · rw [if_neg hless, if_neg (fun hmore => hless (h.all_denied hmore))]
      exact ⟨rfl, hdenied, id, fun _ => forall₂_map_same _ (viewOf_within h), fun _ => steps_within h _,
        fun _ => conflicts_within h _ _, fun _ => reconciliations_within h _ _⟩

theorem context_within (h : Opens less more) (hdenied : (moreDenied.map Denial.id).Sublist (lessDenied.map Denial.id))
    (repr : String → String) (objectId : String) (hops : Nat) (walked : Context.Walk) :
    ContextWithin (Context.assemble repr objectId hops walked less lessDenied)
      (Context.assemble repr objectId hops walked more moreDenied) := by
  unfold Context.assemble
  dsimp only
  by_cases hnodes : Dict.collect MemoryNode.id id walked.candidates = []
  · rw [if_pos hnodes, if_pos hnodes]
    constructor <;> simp
  · rw [if_neg hnodes, if_neg hnodes]
    by_cases hless : (Dict.collect MemoryNode.id id walked.candidates).all (fun p => (less.reason p.1).isSome) = true
    · rw [if_pos hless]
      split
      · exact ⟨rfl, hdenied, id, nofun, nofun, nofun⟩
      · exact ⟨rfl, hdenied, nofun, nofun, nofun, nofun⟩
    · rw [if_neg hless, if_neg (fun hmore => hless (h.all_denied hmore))]
      refine ⟨rfl, hdenied, id, fun _ => forall₂_map_same _ (fun node => nodeView_within h node _), fun _ => rfl, ?_⟩
      intro source hsource
      rw [Nearby.mem_sortedSet, List.mem_flatMap] at hsource ⊢
      obtain ⟨v, hv, hin⟩ := hsource
      obtain ⟨node, hnode, rfl⟩ := List.mem_map.mp hv
      obtain ⟨own, hown, rfl⟩ := List.mem_map.mp hin
      exact ⟨_, List.mem_map_of_mem hnode, List.mem_map_of_mem ((nodeView_within h node _).sources own hown)⟩

private def openOf (verdicts : Verdicts) (nodes : List MemoryNode) : List (String × MemoryNode) :=
  (Dict.collect MemoryNode.id id nodes).filter (fun p => verdicts.reason p.1 = none)

private theorem openOf_sublist (h : Opens less more) (nodes : List MemoryNode) : (openOf less nodes).Sublist (openOf more nodes) :=
  List.monotone_filter_right _ (fun p hp => decide_eq_true (h p.1 (of_decide_eq_true hp)))

/-- The nodes that are shown of more nodes keep their order. -/
private theorem sorted_sublist (h : Opens less more) (nodes : List MemoryNode) (hopOf : List (String × Nat)) :
    (((openOf less nodes).map Prod.snd).insertionSort (Nearby.nearer hopOf)).Sublist
      (((openOf more nodes).map Prod.snd).insertionSort (Nearby.nearer hopOf)) := by
  have hid : ∀ p ∈ openOf more nodes, p.1 = p.2.id := by
    intro p hp
    obtain ⟨own, _, rfl⟩ := Dict.mem_collect _ (List.mem_filter.mp hp).1
    rfl
  have hnodup : (((openOf more nodes).map Prod.snd).map MemoryNode.id).Nodup := by
    have hids : (openOf more nodes).map (MemoryNode.id ∘ Prod.snd) = (openOf more nodes).map Prod.fst :=
      List.map_congr_left (fun p hp => (hid p hp).symm)
    rw [List.map_map, hids]
    exact (Dict.nodup_keys_collect MemoryNode.id id nodes).sublist (List.filter_sublist.map _)
  have hkept : (openOf less nodes).map Prod.snd = ((openOf more nodes).map Prod.snd).filter (fun n => less.reason n.id = none) := by
    have hless : openOf less nodes = (openOf more nodes).filter (fun p => less.reason p.1 = none) := by
      rw [openOf, openOf, List.filter_filter]
      refine List.filter_congr (fun p _ => ?_)
      by_cases hp : less.reason p.1 = none
      · simp [hp, h p.1 hp]
      · simp [hp]
    rw [hless, List.filter_map]
    exact congrArg (List.map Prod.snd) (List.filter_congr (fun p hp => by rw [hid p hp, Function.comp_apply]))
  have hkey : ∀ a ∈ (openOf more nodes).map Prod.snd, ∀ b ∈ (openOf more nodes).map Prod.snd,
      Nearby.nearness hopOf a = Nearby.nearness hopOf b → a = b := by
    intro a ha b hb hab
    exact List.inj_on_of_nodup_map hnodup ha hb (Prod.mk.inj (toLex_inj.mp hab)).2
  rw [hkept, Order.sort_filter (Nearby.nearness hopOf) (Nearby.nearer_iff hopOf) _ hkey]
  exact List.filter_sublist

theorem neighbourhood_within (h : Opens less more) (hdenied : (moreDenied.map Denial.id).Sublist (lessDenied.map Denial.id))
    (repr : String → String) (seedIds : List String) (hops : Nat) (walked : Nearby.Walk) :
    NeighbourhoodWithin (Nearby.assemble repr seedIds hops walked less lessDenied)
      (Nearby.assemble repr seedIds hops walked more moreDenied) := by
  have hopen := openOf_sublist h walked.candidates
  have hedges : (walked.edges.filter (fun e => e.1 ∈ (openOf less walked.candidates).map Prod.fst ∧
      e.2.2 ∈ (openOf less walked.candidates).map Prod.fst)).Sublist (walked.edges.filter (fun e =>
        e.1 ∈ (openOf more walked.candidates).map Prod.fst ∧ e.2.2 ∈ (openOf more walked.candidates).map Prod.fst)) := by
    refine List.monotone_filter_right _ (fun e he => ?_)
    obtain ⟨hfrom, hto⟩ := of_decide_eq_true he
    exact decide_eq_true ⟨(hopen.map Prod.fst).subset hfrom, (hopen.map Prod.fst).subset hto⟩
  have hnodes := (sorted_sublist h walked.candidates walked.hopOf).map
    (fun n => Nearby.nodeView n ((walked.hopOf.lookup n.id).getD 0))
  have hwithheld := Nat.sub_le_sub_left (hedges.map (fun e => Nearby.EdgeView.mk e.1 e.2.1 e.2.2)).length_le walked.edges.length
  have hdenials : moreDenied.length ≤ lessDenied.length := by simpa using hdenied.length_le
  have hfold : ∀ verdicts : Verdicts, (Dict.collect MemoryNode.id id walked.candidates).filter
      (fun p => verdicts.reason p.1 = none) = openOf verdicts walked.candidates := fun _ => rfl
  unfold Nearby.assemble
  dsimp only
  rw [hfold, hfold]
  by_cases hwalked : Dict.collect MemoryNode.id id walked.candidates = []
  · rw [if_pos hwalked, if_pos hwalked]
    constructor <;> simp
  · rw [if_neg hwalked, if_neg hwalked]
    by_cases hless : openOf less walked.candidates = []
    · rw [if_pos hless]
      split
      · exact ⟨rfl, id, .slnil, .slnil, fun _ hx => hx, nofun, hwithheld⟩
      · exact ⟨rfl, nofun, List.nil_sublist _, List.nil_sublist _, fun _ hx => absurd hx List.not_mem_nil, nofun, hwithheld⟩
    · have hmore : openOf more walked.candidates ≠ [] := fun hnil => hless (List.sublist_nil.mp (hnil ▸ hopen))
      rw [if_neg hless, if_neg hmore]
      refine ⟨rfl, id, hnodes, hedges.map _, fun source hsource => ?_, fun _ => hdenials, hwithheld⟩
      rw [Nearby.mem_sortedSet, List.mem_flatMap] at hsource ⊢
      obtain ⟨v, hv, hin⟩ := hsource
      exact ⟨v, hnodes.subset hv, hin⟩

end Assemble

/-- Under a narrower grant, checked no earlier, a read walks the same objects and shows no more of them: what it shows is
what the wider grant shows, and everything else is withheld. -/
theorem narrower_reads (fmt : History.Formatting) (rows : RowOrder Row) (s : Store) (narrow wide : Scope)
    (hscope : narrow.grant.Narrows wide.grant) (checked later : Int) (htime : checked ≤ later) :
    (∀ claimId, ShiftWithin (History.whyDidThisShift fmt rows s narrow claimId later)
      (History.whyDidThisShift fmt rows s wide claimId checked)) ∧
    (∀ objectId hops, ContextWithin (Context.contextChain fmt.repr rows s narrow objectId hops later)
      (Context.contextChain fmt.repr rows s wide objectId hops checked)) ∧
    ∀ seedIds hops, NeighbourhoodWithin (Nearby.neighbourhood fmt.repr rows s narrow seedIds hops later)
      (Nearby.neighbourhood fmt.repr rows s wide seedIds hops checked) := by
  have howner : narrow.ownerId = wide.ownerId := hscope.owner
  refine ⟨fun claimId => ?_, fun objectId hops => ?_, fun seedIds hops => ?_⟩
  · have hwalk : History.walk rows s narrow claimId = History.walk rows s wide claimId := by
      rw [History.walk, howner, History.walk]
    rw [History.whyDidThisShift, hwalk, History.whyDidThisShift]
    exact shift_within (opens_of_verdict (claim_opens hscope htime) _) (denied_sublist (claim_opens hscope htime) _) fmt claimId _
  · have hwalk : Context.walk rows s narrow objectId hops = Context.walk rows s wide objectId hops := by
      rw [Context.walk, howner, Context.walk]
    rw [Context.contextChain, hwalk, Context.contextChain]
    exact context_within (opens_of_verdict (node_opens hscope htime) _) (denied_sublist (node_opens hscope htime) _) fmt.repr objectId hops _
  · have hwalk : Nearby.walk rows s narrow seedIds hops = Nearby.walk rows s wide seedIds hops := by
      rw [Nearby.walk, howner, Nearby.walk]
    rw [Nearby.neighbourhood, hwalk, Nearby.neighbourhood]
    exact neighbourhood_within (opens_of_verdict (node_opens hscope htime) _) (denied_sublist (node_opens hscope htime) _) fmt.repr seedIds hops _

/-- Once the shorter grant has ended, nothing is left of what the longer one showed. -/
theorem narrower_reads_ended :
    (Nearby.neighbourhood id .asStored closedCitation endingSoon ["evt_a"] 3 6).nodes = [] ∧
      (Nearby.neighbourhood id .asStored closedCitation Nearby.personalOnly ["evt_a"] 3 4).nodes ≠ [] ∧
      NeighbourhoodWithin (Nearby.neighbourhood id .asStored closedCitation endingSoon ["evt_a"] 3 6)
        (Nearby.neighbourhood id .asStored closedCitation Nearby.personalOnly ["evt_a"] 3 4) :=
  ⟨by decide +kernel, by decide +kernel, (narrower_reads ⟨id, fun _ => ""⟩ .asStored closedCitation endingSoon Nearby.personalOnly
    ⟨rfl, rfl, subset_rfl, subset_rfl, le_rfl, le_rfl, le_rfl, le_top⟩ 4 6 (by decide)).2.2 ["evt_a"] 3⟩

end Memorai.Query
