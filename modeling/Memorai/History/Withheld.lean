import Memorai.Collections.Lists
import Memorai.History.Parts
import Memorai.History.ShiftGuards
import Memorai.Order.KeySort

/-! What a shift history keeps to itself: of a claim the grant denies it says that it is there, how it hangs
together with others, and why it is withheld. -/
namespace Memorai.History
open Schema Storage Memorai.Lists Ingestion

section Hidden
variable (scope : Scope) (nowMs : Int)

/-- Two contents of one claim, denied for the same reason, that hang together with other claims alike. -/
structure Hidden (c c' : Claim) : Prop where
  id : c.id = c'.id
  supersedes : c.supersedes = c'.supersedes
  contradicts : c.contradicts = c'.contradicts
  reconciledInto : c.reconciledInto = c'.reconciledInto
  denied : ∃ reason, verdict scope nowMs c = some reason ∧ verdict scope nowMs c' = some reason

/-- Two walks that differ at most in the content of denied claims, with the claims in the same order of time. -/
structure SameButHidden (w w' : Walk) : Prop where
  claims : List.Forall₂ (fun c c' => c = c' ∨ Hidden scope nowMs c c') w.candidates w'.candidates
  order : ∀ p ∈ w.candidates.zip w'.candidates, ∀ q ∈ w.candidates.zip w'.candidates,
    (claimBefore p.1 q.1 ↔ claimBefore p.2 q.2)
  edges : w.edges = w'.edges
  hopOf : w.hopOf = w'.hopOf

end Hidden

section Matched
variable {scope : Scope} {nowMs : Int} {w w' : Walk} {c c' : Claim}

theorem verdict_of_hidden (h : c = c' ∨ Hidden scope nowMs c c') : verdict scope nowMs c = verdict scope nowMs c' := by
  rcases h with rfl | h
  · rfl
  · obtain ⟨reason, hc, hc'⟩ := h.denied
    rw [hc, hc']

theorem id_of_hidden (h : c = c' ∨ Hidden scope nowMs c c') : c.id = c'.id := by
  rcases h with rfl | h
  · rfl
  · exact h.id

/-- Both walks get the same verdicts. -/
theorem checkPermissions_eq (h : SameButHidden scope nowMs w w') :
    checkPermissions scope nowMs w.candidates = checkPermissions scope nowMs w'.candidates := by
  have hverdicts : List.Forall₂ (fun p q => p.1 = q.1 ∧ p.2 = q.2)
      (Dict.collect Claim.id (verdict scope nowMs) w.candidates) (Dict.collect Claim.id (verdict scope nowMs) w'.candidates) :=
    Dict.forall₂_collect (h.claims.imp (fun _ _ hc => ⟨id_of_hidden hc, verdict_of_hidden hc⟩))
  have hdenials : ∀ {cs cs' : List Claim}, List.Forall₂ (fun c c' => c = c' ∨ Hidden scope nowMs c c') cs cs' →
      (checkPermissions scope nowMs cs).2 = (checkPermissions scope nowMs cs').2 := by
    intro cs cs' hcs
    induction hcs with
    | nil => rfl
    | @cons c c' cs cs' hc _ ih =>
      dsimp only [checkPermissions] at ih ⊢
      rw [List.filterMap_cons, List.filterMap_cons, ih, verdict_of_hidden hc, id_of_hidden hc]
  refine Prod.ext ?_ (hdenials h.claims)
  exact List.forall₂_eq_eq_eq ▸ hverdicts.imp (fun p q hpq => Prod.ext hpq.1 hpq.2)

/-- The two contents of a walked claim, with the verdict on it. -/
structure Matched (w w' : Walk) (verdicts : Verdicts) (scope : Scope) (nowMs : Int) (c c' : Claim) : Prop where
  walked : (c, c') ∈ w.candidates.zip w'.candidates
  hidden : c = c' ∨ Hidden scope nowMs c c'
  checked : verdicts.reason c.id = verdict scope nowMs c

private theorem matched_claims (h : SameButHidden scope nowMs w w') : List.Forall₂
    (fun p q => p.1 = q.1 ∧ Matched w w' (checkPermissions scope nowMs w.candidates).1 scope nowMs p.2 q.2)
    (Dict.collect Claim.id id w.candidates) (Dict.collect Claim.id id w'.candidates) := by
  have hzip : List.Forall₂ (fun c c' => c.id = c'.id ∧ (c, c') ∈ w.candidates.zip w'.candidates ∧
      (c = c' ∨ Hidden scope nowMs c c')) w.candidates w'.candidates := by
    rw [List.forall₂_iff_zip]
    refine ⟨h.claims.length_eq, fun {c c'} hcc => ?_⟩
    have hhidden := (List.forall₂_iff_zip.mp h.claims).2 hcc
    exact ⟨id_of_hidden hhidden, hcc, hhidden⟩
  have hdicts : List.Forall₂ (fun p q => p.1 = q.1 ∧ (p.2, q.2) ∈ w.candidates.zip w'.candidates ∧
      (p.2 = q.2 ∨ Hidden scope nowMs p.2 q.2)) (Dict.collect Claim.id id w.candidates) (Dict.collect Claim.id id w'.candidates) :=
    Dict.forall₂_collect (S := fun c c' => (c, c') ∈ w.candidates.zip w'.candidates ∧ (c = c' ∨ Hidden scope nowMs c c')) hzip
  refine forall₂_of_mem hdicts (fun p hp q hpq => ⟨hpq.1, hpq.2.1, hpq.2.2, ?_⟩)
  obtain ⟨c, _, rfl⟩ := Dict.mem_collect _ hp
  exact reason_of_mem hp

section Views
variable {verdicts : Verdicts} {e e' : Claim}

private theorem Matched.view (h : Matched w w' verdicts scope nowMs c c') :
    viewOf verdicts c = viewOf verdicts c' := by
  rcases h.hidden with rfl | hh
  · rfl
  · obtain ⟨reason, hc, _⟩ := hh.denied
    rw [viewOf, viewOf, ← hh.id, h.checked, hc]
    exact congrArg (fun id => ClaimView.withheld id reason) hh.id

/-- A step shows the interval and the citations of visible claims only, and these are the same. -/
private theorem Matched.step (h : Matched w w' verdicts scope nowMs c c') (he : Matched w w' verdicts scope nowMs e e') :
    step c e verdicts = step c' e' verdicts := by
  have hvisible : ∀ {a a' : Claim}, Matched w w' verdicts scope nowMs a a' → verdicts.reason a.id = none → a = a' := by
    intro a a' ha hnone
    rcases ha.hidden with rfl | hh
    · rfl
    · obtain ⟨reason, hreason, _⟩ := hh.denied
      rw [ha.checked, hreason] at hnone
      exact absurd hnone (by simp)
  by_cases hboth : verdicts.reason c.id = none ∧ verdicts.reason e.id = none
  · obtain rfl := hvisible h hboth.1
    obtain rfl := hvisible he hboth.2
    rfl
  · have hboth' : ¬ (verdicts.reason c'.id = none ∧ verdicts.reason e'.id = none) := by
      rw [← id_of_hidden h.hidden, ← id_of_hidden he.hidden]
      exact hboth
    have hc := h.view
    have hd := he.view
    unfold viewOf at hc hd
    unfold History.step
    simp only [hboth, hboth', hc, hd, if_false]

variable {claims claims' : List (String × Claim)}

private theorem Matched.supersedes (h : Matched w w' verdicts scope nowMs c c') : c.supersedes = c'.supersedes := by
  rcases h.hidden with rfl | hh
  · rfl
  · exact hh.supersedes

private theorem Matched.reconciled (h : Matched w w' verdicts scope nowMs c c') : reconciledInto c = reconciledInto c' := by
  rcases h.hidden with rfl | hh
  · rfl
  · rw [reconciledInto, reconciledInto, hh.reconciledInto]

private theorem forall₂_sort (h : SameButHidden scope nowMs w w') {cs cs' : List Claim}
    (hcs : List.Forall₂ (Matched w w' verdicts scope nowMs) cs cs') :
    List.Forall₂ (Matched w w' verdicts scope nowMs) (cs.insertionSort claimBefore) (cs'.insertionSort claimBefore) :=
  Order.forall₂_sort hcs (fun _ _ _ _ hab hcd => h.order _ hab.walked _ hcd.walked)

private theorem forall₂_ordered (h : SameButHidden scope nowMs w w') (hclaims : List.Forall₂
    (fun p q => p.1 = q.1 ∧ Matched w w' verdicts scope nowMs p.2 q.2) claims claims') (hopOf : List String) :
    List.Forall₂ (Matched w w' verdicts scope nowMs) (orderedOf claims hopOf) (orderedOf claims' hopOf) := by
  refine forall₂_sort h ?_
  rw [List.forall₂_map_left_iff, List.forall₂_map_right_iff]
  exact (forall₂_filter hclaims (fun p q hpq => by rw [hpq.1])).imp (fun _ _ hpq => hpq.2)

private theorem lookup_view (hclaims : List.Forall₂
    (fun p q => p.1 = q.1 ∧ Matched w w' verdicts scope nowMs p.2 q.2) claims claims') (k : String) :
    (claims.lookup k).map (viewOf verdicts) = (claims'.lookup k).map (viewOf verdicts) :=
  map_eq_of_rel (Dict.rel_lookup hclaims k) (fun _ _ hcc => hcc.view)

private theorem stepsOf_eq (h : SameButHidden scope nowMs w w') (hclaims : List.Forall₂
    (fun p q => p.1 = q.1 ∧ Matched w w' verdicts scope nowMs p.2 q.2) claims claims') :
    stepsOf claims verdicts = stepsOf claims' verdicts := by
  have hvalues : List.Forall₂ (Matched w w' verdicts scope nowMs) (claims.map Prod.snd) (claims'.map Prod.snd) := by
    rw [List.forall₂_map_left_iff, List.forall₂_map_right_iff]
    exact hclaims.imp (fun _ _ hpq => hpq.2)
  refine flatMap_eq_of_forall₂ (forall₂_sort h hvalues) (fun c c' hc => ?_)
  rw [hc.supersedes]
  exact List.filterMap_congr (fun k _ => map_eq_of_rel (Dict.rel_lookup hclaims k) (fun _ _ he => hc.step he))

private theorem conflictsOf_eq (hclaims : List.Forall₂
    (fun p q => p.1 = q.1 ∧ Matched w w' verdicts scope nowMs p.2 q.2) claims claims') (edges : List (String × String)) :
    conflictsOf claims verdicts edges = conflictsOf claims' verdicts edges := by
  simp only [conflictsOf_eq_views, lookup_view hclaims]

private theorem reconciliationsOf_eq (h : SameButHidden scope nowMs w w') (hclaims : List.Forall₂
    (fun p q => p.1 = q.1 ∧ Matched w w' verdicts scope nowMs p.2 q.2) claims claims') (hopOf : List String) :
    reconciliationsOf claims verdicts hopOf = reconciliationsOf claims' verdicts hopOf := by
  rw [reconciliationsOf_eq_views, reconciliationsOf_eq_views]
  refine filterMap_eq_of_forall₂ (forall₂_ordered h hclaims hopOf) (fun c c' hc => ?_)
  simp only [hc.reconciled, hc.view, lookup_view hclaims]

end Views
end Matched

/-- Two walks that differ in the content of denied claims only assemble to the same history, text included. -/
theorem withheld_means_withheld (fmt : Formatting) (claimId : String) (scope : Scope) (nowMs : Int) (w w' : Walk)
    (h : SameButHidden scope nowMs w w') :
    assemble fmt claimId w (checkPermissions scope nowMs w.candidates).1 (checkPermissions scope nowMs w.candidates).2 =
      assemble fmt claimId w' (checkPermissions scope nowMs w'.candidates).1 (checkPermissions scope nowMs w'.candidates).2 := by
  rw [← checkPermissions_eq h]
  have hclaims := matched_claims h
  have hkeys : (Dict.collect Claim.id id w.candidates).map Prod.fst = (Dict.collect Claim.id id w'.candidates).map Prod.fst :=
    map_eq_of_forall₂ hclaims (fun _ _ hpq => hpq.1)
  have hempty : Dict.collect Claim.id id w.candidates = [] ↔ Dict.collect Claim.id id w'.candidates = [] := by
    rw [← List.map_eq_nil_iff (f := Prod.fst), hkeys, List.map_eq_nil_iff]
  have hlen : (Dict.collect Claim.id id w.candidates).length = (Dict.collect Claim.id id w'.candidates).length :=
    hclaims.length_eq
  have hall : ∀ p : String → Bool, (Dict.collect Claim.id id w.candidates).all (fun q => p q.1) =
      (Dict.collect Claim.id id w'.candidates).all (fun q => p q.1) := fun p => by
    have hmap := congrArg (fun ks => ks.all p) hkeys
    rwa [List.all_map, List.all_map] at hmap
  have hchain := map_eq_of_forall₂ (forall₂_ordered h hclaims w.hopOf) (fun _ _ hc => hc.view)
  rw [assemble_eq, assemble_eq]
  dsimp only
  rw [← h.edges, ← h.hopOf, hchain, stepsOf_eq h hclaims, conflictsOf_eq hclaims, reconciliationsOf_eq h hclaims, hlen,
    hall (fun k => (Verdicts.reason (checkPermissions scope nowMs w.candidates).1 k).isSome)]
  simp only [hempty]

/-- The move to Postgres as a restricted claim, whatever it states. -/
def restrictedMove (statement : String) : Claim :=
  { soleClaim toPostgres with
    statement := statement
    supersedes := [(soleClaim toRedis).id]
    acl := { (soleClaim toPostgres).acl with sensitivity := .restricted } }

def walkTo (statement : String) : Walk where
  candidates := [soleClaim toRedis, restrictedMove statement]
  hopOf := [(soleClaim toRedis).id, (soleClaim toPostgres).id]

theorem withheld_means_withheld_move : SameButHidden projectsOnly 10 (walkTo "Postgres.") (walkTo "MySQL.") ∧
    assemble mockFormat (soleClaim toRedis).id (walkTo "Postgres.")
        (checkPermissions projectsOnly 10 (walkTo "Postgres.").candidates).1
        (checkPermissions projectsOnly 10 (walkTo "Postgres.").candidates).2 =
      assemble mockFormat (soleClaim toRedis).id (walkTo "MySQL.")
        (checkPermissions projectsOnly 10 (walkTo "MySQL.").candidates).1
        (checkPermissions projectsOnly 10 (walkTo "MySQL.").candidates).2 := by
  have hsame : SameButHidden projectsOnly 10 (walkTo "Postgres.") (walkTo "MySQL.") := by
    refine ⟨.cons (Or.inl rfl) (.cons (Or.inr ⟨rfl, rfl, rfl, rfl, .tooSensitive, ?_, ?_⟩) .nil), ?_, rfl, rfl⟩
    · decide +kernel
    · decide +kernel
    · decide +kernel
  exact ⟨hsame, withheld_means_withheld mockFormat (soleClaim toRedis).id projectsOnly 10 _ _ hsame⟩

end Memorai.History
