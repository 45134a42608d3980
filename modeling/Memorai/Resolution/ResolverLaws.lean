import Mathlib.Data.List.Induction
import Memorai.Resolution.Resolver
import Memorai.Storage.StoreLaws

/-! Closed forms of resolution. One comparison loop is three filters and a map; a whole batch
is one fold over its claims in order. -/
namespace Memorai.Resolver
open Schema Storage

/-- Same topic, but not the same tokens and obligation. -/
def Disputes (claim other : Claim) : Prop :=
  other.id ≠ claim.id ∧ topic other.statement = topic claim.statement ∧
    ¬ (tokens other.statement = tokens claim.statement ∧ obligation other = obligation claim)

instance (claim other : Claim) : Decidable (Disputes claim other) := by unfold Disputes; infer_instance

theorem Disputes.symm {a b : Claim} (h : Disputes a b) : Disputes b a :=
  ⟨h.1.symm, h.2.1.symm, fun e => h.2.2 ⟨e.1.symm, e.2.symm⟩⟩

def Shares (a b : Claim) : Prop := ∃ e ∈ a.subjectEntityIds, e ∈ b.subjectEntityIds

instance (a b : Claim) : Decidable (Shares a b) := by unfold Shares; infer_instance

theorem Shares.symm {a b : Claim} (h : Shares a b) : Shares b a := by
  obtain ⟨e, ha, hb⟩ := h
  exact ⟨e, hb, ha⟩

/-- A claim that resolution has to settle against `claim`. -/
def Rival (claim other : Claim) : Prop := Disputes claim other ∧ other.status = .active

instance (claim other : Claim) : Decidable (Rival claim other) := by unfold Rival; infer_instance

def earlier (claim : Claim) (existing : List Claim) : List Claim :=
  existing.filter (fun o => Rival claim o ∧ o.assertedAtMs < claim.assertedAtMs)

def contemporary (claim : Claim) (existing : List Claim) : List Claim :=
  existing.filter (fun o => Rival claim o ∧ o.assertedAtMs = claim.assertedAtMs)

def later (claim : Claim) (existing : List Claim) : List Claim :=
  existing.filter (fun o => Rival claim o ∧ claim.assertedAtMs < o.assertedAtMs)

/-- The status after one comparison: a contemporary contradicts, a later one supersedes, and
the last of them in the order of comparison is the one that stays. -/
def verdict (claim : Claim) (status : ClaimStatus) (other : Claim) : ClaimStatus :=
  if Rival claim other then
    if other.assertedAtMs = claim.assertedAtMs then .contradicted
    else if claim.assertedAtMs < other.assertedAtMs then .superseded
    else status
  else status

/-- What a comparison with `claim` leaves of an existing claim. -/
def fade (claim other : Claim) : Claim :=
  if Rival claim other ∧ other.assertedAtMs < claim.assertedAtMs then { other with status := .superseded }
  else other

def settled (claim : Claim) (existing : List Claim) : Claim :=
  { claim with
    supersedes := claim.supersedes ++ (earlier claim existing).map Claim.id
    contradicts := claim.contradicts ++ (contemporary claim existing).map Claim.id
    status := existing.foldl (verdict claim) claim.status }

def reportedSupersession (claim other : Claim) : List (String × String) :=
  if Rival claim other ∧ other.assertedAtMs < claim.assertedAtMs then [(claim.id, other.id)]
  else if Rival claim other ∧ claim.assertedAtMs < other.assertedAtMs then [(other.id, claim.id)]
  else []

private theorem step_settled (claim : Claim) (existing : List Claim) (other : Claim) (v : List Claim)
    (s c : List (String × String)) :
    Comparison.step ⟨settled claim existing, v, s, c⟩ other =
      ⟨settled claim (existing ++ [other]), v ++ [fade claim other],
        s ++ reportedSupersession claim other,
        c ++ (contemporary claim [other]).map (fun o => (claim.id, o.id))⟩ := by
  have hid : (settled claim existing).id = claim.id := rfl
  have hst : (settled claim existing).statement = claim.statement := rfl
  have hob : obligation (settled claim existing) = obligation claim := rfl
  have htm : (settled claim existing).assertedAtMs = claim.assertedAtMs := rfl
  have hskip : ¬ Rival claim other →
      (⟨settled claim existing, v, s, c⟩ : Comparison).skip other =
        ⟨settled claim (existing ++ [other]), v ++ [fade claim other],
          s ++ reportedSupersession claim other,
          c ++ (contemporary claim [other]).map (fun o => (claim.id, o.id))⟩ := by
    intro h
    simp [Comparison.skip, settled, earlier, contemporary, fade, reportedSupersession, verdict, h]
  unfold Comparison.step
  simp only [hid, hst, hob, htm]
  by_cases h1 : other.id = claim.id
  · rw [if_pos h1]; exact hskip (fun h => h.1.1 h1)
  rw [if_neg h1]
  by_cases h2 : topic other.statement = topic claim.statement
  swap
  · rw [if_pos h2]; exact hskip (fun h => h2 h.1.2.1)
  rw [if_neg (not_not_intro h2)]
  by_cases h3 : tokens other.statement = tokens claim.statement ∧ obligation other = obligation claim
  · rw [if_pos h3]; exact hskip (fun h => h.1.2.2 h3)
  rw [if_neg h3]
  by_cases h4 : other.status = .active
  swap
  · rw [if_pos h4]; exact hskip (fun h => h4 h.2)
  rw [if_neg (not_not_intro h4)]
  have hr : Rival claim other := ⟨⟨h1, h2, h3⟩, h4⟩
  rcases lt_trichotomy other.assertedAtMs claim.assertedAtMs with ht | ht | ht
  · have hn : ¬ claim.assertedAtMs < other.assertedAtMs := not_lt_of_gt ht
    simp [settled, earlier, contemporary, fade, reportedSupersession, verdict, hr, ht, ht.ne, hn]
  · simp [settled, earlier, contemporary, fade, reportedSupersession, verdict, hr, ht]
  · have hn : ¬ other.assertedAtMs < claim.assertedAtMs := not_lt_of_gt ht
    simp [settled, earlier, contemporary, fade, reportedSupersession, verdict, hr, ht, ht.ne, ht.ne', hn]

/-- The comparison loop in closed form: every existing claim is judged on its own, since the
loop changes neither what identifies the claim nor any existing claim but the one at hand. -/
theorem compareAll_eq (claim : Claim) (existing : List Claim) :
    compareAll claim existing =
      ⟨settled claim existing, existing.map (fade claim), existing.flatMap (reportedSupersession claim),
        (contemporary claim existing).map (fun o => (claim.id, o.id))⟩ := by
  induction existing using List.reverseRecOn with
  | nil => simp [compareAll, settled, earlier, contemporary]
  | append_singleton existing other ih =>
    have h : compareAll claim (existing ++ [other]) = (compareAll claim existing).step other := by
      simp [compareAll]
    rw [h, ih, step_settled]
    simp [contemporary]

/-- As extractors hand claims over: not marked in any way. -/
def Raw (c : Claim) : Prop := c.status = .active ∧ c.supersedes = [] ∧ c.contradicts = []

/-- A claim without what resolution decides. -/
def bare (claim : Claim) : Claim := { claim with status := .active, supersedes := [], contradicts := [] }

@[simp] theorem bare_fade (claim other : Claim) : bare (fade claim other) = bare other := by
  unfold fade; split <;> rfl

@[simp] theorem bare_settled (claim : Claim) (existing : List Claim) : bare (settled claim existing) = bare claim := rfl

/-- What resolution does not decide is the same for claims that agree when bare. -/
theorem eq_of_bare {β : Type} {b c : Claim} (f : Claim → β) (hf : ∀ d, f (bare d) = f d) (h : bare b = bare c) :
    f b = f c := by rw [← hf b, h, hf]

/-- Whether two claims dispute each other is not for resolution to decide. -/
theorem Disputes.of_bare {a b c d : Claim} (h : Disputes a b) (hc : bare c = bare a) (hd : bare d = bare b) : Disputes c d := by
  have hstatement : ∀ {x y : Claim}, bare x = bare y → x.statement = y.statement := eq_of_bare Claim.statement (fun _ => rfl)
  have hobligation : ∀ {x y : Claim}, bare x = bare y → obligation x = obligation y := eq_of_bare obligation (fun _ => rfl)
  obtain ⟨hne, htopic, hdiffer⟩ := h
  refine ⟨?_, ?_, ?_⟩
  · rwa [eq_of_bare Claim.id (fun _ => rfl) hc, eq_of_bare Claim.id (fun _ => rfl) hd]
  · rw [hstatement hc, hstatement hd, htopic]
  · rwa [hstatement hc, hstatement hd, hobligation hc, hobligation hd]

/-- The pending claims after one more answered claim. -/
def settle (pending : List Claim) (asked : Asked) : List Claim :=
  if asked.found then pending
  else pending.map (fade asked.claim) ++ [settled asked.claim (asked.stored ++ pending)]

theorem settle_found {pending : List Claim} {q : Asked} (h : q.found) : settle pending q = pending := if_pos h

theorem settle_fresh {pending : List Claim} {q : Asked} (h : q.found = false) :
    settle pending q = pending.map (fade q.claim) ++ [settled q.claim (q.stored ++ pending)] := if_neg (by simp [h])

def settleAll (pending : List Claim) (asked : List Asked) : List Claim := asked.foldl settle pending

theorem settleAll_cons (pending : List Claim) (q : Asked) (qs : List Asked) :
    settleAll pending (q :: qs) = settleAll (settle pending q) qs := rfl

/-- The claims among the answered ones that were not found to be stored. -/
def freshOf (asked : List Asked) : List Claim := (asked.filter (fun q => !q.found)).map Asked.claim

/-- What the comparisons contribute to a report, one answered claim after the other. -/
def collect {β : Type} (f : Claim → List Claim → List β) (pending : List Claim) : List Asked → List β
  | [] => []
  | q :: qs => (if q.found then [] else f q.claim (q.stored ++ pending)) ++ collect f (settle pending q) qs

theorem settleAll_append (pending : List Claim) (as bs : List Asked) :
    settleAll pending (as ++ bs) = settleAll (settleAll pending as) bs := List.foldl_append

theorem collect_append {β : Type} (f : Claim → List Claim → List β) (pending : List Claim) (as bs : List Asked) :
    collect f pending (as ++ bs) = collect f pending as ++ collect f (settleAll pending as) bs := by
  induction as generalizing pending with
  | nil => rfl
  | cons a as ih => simp [collect, ih, settleAll]

@[simp] theorem freshOf_append (as bs : List Asked) : freshOf (as ++ bs) = freshOf as ++ freshOf bs := by
  simp [freshOf]

theorem settle_bare (pending : List Claim) (q : Asked) :
    (settle pending q).map bare = pending.map bare ++ (freshOf [q]).map bare := by
  unfold settle freshOf
  by_cases h : q.found <;> simp [h, Function.comp_def]

/-- Resolution keeps every fresh claim in its place and changes only what it decides. -/
theorem settleAll_bare (pending : List Claim) (qs : List Asked) :
    (settleAll pending qs).map bare = pending.map bare ++ (freshOf qs).map bare := by
  induction qs generalizing pending with
  | nil => simp [settleAll, freshOf]
  | cons q qs ih =>
    have hcons : freshOf (q :: qs) = freshOf [q] ++ freshOf qs := freshOf_append [q] qs
    rw [settleAll, List.foldl_cons, ← settleAll, ih, settle_bare, hcons, List.map_append, List.append_assoc]

theorem ids_settleAll (qs : List Asked) : (settleAll [] qs).map Claim.id = (freshOf qs).map Claim.id := by
  have hbare := congrArg (List.map Claim.id) (settleAll_bare [] qs)
  simp only [List.map_map, List.map_nil, List.nil_append] at hbare
  exact hbare

theorem length_settleAll (pending : List Claim) (qs : List Asked) :
    (settleAll pending qs).length = pending.length + (freshOf qs).length := by
  simpa using congrArg List.length (settleAll_bare pending qs)

def supersededPairs (claim : Claim) (existing : List Claim) : List (String × String) :=
  existing.flatMap (reportedSupersession claim)

def contradictedPairs (claim : Claim) (existing : List Claim) : List (String × String) :=
  (contemporary claim existing).map (fun o => (claim.id, o.id))

def duplicatesOf (qs : List Asked) : List String := (qs.filter Asked.found).map (fun q => q.claim.id)

private theorem resolveClaim_eq (res : Resolution) (pending : List Claim) (q : Asked) :
    resolveClaim (res, pending) q =
      ({ newClaims := res.newClaims ++ List.range' pending.length (freshOf [q]).length
         supersessions := res.supersessions ++ collect supersededPairs pending [q]
         contradictions := res.contradictions ++ collect contradictedPairs pending [q]
         duplicates := res.duplicates ++ duplicatesOf [q] }, settle pending q) := by
  by_cases h : q.found
  · simp [resolveClaim, settle, freshOf, collect, duplicatesOf, h]
  · simp [resolveClaim, settle, freshOf, collect, duplicatesOf, h, compareAll_eq, supersededPairs, contradictedPairs]

/-- A candidate's resolution in closed form. -/
def resolutionOf (pending : List Claim) (qs : List Asked) : Resolution where
  newClaims := List.range' pending.length (freshOf qs).length
  supersessions := collect supersededPairs pending qs
  contradictions := collect contradictedPairs pending qs
  duplicates := duplicatesOf qs

private theorem foldl_resolveClaim (qs : List Asked) (res : Resolution) (pending : List Claim) :
    qs.foldl resolveClaim (res, pending) =
      ({ newClaims := res.newClaims ++ List.range' pending.length (freshOf qs).length
         supersessions := res.supersessions ++ collect supersededPairs pending qs
         contradictions := res.contradictions ++ collect contradictedPairs pending qs
         duplicates := res.duplicates ++ duplicatesOf qs }, settleAll pending qs) := by
  induction qs generalizing res pending with
  | nil => simp [collect, settleAll, freshOf, duplicatesOf]
  | cons q qs ih =>
    have hlen : (settle pending q).length = pending.length + (freshOf [q]).length :=
      length_settleAll pending [q]
    rw [List.foldl_cons, resolveClaim_eq, ih, hlen]
    by_cases h : q.found
    · simp [h, collect, settleAll, freshOf, duplicatesOf]
    · simp [h, collect, settleAll, freshOf, duplicatesOf, List.range'_succ]

theorem resolveAll_eq (qs : List Asked) (pending : List Claim) :
    qs.foldl resolveClaim ({}, pending) = (resolutionOf pending qs, settleAll pending qs) := by
  simp [foldl_resolveClaim, resolutionOf]

/-- The resolutions of a batch, each read off the pending claims it starts from. -/
def resolutionsFrom (pending : List Claim) : List (List Asked) → List Resolution
  | [] => []
  | qs :: groups => resolutionOf pending qs :: resolutionsFrom (settleAll pending qs) groups

theorem supersessions_resolutionsFrom (pending : List Claim) (groups : List (List Asked)) :
    (resolutionsFrom pending groups).flatMap Resolution.supersessions =
      collect supersededPairs pending groups.flatten := by
  induction groups generalizing pending with
  | nil => rfl
  | cons qs groups ih =>
    rw [resolutionsFrom, List.flatMap_cons, List.flatten_cons, ih, collect_append]
    rfl

theorem contradictions_resolutionsFrom (pending : List Claim) (groups : List (List Asked)) :
    (resolutionsFrom pending groups).flatMap Resolution.contradictions =
      collect contradictedPairs pending groups.flatten := by
  induction groups generalizing pending with
  | nil => rfl
  | cons qs groups ih =>
    rw [resolutionsFrom, List.flatMap_cons, List.flatten_cons, ih, collect_append]
    rfl

/-- Nothing is reported of duplicates. -/
theorem collect_of_found {β : Type} (f : Claim → List Claim → List β) (pending : List Claim) {qs : List Asked}
    (h : ∀ q ∈ qs, q.found = true) : collect f pending qs = [] := by
  induction qs generalizing pending with
  | nil => rfl
  | cons q qs ih =>
    rw [collect, if_pos (h q List.mem_cons_self), List.nil_append]
    exact ih _ (fun p hp => h p (List.mem_cons_of_mem _ hp))

section Batch
variable (rows : RowOrder Claim) (store : Store) (ownerId : String)

private theorem foldl_resolveBatchStep (candidates : List Candidate) (rs : List Resolution) (pending : List Claim) :
    candidates.foldl (resolveBatchStep rows store ownerId) (rs, pending) =
      (rs ++ resolutionsFrom pending (candidates.map (fun c => c.claims.map (ask rows store ownerId))),
        settleAll pending (candidates.map (fun c => c.claims.map (ask rows store ownerId))).flatten) := by
  induction candidates generalizing rs pending with
  | nil => simp [resolutionsFrom, settleAll]
  | cons c cs ih =>
    have hstep : resolveBatchStep rows store ownerId (rs, pending) c =
        (rs ++ [resolutionOf pending (c.claims.map (ask rows store ownerId))],
          settleAll pending (c.claims.map (ask rows store ownerId))) := by
      have hfold : resolve rows store ownerId c pending = _ :=
        (List.foldl_map).symm.trans (resolveAll_eq (c.claims.map (ask rows store ownerId)) pending)
      simp only [resolveBatchStep, hfold]
    rw [List.foldl_cons, hstep, ih, List.map_cons, List.flatten_cons, settleAll_append]
    simp [resolutionsFrom]

/-- A batch settles its claims in one pass, candidate boundaries notwithstanding. -/
theorem resolveBatch_eq (candidates : List Candidate) :
    resolveBatch rows store ownerId candidates =
      (resolutionsFrom [] (candidates.map (fun c => c.claims.map (ask rows store ownerId))),
        settleAll [] (candidates.map (fun c => c.claims.map (ask rows store ownerId))).flatten) := by
  simpa [resolveBatch] using foldl_resolveBatchStep rows store ownerId candidates [] []

end Batch
end Memorai.Resolver
