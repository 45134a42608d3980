import Mathlib.Data.Prod.Lex
import Mathlib.Data.String.Basic
import Memorai.History.ShiftGuards
import Memorai.Order.KeySort

/-! The shape of a shift history, which is what it says without saying anything of a claim: ids and how
many there are. A grant decides what is shown in the shape, never the shape. -/
namespace Memorai.History
open Schema Memorai.Graph Storage Ingestion

def ClaimView.id : ClaimView → String
  | .withheld id _ => id
  | .shown id _ _ _ _ _ => id

/-- The superseding and the superseded id. -/
def Step.ids (st : Step) : String × String := (st.superseding.id, st.superseded.id)

structure Shape where
  chain : List String
  steps : List (String × String)
  conflicts : List (String × String)
  /-- The reconciled claims. -/
  reconciliations : List String
  considered : Nat
  deriving DecidableEq, Repr

def ShiftHistory.shape (h : ShiftHistory) : Shape where
  chain := h.chain.map ClaimView.id
  steps := h.steps.map Step.ids
  conflicts := h.conflicts.map (fun p => (p.1.id, p.2.id))
  reconciliations := h.reconciliations.map (fun p => p.1.id)
  considered := h.considered

/-- The shape of what was walked. No verdict goes into it. -/
def outline (claims : List (String × Claim)) (edges : List (String × String)) (hopOf : List String) : Shape where
  chain := (orderedOf claims hopOf).map Claim.id
  steps := ((claims.map Prod.snd).insertionSort claimBefore).flatMap (fun c => c.supersedes.filterMap (fun k =>
    (claims.lookup k).map (fun earlier => (c.id, earlier.id))))
  conflicts := edges.filterMap (fun (a, b) => (claims.lookup a).bind (fun c => (claims.lookup b).map (fun d => (c.id, d.id))))
  reconciliations := ((orderedOf claims hopOf).filter (fun c => (reconciledInto c).isSome)).map Claim.id
  considered := claims.length

section Outline
variable (claims : List (String × Claim)) (verdicts : Verdicts)

theorem id_claimView (c : Claim) (denied : Option DenyReason) : (claimView c denied).id = c.id := by
  cases denied <;> rfl

theorem ids_step (c earlier : Claim) : (step c earlier verdicts).ids = (c.id, earlier.id) :=
  Prod.ext (id_claimView _ _) (id_claimView _ _)

theorem ids_stepsOf : (stepsOf claims verdicts).map Step.ids =
    ((claims.map Prod.snd).insertionSort claimBefore).flatMap (fun c => c.supersedes.filterMap (fun k =>
      (claims.lookup k).map (fun earlier => (c.id, earlier.id)))) := by
  rw [stepsOf, List.map_flatMap]
  refine congrArg (List.flatMap · _) (funext (fun c => ?_))
  rw [List.map_filterMap]
  refine List.filterMap_congr (fun k _ => ?_)
  rw [Option.map_map]
  exact congrArg (fun f => (claims.lookup k).map f) (funext (fun earlier => ids_step verdicts c earlier))

theorem ids_conflictsOf (edges : List (String × String)) :
    (conflictsOf claims verdicts edges).map (fun p => (p.1.id, p.2.id)) = edges.filterMap (fun (a, b) =>
      (claims.lookup a).bind (fun c => (claims.lookup b).map (fun d => (c.id, d.id)))) := by
  rw [conflictsOf, List.map_filterMap]
  refine List.filterMap_congr (fun e _ => ?_)
  dsimp only
  cases claims.lookup e.1 with
  | none => rfl
  | some c =>
    cases claims.lookup e.2 with
    | none => rfl
    | some d => exact congrArg some (Prod.ext (id_claimView _ _) (id_claimView _ _))

theorem ids_reconciliationsOf (hopOf : List String) : (reconciliationsOf claims verdicts hopOf).map (fun p => p.1.id) =
    ((orderedOf claims hopOf).filter (fun c => (reconciledInto c).isSome)).map Claim.id := by
  rw [reconciliationsOf]
  induction orderedOf claims hopOf with
  | nil => rfl
  | cons c cs ih =>
    cases hr : reconciledInto c with
    | none => rw [List.filterMap_cons_none (by rw [hr]; rfl), List.filter_cons_of_neg (by simp [hr]), ih]
    | some target =>
      rw [List.filterMap_cons_some (by rw [hr]; rfl), List.filter_cons_of_pos (by simp [hr]), List.map_cons, List.map_cons, ih]
      exact congrArg (· :: _) (id_claimView _ _)

/-- What is shown in an answer has the shape of what was walked. -/
theorem shape_assemble {fmt : Formatting} {claimId : String} {walked : Walk} {verdicts : Verdicts} {denials : List Denial}
    (h : (assemble fmt claimId walked verdicts denials).answered = true) :
    (assemble fmt claimId walked verdicts denials).shape =
      outline (Dict.collect Claim.id id walked.candidates) walked.edges walked.hopOf := by
  rw [assemble_eq] at h ⊢
  dsimp only at h ⊢
  split at h
  · exact absurd h (by simp)
  · split at h
    · exact absurd h (by simp)
    · rename_i hsome hseen
      rw [if_neg hsome, if_neg hseen, ShiftHistory.shape, outline, ids_stepsOf, ids_conflictsOf, ids_reconciliationsOf,
        List.map_map]
      refine congrArg (fun chain => Shape.mk chain _ _ _ _) (List.map_congr_left (fun c _ => ?_))
      exact id_claimView c _

theorem claimBefore_iff (a b : Claim) :
    claimBefore a b ↔ toLex (a.assertedAtMs, a.id) ≤ toLex (b.assertedAtMs, b.id) := by
  rw [claimBefore, Prod.Lex.toLex_le_toLex]

section Perm
variable {claims claims' : List (String × Claim)}

/-- Claims under distinct ids sort the same in whichever order they were read. -/
theorem sort_perm (h : claims.Perm claims') (hnd : (claims.map Prod.fst).Nodup) (hids : ∀ p ∈ claims, p.2.id = p.1) :
    (claims.map Prod.snd).insertionSort claimBefore = (claims'.map Prod.snd).insertionSort claimBefore := by
  refine Order.sort_eq_of_perm (fun c => toLex (c.assertedAtMs, c.id)) claimBefore_iff (h.map _) (fun a ha b hb hab => ?_)
  obtain ⟨p, hp, rfl⟩ := List.mem_map.mp ha
  obtain ⟨q, hq, rfl⟩ := List.mem_map.mp hb
  have hid : p.2.id = q.2.id := (Prod.mk.inj (toLex_inj.mp hab)).2
  rw [hids p hp, hids q hq] at hid
  rw [List.inj_on_of_nodup_map hnd hp hq hid]

theorem orderedOf_perm (h : claims.Perm claims') (hnd : (claims.map Prod.fst).Nodup)
    (hids : ∀ p ∈ claims, p.2.id = p.1) (hopOf : List String) : orderedOf claims hopOf = orderedOf claims' hopOf := by
  refine sort_perm (h.filter _) (hnd.sublist (List.filter_sublist.map _)) (fun p hp => ?_)
  exact hids p (List.mem_filter.mp hp).1

/-- In which order the claims were read does not show in the shape. -/
theorem outline_perm (h : claims.Perm claims') (hnd : (claims.map Prod.fst).Nodup) (hids : ∀ p ∈ claims, p.2.id = p.1)
    (edges : List (String × String)) (hopOf : List String) : outline claims edges hopOf = outline claims' edges hopOf := by
  simp only [outline, orderedOf_perm h hnd hids, sort_perm h hnd hids, Dict.lookup_perm h hnd, h.length_eq]

end Perm

end Outline

section Walk
variable {rows rows' : RowOrder Row} {s : Store} {scope scope' : Scope} {claimId : String}

/-- Claims of different rows have different ids. -/
private theorem nodup_claims {found : List Row} (h : (found.map Row.key).Nodup) :
    ((found.filterMap Row.claim?).map Claim.id).Nodup := by
  have hids : (found.filterMap Row.claim?).map Claim.id =
      (found.map Row.key).filterMap (fun k => if k.label = .claim then some k.id else none) := by
    rw [List.map_filterMap, List.filterMap_map]
    refine List.filterMap_congr (fun r _ => ?_)
    rw [Function.comp_apply]
    cases hr : r.claim? with
    | some c => rw [Row.key_of_claim? hr, if_pos rfl, Option.map_some]
    | none =>
      refine (if_neg (fun hl => ?_)).symm
      obtain ⟨c, hc⟩ := Row.claim?_isSome_of_label hl
      rw [hr] at hc
      exact absurd hc (by simp)
  rw [hids]
  refine List.Nodup.filterMap (fun j k x hj hk => ?_) h
  obtain ⟨label, id⟩ := j
  obtain ⟨label', id'⟩ := k
  simp only [Option.mem_def, Option.ite_none_right_eq_some, Option.some.injEq] at hj hk
  rw [hj.1, hk.1, hj.2, hk.2]

private theorem nodup_chain (ownerId : String) (maxHops : Nat) :
    ((s.supersessionChain ownerId claimId maxHops).map Row.key).Nodup := by
  unfold Store.supersessionChain
  split
  · exact ((List.perm_insertionSort _ _).map Row.key).nodup_iff.mpr (s.unique.sublist (List.filter_sublist.map _))
  · exact List.nodup_nil

/-- The ids fetched besides the chain. -/
def extraIds (s : Store) (ownerId claimId : String) : List String :=
  let chain := s.supersessionChain ownerId claimId 24
  let ids := chain.map (fun r => r.key.id)
  ((chain.filterMap (fun r => r.claim?.bind reconciledInto)) ++
    (if ids = [] then [] else s.conflictLinks ownerId ids).flatMap (fun (a, b) => [a, b])).filter (· ∉ ids)

theorem candidates_walk : (walk rows s scope claimId).candidates =
    (s.supersessionChain scope.ownerId claimId 24 ++ if extraIds s scope.ownerId claimId = [] then []
      else s.getMany rows scope.ownerId (extraIds s scope.ownerId claimId)).filterMap Row.claim? := rfl

theorem not_mem_extraIds {ownerId x : String} (h : x ∈ extraIds s ownerId claimId) :
    x ∉ (s.supersessionChain ownerId claimId 24).map (fun r => r.key.id) := by
  simpa using (List.mem_filter.mp h).2

/-- No claim is walked twice. -/
theorem nodup_walk : ((walk rows s scope claimId).candidates.map Claim.id).Nodup := by
  rw [candidates_walk]
  refine nodup_claims ?_
  rw [List.map_append, List.nodup_append]
  refine ⟨nodup_chain _ _, ?_, fun k hk j hj he => ?_⟩
  · split
    · exact List.nodup_nil
    · exact ((rows.perm _).map Row.key).nodup_iff.mpr (s.unique.sublist (List.filter_sublist.map _))
  · obtain ⟨r, hr, rfl⟩ := List.mem_map.mp hk
    obtain ⟨r', hr', rfl⟩ := List.mem_map.mp hj
    have hextra := (Store.mem_getMany.mp (List.mem_ite_nil_left.mp hr').2).2.2
    exact not_mem_extraIds hextra (List.mem_map.mpr ⟨r, hr, by rw [he]⟩)

theorem walk_perm (howner : scope.ownerId = scope'.ownerId) :
    (walk rows s scope claimId).candidates.Perm (walk rows' s scope' claimId).candidates := by
  rw [candidates_walk, candidates_walk, howner]
  refine List.Perm.filterMap _ (List.Perm.append_left _ ?_)
  split
  · exact .refl _
  · exact (rows.perm _).trans (rows'.perm _).symm

theorem outline_walk (howner : scope.ownerId = scope'.ownerId) :
    outline (Dict.collect Claim.id id (walk rows s scope claimId).candidates) (walk rows s scope claimId).edges
        (walk rows s scope claimId).hopOf =
      outline (Dict.collect Claim.id id (walk rows' s scope' claimId).candidates) (walk rows' s scope' claimId).edges
        (walk rows' s scope' claimId).hopOf := by
  have hlinks : (walk rows s scope claimId).edges = (walk rows' s scope' claimId).edges ∧
      (walk rows s scope claimId).hopOf = (walk rows' s scope' claimId).hopOf := by
    simp only [walk, howner, and_self]
  rw [hlinks.1, hlinks.2, Dict.collect_of_nodup _ _ nodup_walk, Dict.collect_of_nodup _ _ nodup_walk]
  refine outline_perm ((walk_perm howner).map _) ?_ (fun p hp => ?_) _ _
  · rw [List.map_map]
    exact nodup_walk
  · obtain ⟨c, _, rfl⟩ := List.mem_map.mp hp
    rfl

end Walk

/-- The two claims of a step are stored, and it has an interval if and citations only if the grant allows both. -/
def FilledIfPermitted (s : Store) (scope : Scope) (nowMs : Int) (st : Step) : Prop :=
  ∃ a b, s.claim? st.superseding.id = some a ∧ s.claim? st.superseded.id = some b ∧
    (st.elapsedMs.isSome ↔ permits scope a.acl nowMs ∧ permits scope b.acl nowMs) ∧
    (st.newCitations ≠ [] → permits scope a.acl nowMs ∧ permits scope b.acl nowMs)

section Filled
variable {fmt : Formatting} {rows : RowOrder Row} {s : Store} {scope : Scope} {claimId : String} {nowMs : Int}

theorem filled_of_mem {st : Step} (h : st ∈ (whyDidThisShift fmt rows s scope claimId nowMs).steps) :
    FilledIfPermitted s scope nowMs st := by
  obtain ⟨a, b, ha, hb, hka, hkb, rfl⟩ := step_of_assemble h
  have hpermitted : ∀ c : Claim, permits scope c.acl nowMs ↔ verdict scope nowMs c = none := fun c => by
    rw [verdict_eq_none_iff, permits, PermissionDecision.allowed, decide_eq_true_eq]
  have hids := Prod.mk.inj (ids_step (Dict.collect Claim.id (verdict scope nowMs) (walk rows s scope claimId).candidates) a b)
  refine ⟨a, b, ?_, ?_, ?_, ?_⟩
  · rw [show _ = a.id from hids.1]
    exact stored_of_walk ha
  · rw [show _ = b.id from hids.2]
    exact stored_of_walk hb
  · rw [hpermitted, hpermitted, ← reason_of_mem hka, ← reason_of_mem hkb]
    unfold step
    dsimp only [checkPermissions]
    split
    · simp [*]
    · simp [*]
  · rw [hpermitted, hpermitted, ← reason_of_mem hka, ← reason_of_mem hkb]
    unfold step
    dsimp only [checkPermissions]
    intro hnew
    by_contra hno
    rw [if_neg hno] at hnew
    exact hnew rfl

end Filled

/-- Two grants of one owner that get an answer get one of the same shape, and each of them the intervals and
citations of the steps it permits. -/
theorem same_shape (fmt : Formatting) (rows rows' : RowOrder Row) (s : Store) (scope scope' : Scope) (claimId : String)
    (nowMs : Int) (howner : scope.ownerId = scope'.ownerId)
    (h : (whyDidThisShift fmt rows s scope claimId nowMs).answered = true)
    (h' : (whyDidThisShift fmt rows' s scope' claimId nowMs).answered = true) :
    (whyDidThisShift fmt rows s scope claimId nowMs).shape = (whyDidThisShift fmt rows' s scope' claimId nowMs).shape ∧
      (∀ st ∈ (whyDidThisShift fmt rows s scope claimId nowMs).steps, FilledIfPermitted s scope nowMs st) ∧
      ∀ st ∈ (whyDidThisShift fmt rows' s scope' claimId nowMs).steps, FilledIfPermitted s scope' nowMs st := by
  refine ⟨?_, fun st hst => filled_of_mem hst, fun st hst => filled_of_mem hst⟩
  calc (whyDidThisShift fmt rows s scope claimId nowMs).shape
    _ = outline _ (walk rows s scope claimId).edges (walk rows s scope claimId).hopOf := shape_assemble h
    _ = outline _ (walk rows' s scope' claimId).edges (walk rows' s scope' claimId).hopOf := outline_walk howner
    _ = (whyDidThisShift fmt rows' s scope' claimId nowMs).shape := (shape_assemble h').symm

/-- A grant that ends before the move. -/
def beforeTheMove : Scope := { projectsOnly with notAfterMs := some 1 }

theorem same_shape_beforeTheMove :
    (whyDidThisShift mockFormat .asStored (runAll [toRedis, toPostgres] PropertyGraph.empty) projectsOnly
        (soleClaim toRedis).id 10).shape =
      (whyDidThisShift mockFormat .asStored (runAll [toRedis, toPostgres] PropertyGraph.empty) beforeTheMove
        (soleClaim toRedis).id 10).shape ∧
    (∀ st ∈ (whyDidThisShift mockFormat .asStored (runAll [toRedis, toPostgres] PropertyGraph.empty) projectsOnly
      (soleClaim toRedis).id 10).steps, FilledIfPermitted (runAll [toRedis, toPostgres] PropertyGraph.empty) projectsOnly 10 st) ∧
    ∀ st ∈ (whyDidThisShift mockFormat .asStored (runAll [toRedis, toPostgres] PropertyGraph.empty) beforeTheMove
      (soleClaim toRedis).id 10).steps, FilledIfPermitted (runAll [toRedis, toPostgres] PropertyGraph.empty) beforeTheMove 10 st :=
  same_shape mockFormat .asStored .asStored (runAll [toRedis, toPostgres] PropertyGraph.empty) projectsOnly beforeTheMove
    (soleClaim toRedis).id 10 rfl (by decide +kernel) (by decide +kernel)

end Memorai.History
