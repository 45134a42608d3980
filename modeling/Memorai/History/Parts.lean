import Memorai.History.Shift

/-! The parts of a shift history, one by one. -/
namespace Memorai.History
open Schema Storage

section Parts
variable (claims : List (String × Claim)) (verdicts : Verdicts)

def viewOf (claim : Claim) : ClaimView := claimView claim (verdicts.reason claim.id)

/-- The claims of the run itself, oldest first. -/
def orderedOf (hopOf : List String) : List Claim :=
  ((claims.filter (fun p => p.1 ∈ hopOf)).map Prod.snd).insertionSort claimBefore

def stepsOf : List Step :=
  ((claims.map Prod.snd).insertionSort claimBefore).flatMap (fun claim => claim.supersedes.filterMap (fun superseded =>
    (claims.lookup superseded).map (fun earlier => step claim earlier verdicts)))

def conflictsOf (edges : List (String × String)) : List (ClaimView × ClaimView) :=
  edges.filterMap (fun (a, b) => (claims.lookup a).bind (fun claim => (claims.lookup b).map (fun contradicts =>
    (viewOf verdicts claim, viewOf verdicts contradicts))))

def reconciliationsOf (hopOf : List String) : List (ClaimView × Reconciled) :=
  (orderedOf claims hopOf).filterMap (fun claim => (reconciledInto claim).map (fun target =>
    (viewOf verdicts claim, match claims.lookup target with
      | some other => .claim (viewOf verdicts other)
      | none => .absent target)))

theorem mem_stepsOf {st : Step} : st ∈ stepsOf claims verdicts ↔
    ∃ p ∈ claims, ∃ k ∈ p.2.supersedes, ∃ earlier, claims.lookup k = some earlier ∧ st = step p.2 earlier verdicts := by
  simp only [stepsOf, List.mem_flatMap, List.mem_insertionSort, List.mem_map, List.mem_filterMap, Option.map_eq_some_iff]
  constructor
  · rintro ⟨_, ⟨p, hp, rfl⟩, k, hk, earlier, he, rfl⟩
    exact ⟨p, hp, k, hk, earlier, he, rfl⟩
  · rintro ⟨p, hp, k, hk, earlier, he, rfl⟩
    exact ⟨p.2, ⟨p, hp, rfl⟩, k, hk, earlier, he, rfl⟩

/-- A conflict needs of its two claims what is seen of them only. -/
theorem conflictsOf_eq_views (edges : List (String × String)) : conflictsOf claims verdicts edges =
    edges.filterMap (fun e => ((claims.lookup e.1).map (viewOf verdicts)).bind (fun a =>
      ((claims.lookup e.2).map (viewOf verdicts)).map (fun b => (a, b)))) := by
  refine List.filterMap_congr (fun e _ => ?_)
  dsimp only
  cases claims.lookup e.1 <;> cases claims.lookup e.2 <;> rfl

theorem reconciliationsOf_eq_views (hopOf : List String) : reconciliationsOf claims verdicts hopOf =
    (orderedOf claims hopOf).filterMap (fun claim => (reconciledInto claim).map (fun target => (viewOf verdicts claim,
      ((claims.lookup target).map (viewOf verdicts)).elim (.absent target) .claim))) := by
  refine List.filterMap_congr (fun claim _ => congrArg (fun f => (reconciledInto claim).map f) (funext (fun target => ?_)))
  cases claims.lookup target <;> rfl

end Parts

/-- Nothing to show, nothing to be shown, or all the parts. -/
theorem assemble_eq (fmt : Formatting) (claimId : String) (walked : Walk) (verdicts : Verdicts) (denials : List Denial) :
    assemble fmt claimId walked verdicts denials =
      let claims := Dict.collect Claim.id id walked.candidates
      if claims = [] then
        { claimId := claimId
          answered := false
          text := "No claim " ++ fmt.repr claimId ++ " is present in this memory." }
      else if claims.all (fun p => (verdicts.reason p.1).isSome) then
        { claimId := claimId
          answered := false
          text := "Declining to answer: " ++ toString claims.length ++ " claim(s) make up this decision's history, but " ++
            "none are within the requesting agent's scope (" ++ pretty denials ++ ")."
          denied := denials
          considered := claims.length }
      else
        { claimId := claimId
          answered := true
          text := shiftText fmt claimId (stepsOf claims verdicts) (conflictsOf claims verdicts walked.edges)
          chain := (orderedOf claims walked.hopOf).map (viewOf verdicts)
          steps := stepsOf claims verdicts
          conflicts := conflictsOf claims verdicts walked.edges
          reconciliations := reconciliationsOf claims verdicts walked.hopOf
          denied := denials
          considered := claims.length } := rfl

end Memorai.History
