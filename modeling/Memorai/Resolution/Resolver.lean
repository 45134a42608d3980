import Memorai.Resolution.Statements
import Memorai.Storage.MemoryStore

/-! Resolution of extracted claims against what is stored and against earlier claims of the
same batch. -/
namespace Memorai.Resolver
open Schema Storage

/-- State of the loop over the existing claims: the claim under resolution, the existing
claims already passed as the loop left them, and what was reported so far. -/
structure Comparison where
  claim : Claim
  visited : List Claim := []
  supersessions : List (String × String) := []
  contradictions : List (String × String) := []
  deriving DecidableEq, Repr

namespace Comparison

def skip (st : Comparison) (other : Claim) : Comparison := { st with visited := st.visited ++ [other] }

def step (st : Comparison) (other : Claim) : Comparison :=
  let claim := st.claim
  if other.id = claim.id then st.skip other
  else if topic other.statement ≠ topic claim.statement then st.skip other
  else if tokens other.statement = tokens claim.statement ∧ obligation other = obligation claim then
    st.skip other
  else if other.status ≠ .active then st.skip other
  else if other.assertedAtMs < claim.assertedAtMs then
    { st with
      claim := { claim with supersedes := claim.supersedes ++ [other.id] }
      visited := st.visited ++ [{ other with status := .superseded }]
      supersessions := st.supersessions ++ [(claim.id, other.id)] }
  else if claim.assertedAtMs = other.assertedAtMs then
    { st with
      claim := { claim with contradicts := claim.contradicts ++ [other.id], status := .contradicted }
      visited := st.visited ++ [other]
      contradictions := st.contradictions ++ [(claim.id, other.id)] }
  else
    -- Arrived late but happened earlier: born superseded, and `other` is left as it is.
    { st with
      claim := { claim with status := .superseded }
      visited := st.visited ++ [other]
      supersessions := st.supersessions ++ [(other.id, claim.id)] }

end Comparison

def compareAll (claim : Claim) (existing : List Claim) : Comparison :=
  existing.foldl Comparison.step { claim := claim }

/-- What the resolver decided for one candidate. A new claim is named by its position in the
list of pending claims, whose object the resolution shares: a later claim of the batch that
changes the pending claim changes this one too. -/
structure Resolution where
  newClaims : List Nat := []
  supersessions : List (String × String) := []
  contradictions : List (String × String) := []
  duplicates : List String := []
  deriving DecidableEq, Repr

/-- What the store answered about a claim: whether its id is taken, and which claims are stored
about its subjects. -/
structure Asked where
  claim : Claim
  found : Bool
  stored : List Claim
  deriving DecidableEq, Repr

/-- One pass of the loop over a candidate's claims, with the pending claims beside it. -/
def resolveClaim (st : Resolution × List Claim) (asked : Asked) : Resolution × List Claim :=
  let (resolution, prior) := st
  if asked.found then
    ({ resolution with duplicates := resolution.duplicates ++ [asked.claim.id] }, prior)
  else
    let cmp := compareAll asked.claim (asked.stored ++ prior)
    -- The stored claims were hydrated for this comparison only; their mutation ends here.
    let prior := cmp.visited.drop asked.stored.length
    ({ newClaims := resolution.newClaims ++ [prior.length]
       supersessions := resolution.supersessions ++ cmp.supersessions
       contradictions := resolution.contradictions ++ cmp.contradictions
       duplicates := resolution.duplicates }, prior ++ [cmp.claim])

section Resolve
variable (rows : RowOrder Claim) (store : Store) (ownerId : String)

def storedAbout (claim : Claim) : List Claim :=
  rows.order (Store.claimsAbout store ownerId claim.subjectEntityIds)

def ask (claim : Claim) : Asked where
  claim := claim
  found := (Store.get store claim.id).isSome
  stored := storedAbout rows store ownerId claim

def resolve (candidate : Candidate) (pending : List Claim) : Resolution × List Claim :=
  candidate.claims.foldl (fun st claim => resolveClaim st (ask rows store ownerId claim)) ({}, pending)

def resolveBatchStep (st : List Resolution × List Claim) (candidate : Candidate) :
    List Resolution × List Claim :=
  let (resolution, pending) := resolve rows store ownerId candidate st.2
  (st.1 ++ [resolution], pending)

/-- Resolves a whole ingestion batch, one list of pending claims shared by all of it. -/
def resolveBatch (candidates : List Candidate) : List Resolution × List Claim :=
  candidates.foldl (resolveBatchStep rows store ownerId) ([], [])

end Resolve
end Memorai.Resolver
