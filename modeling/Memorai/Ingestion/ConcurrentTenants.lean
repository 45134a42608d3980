import Memorai.Concurrency.Views
import Memorai.Ingestion.Concurrent
import Memorai.Ingestion.Tenants

/-! Runs of several owners that take turns on one store, call by call: each owner has what its own runs make of an empty store
when they take the same turns. -/
namespace Memorai.Ingestion
open Schema Memorai.Graph Storage Extraction Resolver Concurrency

/-- A call about one owner's nodes. -/
def Call.Of (mine : String → Prop) (ownerId : String) : Call → Prop
  | .get nodeId => mine nodeId
  | .claimsAbout _ owner claim => owner = ownerId ∧ ∀ x ∈ claim.subjectEntityIds, mine x
  | .exec op => op.Of mine ownerId

/-- An answer that tells of one owner's claims only. -/
def Tells (mine : String → Prop) : (c : Call) → Answer c → Prop
  | .get _, _ => True
  | .claimsAbout .., stored => ∀ a ∈ (stored : List Claim), mine a.id
  | .exec _, _ => True

section Calls
variable {jobs : List Job}

end Calls

end Memorai.Ingestion
