import Memorai.Collections.Lists
import Memorai.Ingestion.Ahead
import Memorai.Ingestion.Unsealed

/-! The `CITES` edges of the claims a run writes: to whatever is stored by the time the claim is written. -/
namespace Memorai.Ingestion
open Schema Memorai.Graph Storage Extraction Resolver Memorai.Lists

section Lays
variable {s : Store} {ops : List StoreOp} {cs : List Claim}

end Lays

section Script
variable {job : Job} {s : Store}

end Script
end Memorai.Ingestion
