import Memorai.Ingestion.Interruptions

/-! When the same records ingested again make up for a run that stopped. -/
namespace Memorai.Ingestion
open Schema Memorai.Graph Storage Extraction Resolver Memorai.Lists

section SameLayer
variable {s s' : Store} {ops ops' : List StoreOp} {cs cs' : List Claim} {front : List NodeKey}

end SameLayer

section Repair
variable {s : Store} {job again : Job} {n : Nat}

end Repair

end Memorai.Ingestion
