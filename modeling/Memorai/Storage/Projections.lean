import Memorai.Collections.Runs
import Memorai.Storage.Commitments

/-! The columns that are lifted out of a payload, and which writers keep them in step with it. -/
namespace Memorai.Storage
open Schema Memorai.Graph Runs

section Columns

/-- Every column is the one that is computed from the payload. The embedding is of a text the caller chose. -/
def Row.Projected (r : Row) : Prop := r = Row.of r.payload r.embedding

def ProjectedColumns (s : Store) : Prop := ∀ r ∈ s.nodes, r.Projected

instance (s : Store) : Decidable (ProjectedColumns s) := by
  unfold ProjectedColumns Row.Projected
  infer_instance

/-- The columns that only an upsert writes. -/
structure UpsertOnly where
  ownerId : String
  text : String
  occurredAtMs : Int
  aclSources : List SourceId
  aclSensitivity : Sensitivity
  aclEntityKinds : List EntityKind
  deriving DecidableEq, Repr

def upsertOnly (node : MemoryNode) : UpsertOnly where
  ownerId := node.ownerId
  text := textOf node
  occurredAtMs := occurredAt node
  aclSources := node.acl.sources
  aclSensitivity := node.acl.sensitivity
  aclEntityKinds := node.acl.entityKinds

/-- A payload is replaced by one with the same columns, apart from the promoted ones. -/
def StoreCall.KeepsColumns : StoreCall → Store → Prop
  | replacePayload node, s => ∀ r ∈ s.nodes, r.key = ⟨labelOf node, node.id⟩ → upsertOnly node = upsertOnly r.payload
  | _, _ => True

instance (call : StoreCall) (s : Store) : Decidable (call.KeepsColumns s) := by
  unfold StoreCall.KeepsColumns
  split <;> infer_instance

instance (call : StoreCall) (s : Store) : Decidable (call.Fits s) := by
  unfold StoreCall.Fits
  split <;> infer_instance

/-- A change of a claim that touches none of them. -/
def Mutation.KeepsColumns (m : Mutation) : Prop := ∀ c, upsertOnly (.claim (m.rewrite c)) = upsertOnly (.claim c)

end Columns

section Writers
variable {s : Store} {r : Row}

/-- With another payload, and its promoted columns, a row is projected exactly if the other columns stay the same. -/
theorem Row.Projected.replaced_iff (h : r.Projected) (node : MemoryNode) :
    ({ r with payload := node, promoted := Storage.promoted node } : Row).Projected ↔ upsertOnly node = upsertOnly r.payload := by
  obtain ⟨payload, embedding, rfl⟩ : ∃ payload embedding, r = Row.of payload embedding := ⟨_, _, h⟩
  rw [eq_comm (a := upsertOnly node)]
  simp [Row.Projected, Row.of, upsertOnly]

theorem Row.Projected.mutateClaim {m : Mutation} (hm : m.KeepsColumns) (h : r.Projected) : (r.mutateClaim m.rewrite).Projected := by
  cases hpayload : r.payload with
  | entity e => rwa [Row.mutateClaim, hpayload]
  | event e => rwa [Row.mutateClaim, hpayload]
  | claim c =>
    rw [Row.mutateClaim, hpayload]
    exact (h.replaced_iff _).mpr (by rw [hpayload, hm c])

theorem keepsColumns_ofStatus (status : String) : (Mutation.ofStatus status).KeepsColumns := by
  refine Mutation.rewrite_of_ok (f := fun c => upsertOnly (.claim c)) ?_
  intro c c' h
  obtain ⟨state, rfl⟩ := Mutation.eq_of_ofStatus h
  rfl

theorem keepsColumns_ofFulfillment (claimId : String) (state : FulfillmentStatus) (settledAtMs : Option Int) :
    (Mutation.ofFulfillment claimId state settledAtMs).KeepsColumns := by
  refine Mutation.rewrite_of_ok (f := fun c => upsertOnly (.claim c)) ?_
  intro c c' h
  obtain ⟨commitment, rfl⟩ := Mutation.eq_of_ofFulfillment h
  rfl

namespace ProjectedColumns

theorem empty : ProjectedColumns PropertyGraph.empty := fun _ h => absurd h List.not_mem_nil

theorem upsert (h : ProjectedColumns s) (node : MemoryNode) (embedded : String) : ProjectedColumns (s.upsert node embedded) := by
  intro r hr
  rcases (PropertyGraph.mem_nodes_merge s _ r).mp hr with rfl | ⟨hr, -⟩
  · rfl
  · exact h r hr

theorem mutateClaim (h : ProjectedColumns s) (claimId : String) {m : Mutation} (hm : m.KeepsColumns) :
    ProjectedColumns (s.mutateClaim claimId m).2 := by
  rcases s.mutateClaim_cases claimId m with hs | hs
  · rw [hs]
    exact h
  · rw [hs]
    intro r hr
    obtain ⟨v, hv, rfl⟩ := (PropertyGraph.mem_nodes_modify ..).mp hr
    split
    · exact (h v hv).mutateClaim hm
    · exact h v hv

theorem setFulfillment (h : ProjectedColumns s) (claimId fulfillment : String) (settledAtMs : Option Int) :
    ProjectedColumns (s.setFulfillment claimId fulfillment settledAtMs).2 := by
  unfold Store.setFulfillment
  split
  · exact h
  · exact h.mutateClaim claimId (keepsColumns_ofFulfillment claimId _ settledAtMs)

theorem replacePayload_iff (h : ProjectedColumns s) (node : MemoryNode) :
    ProjectedColumns (s.replacePayload node) ↔ (StoreCall.replacePayload node).KeepsColumns s := by
  constructor
  · intro hafter r hr hkey
    have hprojected := hafter _ (Store.mem_replacePayload.mpr ⟨r, hr, rfl⟩)
    rw [if_pos hkey] at hprojected
    exact ((h r hr).replaced_iff node).mp hprojected
  · intro hkeeps r hr
    obtain ⟨v, hv, rfl⟩ := Store.mem_replacePayload.mp hr
    split
    · rename_i hkey
      exact ((h v hv).replaced_iff node).mpr (hkeeps v hv hkey)
    · exact h v hv

/-- One call keeps the columns in step exactly if the payload it puts in has the same ones. -/
theorem exec_iff (h : ProjectedColumns s) (isIdentifier : String → Bool) (call : StoreCall) :
    ProjectedColumns (call.exec isIdentifier s) ↔ call.KeepsColumns s := by
  cases call with
  | upsert node embedded => exact iff_of_true (h.upsert node embedded) trivial
  | link source rel target =>
    refine iff_of_true ?_ trivial
    dsimp only [StoreCall.exec]
    split
    · exact h
    · exact h
  | setClaimStatus claimId status => exact iff_of_true (h.mutateClaim claimId (keepsColumns_ofStatus status)) trivial
  | setFulfillment claimId fulfillment settledAtMs => exact iff_of_true (h.setFulfillment claimId fulfillment settledAtMs) trivial
  | replacePayload node => exact h.replacePayload_iff node

end ProjectedColumns
end Writers

/-- After every number of calls the columns are those of the payloads, exactly if each payload that replaces another one
has the same text, time, owner and guard. -/
theorem columns_projected_iff (isIdentifier : String → Bool) (calls : List StoreCall)
    (hfits : Every (StoreCall.exec isIdentifier) (fun call s => call.Fits s) calls PropertyGraph.empty) :
    (∀ n, ProjectedColumns (after (StoreCall.exec isIdentifier) PropertyGraph.empty (calls.take n))) ↔
      Every (StoreCall.exec isIdentifier) StoreCall.KeepsColumns calls PropertyGraph.empty :=
  Every.prefixes_iff (fun call _ _ h => h.exec_iff isIdentifier call) hfits .empty

/-- The promise, reworded. -/
def rewordedPromise : Claim := { promise with statement := "Bob owes Alice nothing." }

/-- It is stored, settled, and then replaced by itself as of before. -/
def keptCalls : List StoreCall := [
  .upsert (.claim promise) promise.statement,
  .setFulfillment "clm_1" "fulfilled" (some 7),
  .replacePayload (.claim promise)]

theorem columns_projected_iff_keptCalls :
    Every (StoreCall.exec fun _ => true) (fun call s => call.Fits s) keptCalls PropertyGraph.empty ∧
      ∀ n, ProjectedColumns (after (StoreCall.exec fun _ => true) PropertyGraph.empty (keptCalls.take n)) := by
  have hfits : Every (StoreCall.exec fun _ => true) (fun call s => call.Fits s) keptCalls PropertyGraph.empty :=
    ⟨trivial, trivial, by change StoreCall.Fits _ _; decide +kernel, trivial⟩
  exact ⟨hfits, (columns_projected_iff (fun _ => true) keptCalls hfits).mpr ⟨trivial, trivial, by decide +kernel, trivial⟩⟩

/-- After its payload is replaced by the reworded claim, the stored node still has the text of the first wording. -/
theorem reworded_text_stays : ¬ ∀ (isIdentifier : String → Bool) (calls : List StoreCall),
    Every (StoreCall.exec isIdentifier) (fun call s => call.Fits s) calls PropertyGraph.empty →
      ProjectedColumns (after (StoreCall.exec isIdentifier) PropertyGraph.empty calls) := by
  intro h
  have hprojected := h (fun _ => true) [.upsert (.claim promise) promise.statement, .replacePayload (.claim rewordedPromise)]
    ⟨trivial, by change StoreCall.Fits _ _; decide +kernel, trivial⟩
  exact absurd hprojected (by decide +kernel)

end Memorai.Storage
