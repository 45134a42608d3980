import Mathlib.Data.String.Basic
import Memorai.Order.KeySort
import Memorai.Order.Nulls
import Memorai.Storage.StoreCalls

/-! Which commitments are open: a query over the promoted columns, in place of a scan of the payloads. -/
namespace Memorai.Storage
open Schema Memorai.Graph Memorai.Order

/-- The commitment facet of a stored claim. -/
def Row.commitment? (r : Row) : Option Commitment := r.claim?.bind Claim.commitment

/-- What is asked for besides the owner. -/
structure OpenQuery where
  dueBeforeMs : Option Int := none
  owedByEntityId : Option String := none
  includeSuperseded : Bool := false

namespace OpenQuery

/-- The `WHERE` clause, read off the columns. -/
def condition (q : OpenQuery) (columns : Promoted) : Option Bool :=
  Nulls.and (Nulls.and (Nulls.and
    (Nulls.eq columns.commitmentFulfillment (some .open))
    (Nulls.or (some q.includeSuperseded) (Nulls.eq columns.claimStatus (some .active))))
    (Nulls.or (Nulls.isNull q.dueBeforeMs) (Nulls.lt columns.commitmentDueAtMs q.dueBeforeMs)))
    (Nulls.or (Nulls.isNull q.owedByEntityId) (Nulls.eq columns.commitmentOwedBy q.owedByEntityId))

/-- The same, read off the payload: a claim with an open commitment, that is active unless superseded ones are wanted as
well, due before the bound if there is one, and owed by the party if one is named. -/
def Outstanding (q : OpenQuery) (node : MemoryNode) : Prop :=
  ∃ claim commitment, node = .claim claim ∧ claim.commitment = some commitment ∧ commitment.fulfillment = .open ∧
    (q.includeSuperseded = true ∨ claim.status = .active) ∧
    (∀ bound, q.dueBeforeMs = some bound → ∃ due, commitment.dueAtMs = some due ∧ due < bound) ∧
    ∀ party, q.owedByEntityId = some party → commitment.owedByEntityId = party

end OpenQuery

/-- `ORDER BY c.commitment_due_at_ms, c.id` -/
def dueBefore (a b : Row) : Prop :=
  Nulls.before (a.promoted.commitmentDueAtMs, a.key.id) (b.promoted.commitmentDueAtMs, b.key.id)

instance : DecidableRel dueBefore := fun a b => by unfold dueBefore; infer_instance

/-- `MATCH (c:Claim {owner_id}) WHERE ..` -/
def Store.matchOpen (s : Store) (ownerId : String) (q : OpenQuery) : List Row :=
  s.nodes.filter (fun r => r.key.label = .claim ∧ r.ownerId = ownerId ∧ q.condition r.promoted = some true)

def Store.openCommitments (rows : RowOrder Row) (s : Store) (ownerId : String) (q : OpenQuery) : List Row :=
  (rows.order (s.matchOpen ownerId q)).insertionSort dueBefore

/-- The columns repeat what the payload says. -/
def PromotedColumns (s : Store) : Prop := ∀ r ∈ s.nodes, r.promoted = promoted r.payload

section Columns
variable {s : Store}

theorem promoted_mutateClaim {mutate : Claim → Claim} {r : Row} (h : r.promoted = promoted r.payload) :
    (r.mutateClaim mutate).promoted = promoted (r.mutateClaim mutate).payload := by
  obtain ⟨payload, _, _, _, _, _, _, _, _⟩ := r
  cases payload with
  | entity e => exact h
  | event e => exact h
  | claim c => rfl

theorem PromotedColumns.empty : PromotedColumns PropertyGraph.empty := fun _ h => absurd h List.not_mem_nil

/-- The statements of ingestion keep the columns in step with the payloads, too. -/
theorem PromotedColumns.execAll (h : PromotedColumns s) (ops : List StoreOp) : PromotedColumns (execAll ops s) := by
  induction ops generalizing s with
  | nil => exact h
  | cons op ops ih =>
    apply ih
    cases op with
    | upsert node embedded =>
      intro r hr
      rcases (PropertyGraph.mem_nodes_merge s _ r).mp hr with rfl | ⟨hr, _⟩
      · rfl
      · exact h r hr
    | link source rel target => exact h
    | setClaimStatus claimId status =>
      intro r hr
      rw [StoreOp.exec, Store.setClaimStatus, PropertyGraph.mem_nodes_modify] at hr
      obtain ⟨v, hv, rfl⟩ := hr
      split
      · exact promoted_mutateClaim (h v hv)
      · exact h v hv

theorem PromotedColumns.mutateClaim (h : PromotedColumns s) (claimId : String) (m : Mutation) :
    PromotedColumns (s.mutateClaim claimId m).2 := by
  rcases s.mutateClaim_cases claimId m with hs | hs
  · rw [hs]
    exact h
  · rw [hs]
    intro r hr
    obtain ⟨v, hv, rfl⟩ := (PropertyGraph.mem_nodes_modify ..).mp hr
    split
    · exact promoted_mutateClaim (h v hv)
    · exact h v hv

theorem PromotedColumns.exec (h : PromotedColumns s) (isIdentifier : String → Bool) (call : StoreCall) :
    PromotedColumns (call.exec isIdentifier s) := by
  cases call with
  | upsert node embedded =>
    intro r hr
    rcases (PropertyGraph.mem_nodes_merge s _ r).mp hr with rfl | ⟨hr, _⟩
    · rfl
    · exact h r hr
  | link source rel target =>
    dsimp only [StoreCall.exec]
    split
    · exact h
    · exact h
  | setClaimStatus claimId status => exact h.mutateClaim claimId _
  | setFulfillment claimId fulfillment settledAtMs =>
    rcases s.setFulfillment_cases claimId fulfillment settledAtMs with hs | ⟨m, hs⟩
    · rw [StoreCall.exec, hs]
      exact h
    · rw [StoreCall.exec, hs]
      exact h.mutateClaim claimId m
  | replacePayload node =>
    intro r hr
    obtain ⟨v, hv, rfl⟩ := Store.mem_replacePayload.mp hr
    split
    · rfl
    · exact h v hv

theorem Called.promotedColumns {isIdentifier : String → Bool} (h : Called isIdentifier s) : PromotedColumns s := by
  induction h with
  | empty => exact .empty
  | call call _ _ ih => exact ih.exec isIdentifier call

end Columns

namespace OpenQuery
variable (q : OpenQuery)

/-- On promoted columns the condition says of a claim what the payload says. -/
theorem condition_promoted_iff (node : MemoryNode) : q.condition (promoted node) = some true ↔ q.Outstanding node := by
  simp only [condition, Outstanding, Nulls.and_eq_true, Nulls.or_eq_true, Nulls.isNull_eq_true, Nulls.eq_eq_true,
    Nulls.lt_eq_true]
  cases node with
  | entity e => simp [promoted]
  | event e => simp [promoted]
  | claim c =>
    cases hc : c.commitment with
    | none => simp [promoted, hc]
    | some d =>
      have hfulfillment : (∃ x, (promoted (.claim c)).commitmentFulfillment = some x ∧ some .open = some x) ↔ d.fulfillment = .open := by
        simp [promoted, hc, eq_comm]
      have hstatus : (∃ x, (promoted (.claim c)).claimStatus = some x ∧ some .active = some x) ↔ c.status = .active := by
        simp [promoted, eq_comm]
      have hdue : (q.dueBeforeMs = none ∨ ∃ x, (promoted (.claim c)).commitmentDueAtMs = some x ∧ ∃ y, q.dueBeforeMs = some y ∧ x < y) ↔
          ∀ bound, q.dueBeforeMs = some bound → ∃ due, d.dueAtMs = some due ∧ due < bound := by
        cases q.dueBeforeMs <;> simp [promoted, hc]
      have howed : (q.owedByEntityId = none ∨ ∃ x, (promoted (.claim c)).commitmentOwedBy = some x ∧ q.owedByEntityId = some x) ↔
          ∀ party, q.owedByEntityId = some party → d.owedByEntityId = party := by
        cases q.owedByEntityId <;> simp [promoted, hc, eq_comm]
      rw [hfulfillment, hstatus, hdue, howed]
      simp [hc, and_assoc]

theorem claim_of_outstanding {q : OpenQuery} {node : MemoryNode} (h : q.Outstanding node) : labelOf node = .claim := by
  obtain ⟨claim, _, rfl, _⟩ := h
  rfl

end OpenQuery

/-- Where a claim stands in the result, by its payload. -/
def dueKey (r : Row) : Option Int × String := (r.commitment?.bind Commitment.dueAtMs, r.payload.id)

/-- What a scan of the payloads would return: the owner's rows that are wanted, each of them once, by deadline with
missing ones last, and then by id. -/
structure ScansTo (s : Store) (ownerId : String) (q : OpenQuery) (result : List Row) : Prop where
  mem : ∀ r, r ∈ result ↔ r ∈ s.nodes ∧ r.ownerId = ownerId ∧ q.Outstanding r.payload
  once : (result.map Row.key).Nodup
  sorted : result.Pairwise (fun a b => Nulls.before (dueKey a) (dueKey b))

section Read
variable {s : Store} (rows : RowOrder Row) (ownerId : String) (q : OpenQuery)

private theorem dueKey_eq {r : Row} (h : r.promoted = promoted r.payload) :
    dueKey r = (r.promoted.commitmentDueAtMs, r.key.id) := by
  obtain ⟨payload, _, _, _, _, _, _, _, columns⟩ := r
  obtain rfl : columns = promoted payload := h
  cases payload with
  | entity e => rfl
  | event e => rfl
  | claim c => rfl

theorem mem_openCommitments {r : Row} : r ∈ s.openCommitments rows ownerId q ↔
    r ∈ s.nodes ∧ r.key.label = .claim ∧ r.ownerId = ownerId ∧ q.condition r.promoted = some true := by
  rw [Store.openCommitments, List.mem_insertionSort, (rows.perm _).mem_iff, Store.matchOpen, List.mem_filter,
    decide_eq_true_eq]

/-- On columns that repeat the payloads the query is the scan. -/
theorem PromotedColumns.scansTo (h : PromotedColumns s) : ScansTo s ownerId q (s.openCommitments rows ownerId q) where
  mem := by
    intro r
    rw [mem_openCommitments]
    constructor
    · intro ⟨hr, _, howner, hcondition⟩
      rw [h r hr, q.condition_promoted_iff] at hcondition
      exact ⟨hr, howner, hcondition⟩
    · intro ⟨hr, howner, hout⟩
      refine ⟨hr, OpenQuery.claim_of_outstanding hout, howner, ?_⟩
      rw [h r hr, q.condition_promoted_iff]
      exact hout
  once := by
    have hperm : (s.openCommitments rows ownerId q).Perm (s.matchOpen ownerId q) :=
      (List.perm_insertionSort dueBefore _).trans (rows.perm _)
    exact (hperm.map Row.key).nodup_iff.mpr (s.unique.sublist (List.filter_sublist.map _))
  sorted := by
    have hsorted : (s.openCommitments rows ownerId q).Pairwise dueBefore :=
      pairwise_sort (fun r : Row => Nulls.sortKey (r.promoted.commitmentDueAtMs, r.key.id)) (fun a b => Nulls.before_iff _ _) _
    refine hsorted.imp_of_mem ?_
    intro a b ha hb hab
    rw [dueKey_eq (h a ((mem_openCommitments rows ownerId q).mp ha).1),
      dueKey_eq (h b ((mem_openCommitments rows ownerId q).mp hb).1)]
    exact hab

end Read

/-- After any calls, the read of the open commitments over the indexed columns is the scan that it replaces. -/
theorem open_commitments_scan (isIdentifier : String → Bool) {s : Store} (h : Called isIdentifier s) (rows : RowOrder Row)
    (ownerId : String) (q : OpenQuery) : ScansTo s ownerId q (s.openCommitments rows ownerId q) :=
  h.promotedColumns.scansTo rows ownerId q

/-- A claim that somebody owes something. -/
def promise : Claim where
  id := "clm_1"
  ownerId := "alice"
  statement := "Bob owes Alice a report."
  subjectEntityIds := ["ent_1"]
  commitment := some { owedByEntityId := "ent_1", dueAtMs := some 5 }
  assertedAtMs := 1
  provenance := { derivedBy := "mock-extractor@v1", createdAtMs := 1 }
  acl := { ownerId := "alice", occurredAtMs := 1 }

/-- It is stored, and then settled with a word that is none of the states. -/
def onePromise : Store :=
  StoreCall.exec (fun _ => true) (StoreCall.exec (fun _ => true) PropertyGraph.empty (.upsert (.claim promise) promise.statement))
    (.setFulfillment "clm_1" "done" none)

theorem open_commitments_scan_onePromise : Called (fun _ => true) onePromise ∧
    (onePromise.openCommitments .asStored "alice" {}).map (fun r => r.key.id) = ["clm_1"] ∧
    ScansTo onePromise "alice" {} (onePromise.openCommitments .asStored "alice" {}) := by
  have h : Called (fun _ => true) onePromise := .call _ (.call _ .empty trivial) trivial
  exact ⟨h, by decide +kernel, open_commitments_scan _ h .asStored "alice" {}⟩

end Memorai.Storage
