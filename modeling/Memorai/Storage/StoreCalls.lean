import Memorai.Storage.NeighbourReads

/-! The writing calls of the store, as a caller makes them: with texts for enums, and with the exceptions they raise. -/
namespace Memorai.Storage
open Schema Memorai.Graph

inductive StoreError where
  | illegalRelation (rel : String)
  | invalidStatus (status : String)
  | invalidFulfillment (fulfillment : String)
  | noCommitment (claimId : String)
  deriving DecidableEq, Repr

/-- `repr` is Python's. -/
def StoreError.message (repr : String → String) : StoreError → String
  | illegalRelation rel => "illegal relationship type " ++ repr rel
  | invalidStatus status => repr status ++ " is not a valid ClaimStatus"
  | invalidFulfillment fulfillment => repr fulfillment ++ " is not a valid FulfillmentStatus"
  | noCommitment claimId => "claim " ++ repr claimId ++ " has no commitment facet"

/-- A change of a claim, which may raise, and never touches its id. -/
structure Mutation where
  mutate : Claim → Except StoreError Claim
  id_mutate : ∀ {c c'}, mutate c = .ok c' → c'.id = c.id

namespace Mutation

/-- The claim after a change that went through, else as it was. -/
def rewrite (m : Mutation) (c : Claim) : Claim :=
  match m.mutate c with
  | .ok c' => c'
  | .error _ => c

/-- A change that goes through keeps what is kept also where it raises. -/
theorem rewrite_of_ok {β : Type} {m : Mutation} {f : Claim → β} (h : ∀ c c', m.mutate c = .ok c' → f c' = f c) (c : Claim) :
    f (m.rewrite c) = f c := by
  unfold rewrite
  split
  · rename_i c' hok
    exact h c c' hok
  · rfl

theorem id_rewrite (m : Mutation) (c : Claim) : (m.rewrite c).id = c.id := rewrite_of_ok (fun _ _ h => m.id_mutate h) c

def ofStatus (status : String) : Mutation where
  mutate c :=
    match ClaimStatus.ofValue status with
    | some state => .ok { c with status := state }
    | none => .error (.invalidStatus status)
  id_mutate := by
    intro c c' h
    split at h
    · rw [← Except.ok.inj h]
    · exact absurd h (by simp)

/-- A settlement time is kept only with a settled commitment. -/
def ofFulfillment (claimId : String) (state : FulfillmentStatus) (settledAtMs : Option Int) : Mutation where
  mutate c :=
    match c.commitment with
    | none => .error (.noCommitment claimId)
    | some commitment => .ok { c with commitment := some { commitment with
        fulfillment := state
        settledAtMs := if state = .open then none else settledAtMs } }
  id_mutate := by
    intro c c' h
    split at h
    · exact absurd h (by simp)
    · rw [← Except.ok.inj h]

theorem eq_of_ofStatus {status : String} {c c' : Claim} (h : (ofStatus status).mutate c = .ok c') :
    ∃ state, c' = { c with status := state } := by
  dsimp only [ofStatus] at h
  split at h
  · exact ⟨_, (Except.ok.inj h).symm⟩
  · exact absurd h (by simp)

theorem eq_of_ofFulfillment {claimId : String} {state : FulfillmentStatus} {settledAtMs : Option Int} {c c' : Claim}
    (h : (ofFulfillment claimId state settledAtMs).mutate c = .ok c') : ∃ commitment, c' = { c with commitment := some commitment } := by
  dsimp only [ofFulfillment] at h
  split at h
  · exact absurd h (by simp)
  · exact ⟨_, (Except.ok.inj h).symm⟩

end Mutation

namespace Store

/-- Read, mutate, write back. A claim that is not stored is left alone. -/
def mutateClaim (s : Store) (claimId : String) (m : Mutation) : Except StoreError (Option Claim) × Store :=
  match s.claim? claimId with
  | none => (.ok none, s)
  | some claim =>
    match m.mutate claim with
    | .error e => (.error e, s)
    | .ok claim' =>
      (.ok (some claim'), s.modify ⟨.claim, claimId⟩ (Row.mutateClaim m.rewrite) (Row.key_mutateClaim _ m.id_rewrite))

def setFulfillment (s : Store) (claimId fulfillment : String) (settledAtMs : Option Int) :
    Except StoreError (Option Claim) × Store :=
  match FulfillmentStatus.ofValue fulfillment with
  | none => (.error (.invalidFulfillment fulfillment), s)
  | some state => s.mutateClaim claimId (.ofFulfillment claimId state settledAtMs)

/-- The payload and the promoted columns, and no others. -/
def replacePayload (s : Store) (node : MemoryNode) : Store :=
  s.modify ⟨labelOf node, node.id⟩
    (fun r => if r.key = ⟨labelOf node, node.id⟩ then { r with payload := node, promoted := Storage.promoted node } else r)
    (by
      intro r
      split
      · rename_i h
        rw [h]
        rfl
      · rfl)

end Store

/-- A writing call. A relation is legal if its type is an identifier. -/
inductive StoreCall where
  | upsert (node : MemoryNode) (embedded : String)
  | link (source : String) (rel : Rel) (target : String)
  | setClaimStatus (claimId status : String)
  | setFulfillment (claimId fulfillment : String) (settledAtMs : Option Int)
  | replacePayload (node : MemoryNode)

namespace StoreCall

/-- What the store is after the call, whether it raised or not. `isIdentifier` is `str.isidentifier`. -/
def exec (isIdentifier : String → Bool) (s : Store) : StoreCall → Store
  | upsert node embedded => s.upsert node embedded
  | link source rel target => if isIdentifier rel.type then s.link source rel target else s
  | setClaimStatus claimId status => (s.mutateClaim claimId (.ofStatus status)).2
  | setFulfillment claimId fulfillment settledAtMs => (s.setFulfillment claimId fulfillment settledAtMs).2
  | replacePayload node => s.replacePayload node

/-- Payloads are replaced by objects of the same type only. -/
def Fits (s : Store) : StoreCall → Prop
  | replacePayload node => ∀ k ∈ s.keys, k.id = node.id → k.label = labelOf node
  | _ => True

end StoreCall

/-- The store after some calls, starting empty. -/
inductive Called (isIdentifier : String → Bool) : Store → Prop
  | empty : Called isIdentifier PropertyGraph.empty
  | call {s : Store} (call : StoreCall) : Called isIdentifier s → call.Fits s → Called isIdentifier (call.exec isIdentifier s)

section Laws
variable {s : Store}

/-- A call either leaves the store alone or mutates the claim in place. -/
theorem Store.mutateClaim_cases (s : Store) (claimId : String) (m : Mutation) : (s.mutateClaim claimId m).2 = s ∨
    (s.mutateClaim claimId m).2 = s.modify ⟨.claim, claimId⟩ (Row.mutateClaim m.rewrite) (Row.key_mutateClaim _ m.id_rewrite) := by
  unfold Store.mutateClaim
  split
  · exact Or.inl rfl
  · split
    · exact Or.inl rfl
    · exact Or.inr rfl

theorem Store.setFulfillment_cases (s : Store) (claimId fulfillment : String) (settledAtMs : Option Int) :
    (s.setFulfillment claimId fulfillment settledAtMs).2 = s ∨
      ∃ m : Mutation, (s.setFulfillment claimId fulfillment settledAtMs).2 = (s.mutateClaim claimId m).2 := by
  unfold Store.setFulfillment
  split
  · exact Or.inl rfl
  · exact Or.inr ⟨_, rfl⟩

theorem Store.mem_replacePayload {node : MemoryNode} {r : Row} : r ∈ (s.replacePayload node).nodes ↔
    ∃ v ∈ s.nodes, r = if v.key = ⟨labelOf node, node.id⟩ then { v with payload := node, promoted := promoted node } else v := by
  rw [Store.replacePayload, PropertyGraph.mem_nodes_modify]
  apply exists_congr
  intro v
  by_cases hk : v.key = ⟨labelOf node, node.id⟩
  · rw [if_pos hk, if_pos hk]
  · rw [if_neg hk, if_neg hk]

@[simp] theorem Store.keys_mutateClaim (s : Store) (claimId : String) (m : Mutation) : (s.mutateClaim claimId m).2.keys = s.keys := by
  rcases s.mutateClaim_cases claimId m with h | h
  · rw [h]
  · rw [h, PropertyGraph.keys_modify]

@[simp] theorem Store.keys_setFulfillment (s : Store) (claimId fulfillment : String) (settledAtMs : Option Int) :
    (s.setFulfillment claimId fulfillment settledAtMs).2.keys = s.keys := by
  rcases s.setFulfillment_cases claimId fulfillment settledAtMs with h | ⟨m, h⟩
  · rw [h]
  · rw [h, Store.keys_mutateClaim]

/-- A call that raises changes nothing. -/
theorem Store.mutateClaim_error {claimId : String} {m : Mutation} {e : StoreError} (h : (s.mutateClaim claimId m).1 = .error e) :
    (s.mutateClaim claimId m).2 = s := by
  unfold Store.mutateClaim at h ⊢
  split
  · rfl
  · rename_i claim hclaim
    rw [hclaim] at h
    dsimp only at h
    split
    · rfl
    · rename_i hok
      rw [hok] at h
      exact absurd h (by simp)

end Laws
end Memorai.Storage
