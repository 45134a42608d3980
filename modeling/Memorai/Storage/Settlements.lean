import Memorai.Collections.Runs
import Memorai.Storage.Commitments
import Memorai.Storage.StoreLaws

/-! When a commitment was settled: what the store keeps of it, beside the move off `open` itself. -/
namespace Memorai.Storage
open Schema Memorai.Graph Runs

/-- A call that changes a stored claim. -/
inductive ClaimCall where
  | setClaimStatus (claimId status : String)
  | setFulfillment (claimId fulfillment : String) (settledAtMs : Option Int)
  deriving DecidableEq, Repr

def ClaimCall.exec (s : Store) : ClaimCall → Store
  | setClaimStatus claimId status => (s.mutateClaim claimId (.ofStatus status)).2
  | setFulfillment claimId fulfillment settledAtMs => (s.setFulfillment claimId fulfillment settledAtMs).2

/-- The time that is passed, if any. -/
def ClaimCall.time : ClaimCall → Option Int
  | setClaimStatus .. => none
  | setFulfillment _ _ settledAtMs => settledAtMs

def Store.commitment? (s : Store) (claimId : String) : Option Commitment := (s.claim? claimId).bind Claim.commitment

def Store.fulfillment? (s : Store) (claimId : String) : Option FulfillmentStatus :=
  (s.commitment? claimId).map Commitment.fulfillment

/-- The store, and what was passed to the last call that moved the commitment off `open`. -/
structure Track where
  store : Store
  movedAt : Option (Option Int) := none

/-- A call, watched from outside. -/
def Track.next (claimId : String) (t : Track) (call : ClaimCall) : Track where
  store := call.exec t.store
  movedAt :=
    if t.store.fulfillment? claimId = some .open ∧ (call.exec t.store).fulfillment? claimId ≠ some .open then some call.time
    else t.movedAt

/-- No time is kept of an open commitment, and of another one the time that was passed when it moved off `open`. -/
def Track.Settles (claimId : String) (t : Track) : Prop :=
  ∃ commitment, t.store.commitment? claimId = some commitment ∧
    (commitment.settledAtMs = none ↔ commitment.fulfillment = .open) ∧
    (commitment.fulfillment ≠ .open → t.movedAt = some commitment.settledAtMs)

/-- What a call moves the commitment of a claim to, if it moves it. -/
def ClaimCall.state? (claimId : String) : ClaimCall → Option FulfillmentStatus
  | setClaimStatus .. => none
  | setFulfillment called fulfillment _ => if claimId = called then FulfillmentStatus.ofValue fulfillment else none

/-- A call that settles an open commitment passes a time, and one that settles it again passes the time that is kept. -/
def ClaimCall.GivesTime (claimId : String) (call : ClaimCall) (s : Store) : Prop :=
  ∀ state ∈ call.state? claimId, state ≠ .open → ∀ commitment ∈ s.commitment? claimId,
    if commitment.fulfillment = .open then call.time ≠ none else call.time = commitment.settledAtMs

instance (claimId : String) (call : ClaimCall) (s : Store) : Decidable (call.GivesTime claimId s) := by
  unfold ClaimCall.GivesTime
  infer_instance

section Calls
variable {s : Store}

/-- A claim is rewritten in place, or left as it is where the change raises. -/
theorem Store.claim?_mutateClaim (s : Store) (called : String) (m : Mutation) (claimId : String) :
    (s.mutateClaim called m).2.claim? claimId =
      if claimId = called then (s.claim? claimId).map m.rewrite else s.claim? claimId := by
  by_cases hid : claimId = called
  · subst hid
    rw [if_pos rfl, Store.mutateClaim]
    cases hclaim : s.claim? claimId with
    | none => exact hclaim
    | some claim =>
      dsimp only
      cases hmutate : m.mutate claim with
      | error e =>
        dsimp only
        rw [hclaim, Option.map_some, Mutation.rewrite, hmutate]
      | ok claim' =>
        dsimp only
        rw [← hclaim, Store.claim?, Store.claim?, PropertyGraph.find?_modify, if_pos rfl]
        cases s.find? ⟨.claim, claimId⟩ with
        | none => rfl
        | some row => exact Row.claim?_mutateClaim m.rewrite row
  · rw [if_neg hid]
    rcases s.mutateClaim_cases called m with hs | hs
    · rw [hs]
    · have hkey : (⟨.claim, claimId⟩ : NodeKey) ≠ ⟨.claim, called⟩ := fun h => hid (NodeKey.mk.inj h).2
      rw [hs, Store.claim?, PropertyGraph.find?_modify, if_neg hkey]
      rfl

/-- What a call makes of the commitment of a claim. -/
def ClaimCall.settle (claimId : String) (call : ClaimCall) (commitment : Commitment) : Commitment :=
  match call.state? claimId with
  | none => commitment
  | some state => { commitment with fulfillment := state, settledAtMs := if state = .open then none else call.time }

theorem commitment_ofStatus (status : String) (c : Claim) : ((Mutation.ofStatus status).rewrite c).commitment = c.commitment := by
  apply Mutation.rewrite_of_ok
  intro c c' h
  obtain ⟨state, rfl⟩ := Mutation.eq_of_ofStatus h
  rfl

theorem commitment_ofFulfillment (claimId : String) (state : FulfillmentStatus) (settledAtMs : Option Int) (c : Claim) :
    ((Mutation.ofFulfillment claimId state settledAtMs).rewrite c).commitment = c.commitment.map (fun commitment =>
      { commitment with fulfillment := state, settledAtMs := if state = .open then none else settledAtMs }) := by
  unfold Mutation.rewrite
  split
  · rename_i c' hok
    dsimp only [Mutation.ofFulfillment] at hok
    split at hok
    · exact absurd hok (by simp)
    · rename_i commitment hcommitment
      rw [← Except.ok.inj hok, hcommitment]
      rfl
  · rename_i e herror
    dsimp only [Mutation.ofFulfillment] at herror
    split at herror
    · rename_i hcommitment
      rw [hcommitment]
      rfl
    · exact absurd herror (by simp)

theorem ClaimCall.commitment?_exec (call : ClaimCall) (s : Store) (claimId : String) :
    (call.exec s).commitment? claimId = (s.commitment? claimId).map (call.settle claimId) := by
  have hmutate : ∀ (called : String) (m : Mutation) (f : Commitment → Commitment), (∀ c, (m.rewrite c).commitment = c.commitment.map f) →
      (s.mutateClaim called m).2.commitment? claimId = if claimId = called then (s.commitment? claimId).map f else s.commitment? claimId := by
    intro called m f hf
    rw [Store.commitment?, Store.claim?_mutateClaim, Store.commitment?]
    split_ifs with hid
    · cases s.claim? claimId with
      | none => rfl
      | some c => exact hf c
    · rfl
  have hkept : (s.commitment? claimId).map (fun commitment => commitment) = s.commitment? claimId := Option.map_id'
  cases call with
  | setClaimStatus called status =>
    rw [exec, hmutate called (.ofStatus status) id (fun c => by rw [commitment_ofStatus, Option.map_id, id]), Option.map_id, id,
      ite_self]
    exact hkept.symm
  | setFulfillment called fulfillment settledAtMs =>
    rw [exec, Store.setFulfillment]
    cases hstate : FulfillmentStatus.ofValue fulfillment with
    | none =>
      have hsettle : settle claimId (setFulfillment called fulfillment settledAtMs) = fun commitment => commitment := by
        funext commitment
        rw [settle, state?, hstate, ite_self]
      rw [hsettle, hkept]
    | some state =>
      dsimp only
      rw [hmutate called _ _ (commitment_ofFulfillment called state settledAtMs)]
      by_cases hid : claimId = called
      · rw [if_pos hid]
        congr 1
        funext commitment
        rw [settle, state?, if_pos hid, hstate]
        rfl
      · have hsettle : settle claimId (setFulfillment called fulfillment settledAtMs) = fun commitment => commitment := by
          funext commitment
          rw [settle, state?, if_neg hid]
        rw [if_neg hid, hsettle, hkept]

end Calls

section Moves
variable {claimId : String} {t : Track} {commitment : Commitment}

theorem Track.settles_iff (h : t.store.commitment? claimId = some commitment) : t.Settles claimId ↔
    (commitment.settledAtMs = none ↔ commitment.fulfillment = .open) ∧
      (commitment.fulfillment ≠ .open → t.movedAt = some commitment.settledAtMs) := by
  constructor
  · rintro ⟨commitment', hcommitment, hrest⟩
    obtain rfl := Option.some.inj (h.symm.trans hcommitment)
    exact hrest
  · exact fun hrest => ⟨commitment, h, hrest⟩

theorem Track.movedAt_next (h : t.store.commitment? claimId = some commitment) (call : ClaimCall) : (t.next claimId call).movedAt =
    if commitment.fulfillment = .open ∧ (call.settle claimId commitment).fulfillment ≠ .open then some call.time else t.movedAt := by
  simp [Track.next, Store.fulfillment?, call.commitment?_exec, h]

/-- One call keeps the time in step exactly if it gives the time that is to be kept. -/
theorem Track.Settles.next_iff (h : t.Settles claimId) (call : ClaimCall) :
    (t.next claimId call).Settles claimId ↔ call.GivesTime claimId t.store := by
  obtain ⟨commitment, hcommitment, hnone, hmoved⟩ := h
  have hnext : (t.next claimId call).store.commitment? claimId = some (call.settle claimId commitment) := by
    rw [Track.next, call.commitment?_exec, hcommitment, Option.map_some]
  rw [Track.settles_iff hnext, Track.movedAt_next hcommitment]
  cases hstate : call.state? claimId with
  | none =>
    have hsame : call.settle claimId commitment = commitment := by rw [ClaimCall.settle, hstate]
    rw [hsame, if_neg (fun hboth => hboth.2 hboth.1)]
    refine iff_of_true ⟨hnone, hmoved⟩ ?_
    intro state hsome
    rw [hstate] at hsome
    exact absurd hsome (by simp)
  | some state =>
    have hgives : call.GivesTime claimId t.store ↔ (state ≠ .open →
        if commitment.fulfillment = .open then call.time ≠ none else call.time = commitment.settledAtMs) := by
      constructor
      · intro hgives hne
        exact hgives state hstate hne commitment hcommitment
      · intro hgives state' hstate' hne commitment' hcommitment'
        obtain rfl := Option.some.inj (hstate.symm.trans hstate')
        obtain rfl := Option.some.inj (hcommitment.symm.trans hcommitment')
        exact hgives hne
    have hsettle : (call.settle claimId commitment).fulfillment = state ∧
        (call.settle claimId commitment).settledAtMs = if state = .open then none else call.time := by
      rw [ClaimCall.settle, hstate]
      exact ⟨rfl, rfl⟩
    rw [hsettle.1, hsettle.2, hgives]
    by_cases hopen : state = .open
    · rw [if_pos hopen]
      exact iff_of_true ⟨iff_of_true rfl hopen, fun hne => absurd hopen hne⟩ (fun hne => absurd hopen hne)
    · rw [if_neg hopen, iff_false_right hopen, imp_iff_right hopen, imp_iff_right hopen]
      by_cases hwas : commitment.fulfillment = .open
      · rw [if_pos ⟨hwas, hopen⟩, if_pos hwas]
        exact and_iff_left rfl
      · rw [if_neg (fun hboth => hwas hboth.1), if_neg hwas, hmoved hwas, Option.some_inj]
        constructor
        · rintro ⟨-, htime⟩
          exact htime.symm
        · intro htime
          rw [htime]
          exact ⟨fun hnever => hwas (hnone.mp hnever), rfl⟩

end Moves

/-- After every call there is a time with the commitment exactly if it is settled, and it is the one that was passed when
it moved off `open` last, exactly if every call gives the time that is to be kept. -/
theorem settled_when_moved_iff (claimId : String) (s : Store) (commitment : Commitment)
    (hstored : s.commitment? claimId = some commitment) (hopen : commitment.fulfillment = .open)
    (hnone : commitment.settledAtMs = none) (calls : List ClaimCall) :
    (∀ n, (after (Track.next claimId) ⟨s, none⟩ (calls.take n)).Settles claimId) ↔
      Every (Track.next claimId) (fun call t => call.GivesTime claimId t.store) calls ⟨s, none⟩ := by
  have hstart : (⟨s, none⟩ : Track).Settles claimId := ⟨commitment, hstored, iff_of_true hnone hopen, fun hne => absurd hopen hne⟩
  exact Every.prefixes_iff (J := fun _ _ => True) (fun call _ _ h => h.next_iff call)
    (every_of_forall (fun _ _ => trivial) calls _) hstart

/-- Only the promise is stored. -/
def openPromise : Store := Store.upsert PropertyGraph.empty (.claim promise) promise.statement

/-- It is fulfilled, superseded, reopened, and fulfilled again later. -/
def reopenedCalls : List ClaimCall := [
  .setFulfillment "clm_1" "fulfilled" (some 5),
  .setClaimStatus "clm_1" "superseded",
  .setFulfillment "clm_1" "open" none,
  .setFulfillment "clm_1" "fulfilled" (some 9)]

theorem settled_when_moved_iff_reopenedCalls :
    openPromise.commitment? "clm_1" = some { owedByEntityId := "ent_1", dueAtMs := some 5 } ∧
      ∀ n, (after (Track.next "clm_1") ⟨openPromise, none⟩ (reopenedCalls.take n)).Settles "clm_1" := by
  have hstored : openPromise.commitment? "clm_1" = some { owedByEntityId := "ent_1", dueAtMs := some 5 } := by decide +kernel
  refine ⟨hstored, (settled_when_moved_iff "clm_1" openPromise _ hstored rfl rfl reopenedCalls).mpr ?_⟩
  exact ⟨by decide +kernel, by decide +kernel, by decide +kernel, by decide +kernel, trivial⟩

/-- A promise that was fulfilled at 5 and dropped at 9 has the time 9, although it was open until 5. -/
theorem dropped_later_keeps_later_time : ¬ ∀ (claimId : String) (s : Store) (commitment : Commitment),
    s.commitment? claimId = some commitment → commitment.fulfillment = .open → commitment.settledAtMs = none →
      ∀ calls : List ClaimCall, (after (Track.next claimId) ⟨s, none⟩ calls).Settles claimId := by
  intro h
  have hstored : openPromise.commitment? "clm_1" = some { owedByEntityId := "ent_1", dueAtMs := some 5 } := by decide +kernel
  have hsettles := h "clm_1" openPromise _ hstored rfl rfl
    [.setFulfillment "clm_1" "fulfilled" (some 5), .setFulfillment "clm_1" "dropped" (some 9)]
  have hdropped : (after (Track.next "clm_1") ⟨openPromise, none⟩ [.setFulfillment "clm_1" "fulfilled" (some 5),
      .setFulfillment "clm_1" "dropped" (some 9)]).store.commitment? "clm_1" =
        some { owedByEntityId := "ent_1", dueAtMs := some 5, fulfillment := .dropped, settledAtMs := some 9 } := by decide +kernel
  exact absurd (((Track.settles_iff hdropped).mp hsettles).2 (by decide)) (by decide +kernel)

end Memorai.Storage
