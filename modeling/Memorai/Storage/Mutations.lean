import Memorai.Concurrency.Interleaving
import Memorai.Storage.Commitments
import Memorai.Storage.StoreLaws

/-! The two axes of a claim under concurrent calls. A call reads the payload in one statement and writes all of it back in
another, so it can undo what the other call did in between. -/
namespace Memorai.Storage
open Schema Memorai.Graph Concurrency

/-- The second statement of a mutation sets the payload and the promoted columns. The claim has the id that was read. -/
def Store.writeClaim (s : Store) (claim : Claim) : Store := s.replacePayload (.claim claim)

/-- A statement of a mutation. -/
inductive ClaimStatement where
  | read (claimId : String)
  | write (claim : Claim)

def ClaimStatement.Answer : ClaimStatement → Type
  | read _ => Option Claim
  | write _ => Unit

def claimService : Service Store ClaimStatement ClaimStatement.Answer where
  answer s
    | .read claimId => s.claim? claimId
    | .write _ => ()
  effect s
    | .read _ => s
    | .write claim => s.writeClaim claim

abbrev ClaimProg := Prog ClaimStatement ClaimStatement.Answer

/-- From the answer on. A change that raises ends the call. -/
def writeBack (m : Mutation) : Option Claim → ClaimProg
  | none => .done
  | some claim =>
    match m.mutate claim with
    | .error _ => .done
    | .ok claim' => .call (.write claim') (fun _ => .done)

/-- `_mutate_claim`, statement by statement. -/
def mutateProg (claimId : String) (m : Mutation) : ClaimProg := .call (.read claimId) (writeBack m)

def setClaimStatusProg (claimId status : String) : ClaimProg := mutateProg claimId (.ofStatus status)

def setFulfillmentProg (claimId fulfillment : String) (settledAtMs : Option Int) : ClaimProg :=
  match FulfillmentStatus.ofValue fulfillment with
  | none => .done
  | some state => mutateProg claimId (.ofFulfillment claimId state settledAtMs)

section Alone
variable {s : Store} {claimId : String} {m : Mutation} {claim claim' : Claim}

theorem mutateClaim_eq_writeClaim (hclaim : s.claim? claimId = some claim) (hmutate : m.mutate claim = .ok claim') :
    (s.mutateClaim claimId m).2 = s.writeClaim claim' := by
  have hid : claim'.id = claimId := (m.id_mutate hmutate).trans (Store.id_of_claim? hclaim)
  obtain ⟨row, hrow, hpayload⟩ := Option.bind_eq_some_iff.mp hclaim
  obtain ⟨-, hkey⟩ := (PropertyGraph.find?_eq_some_iff ..).mp hrow
  have hrewrite : m.rewrite claim = claim' := by rw [Mutation.rewrite, hmutate]
  subst hid
  have hrows : ∀ v ∈ s.nodes, v.key = ⟨.claim, claim'.id⟩ → v.mutateClaim m.rewrite =
      if v.key = ⟨.claim, claim'.id⟩ then { v with payload := .claim claim', promoted := promoted (.claim claim') } else v := by
    intro v hv hvkey
    obtain rfl : v = row := Option.some.inj (((PropertyGraph.find?_eq_some_iff ..).mpr ⟨hv, hvkey⟩).symm.trans hrow)
    rw [if_pos hvkey, Row.mutateClaim, (Row.claim?_eq_some_iff ..).mp hpayload]
    dsimp only
    rw [hrewrite]
  rw [Store.mutateClaim, hclaim]
  dsimp only
  rw [hmutate, Store.writeClaim, Store.replacePayload]
  exact PropertyGraph.modify_congr s (Row.key_mutateClaim _ m.id_rewrite) _ hrows

/-- A call on its own is the mutation. -/
theorem run_mutateProg (s : Store) (claimId : String) (m : Mutation) :
    (mutateProg claimId m).run claimService s = (s.mutateClaim claimId m).2 := by
  show (writeBack m (s.claim? claimId)).run claimService s = _
  cases hclaim : s.claim? claimId with
  | none =>
    rw [Store.mutateClaim, hclaim]
    rfl
  | some claim =>
    cases hmutate : m.mutate claim with
    | error e =>
      rw [Store.mutateClaim, hclaim, writeBack, hmutate]
      dsimp only
      rw [hmutate]
      rfl
    | ok claim' =>
      rw [mutateClaim_eq_writeClaim hclaim hmutate, writeBack, hmutate]
      rfl

/-- The claim is stored, with columns that repeat it. -/
def Holds (s : Store) (claimId : String) (claim : Claim) : Prop :=
  ∃ row, s.find? ⟨.claim, claimId⟩ = some row ∧ row.claim? = some claim ∧ row.promoted = promoted (.claim claim)

theorem Holds.claim? (h : Holds s claimId claim) : s.claim? claimId = some claim := by
  obtain ⟨row, hrow, hclaim, -⟩ := h
  rw [Store.claim?, hrow]
  exact hclaim

/-- What a claim is written back as is stored, whatever was stored before. -/
theorem holds_writeClaim {old : Claim} (hold : s.claim? claimId = some old) (hid : claim.id = claimId) :
    Holds (s.writeClaim claim) claimId claim := by
  subst hid
  obtain ⟨row, hrow, -⟩ := Option.bind_eq_some_iff.mp hold
  obtain ⟨-, hkey⟩ := (PropertyGraph.find?_eq_some_iff ..).mp hrow
  refine ⟨{ row with payload := .claim claim, promoted := promoted (.claim claim) }, ?_, rfl, rfl⟩
  have hkeyOf : (⟨.claim, claim.id⟩ : NodeKey) = ⟨labelOf (.claim claim), (MemoryNode.claim claim).id⟩ := rfl
  rw [Store.writeClaim, Store.replacePayload, PropertyGraph.find?_modify, if_pos hkeyOf]
  show Option.map _ (s.find? ⟨.claim, claim.id⟩) = _
  rw [hrow]
  exact congrArg some (if_pos hkey)

end Alone

/-- Which axis of a claim a call moves. -/
inductive Axis where
  | epistemic | lifecycle
  deriving DecidableEq

def Axis.other : Axis → Axis
  | epistemic => lifecycle
  | lifecycle => epistemic

@[simp] theorem Axis.other_other (axis : Axis) : axis.other.other = axis := by cases axis <;> rfl

theorem Axis.other_ne (axis : Axis) : axis.other ≠ axis := by cases axis <;> decide

theorem Axis.eq_or_other (axis i : Axis) : i = axis ∨ i = axis.other := by cases axis <;> cases i <;> decide

/-- What the two calls are to set. -/
structure Moves where
  claimId : String
  status : ClaimStatus
  fulfillment : FulfillmentStatus
  settledAtMs : Option Int

namespace Moves
variable (moves : Moves)

def prog : Axis → ClaimProg
  | .epistemic => setClaimStatusProg moves.claimId moves.status.value
  | .lifecycle => setFulfillmentProg moves.claimId moves.fulfillment.value moves.settledAtMs

/-- The axis of the claim is as the call is to set it. A settlement time is kept only with a settled commitment. -/
def Made : Axis → Claim → Prop
  | .epistemic, claim => claim.status = moves.status
  | .lifecycle, claim => ∃ commitment, claim.commitment = some commitment ∧ commitment.fulfillment = moves.fulfillment ∧
    commitment.settledAtMs = if moves.fulfillment = .open then none else moves.settledAtMs

def mutation : Axis → Mutation
  | .epistemic => .ofStatus moves.status.value
  | .lifecycle => .ofFulfillment moves.claimId moves.fulfillment moves.settledAtMs

def moved (axis : Axis) (claim : Claim) : Claim := (moves.mutation axis).rewrite claim

variable {moves} {axis : Axis} {claim : Claim}

theorem prog_eq (axis : Axis) : moves.prog axis = mutateProg moves.claimId (moves.mutation axis) := by
  cases axis with
  | epistemic => rfl
  | lifecycle => rw [prog, setFulfillmentProg, FulfillmentStatus.ofValue_value, mutation]

theorem mutate_eq (moves : Moves) (hcommitment : claim.commitment.isSome) (axis : Axis) :
    (moves.mutation axis).mutate claim = .ok (moves.moved axis claim) := by
  obtain ⟨commitment, hsome⟩ := Option.isSome_iff_exists.mp hcommitment
  cases axis with
  | epistemic => simp [moved, Mutation.rewrite, mutation, Mutation.ofStatus, ClaimStatus.ofValue_value]
  | lifecycle => simp [moved, Mutation.rewrite, mutation, Mutation.ofFulfillment, hsome]

theorem moved_epistemic (claim : Claim) : moves.moved .epistemic claim = { claim with status := moves.status } := by
  simp [moved, Mutation.rewrite, mutation, Mutation.ofStatus, ClaimStatus.ofValue_value]

theorem moved_lifecycle {commitment : Commitment} (h : claim.commitment = some commitment) :
    moves.moved .lifecycle claim = { claim with commitment := some { commitment with
      fulfillment := moves.fulfillment
      settledAtMs := if moves.fulfillment = .open then none else moves.settledAtMs } } := by
  simp [moved, Mutation.rewrite, mutation, Mutation.ofFulfillment, h]

theorem commitment_moved (hcommitment : claim.commitment.isSome) (axis : Axis) :
    (moves.moved axis claim).commitment.isSome := by
  obtain ⟨commitment, hsome⟩ := Option.isSome_iff_exists.mp hcommitment
  cases axis with
  | epistemic => rw [moved_epistemic, hsome]; rfl
  | lifecycle => rw [moved_lifecycle hsome]; rfl

theorem made_moved (hcommitment : claim.commitment.isSome) (axis : Axis) : moves.Made axis (moves.moved axis claim) := by
  obtain ⟨commitment, hsome⟩ := Option.isSome_iff_exists.mp hcommitment
  cases axis with
  | epistemic => rw [moved_epistemic]; exact rfl
  | lifecycle => rw [moved_lifecycle hsome]; exact ⟨_, rfl, rfl, rfl⟩

/-- Moving one axis leaves the other one alone. -/
theorem made_moved_other (hcommitment : claim.commitment.isSome) (axis : Axis) :
    moves.Made axis (moves.moved axis.other claim) ↔ moves.Made axis claim := by
  obtain ⟨commitment, hsome⟩ := Option.isSome_iff_exists.mp hcommitment
  cases axis with
  | epistemic => rw [Axis.other, moved_lifecycle hsome]; exact Iff.rfl
  | lifecycle => rw [Axis.other, moved_epistemic]; exact Iff.rfl

/-- An axis that is there already is not moved. -/
theorem moved_of_made (h : moves.Made axis claim) : moves.moved axis claim = claim := by
  cases axis with
  | epistemic =>
    have hstatus : claim.status = moves.status := h
    rw [moved_epistemic, ← hstatus]
  | lifecycle =>
    obtain ⟨commitment, hsome, hfulfillment, hsettled⟩ := h
    rw [moved_lifecycle hsome, ← hsettled, ← hfulfillment, ← hsome]

/-- The claim that is stored has both axes as they were to be set, and the columns say the same. -/
def BothMade (moves : Moves) (s : Store) : Prop :=
  ∃ claim, Holds s moves.claimId claim ∧ ∀ axis, moves.Made axis claim

/-- The call that moves the axis writes after the other one has read, and before it writes. -/
def Overwritten (axis : Axis) (schedule : List Axis) : Prop :=
  [axis, axis.other, axis] <+: schedule ∨ [axis.other, axis, axis] <+: schedule

/-- One call after the other. -/
def oneByOne (moves : Moves) (s : Store) (first : Axis) : Store :=
  ((s.mutateClaim moves.claimId (moves.mutation first)).2.mutateClaim moves.claimId (moves.mutation first.other)).2

section Schedules
variable {s : Store} {cfg : Config Store Axis ClaimStatement ClaimStatement.Answer} {p q : ClaimProg}

theorem bothMade_iff (h : Holds s moves.claimId claim) : moves.BothMade s ↔ ∀ axis, moves.Made axis claim := by
  constructor
  · rintro ⟨claim', hclaim', hmade⟩
    obtain rfl : claim' = claim := Option.some.inj (hclaim'.claim?.symm.trans h.claim?)
    exact hmade
  · exact fun hmade => ⟨claim, h, hmade⟩

theorem id_moved (hclaim : s.claim? moves.claimId = some claim) (axis : Axis) :
    (moves.moved axis claim).id = moves.claimId :=
  ((moves.mutation axis).id_rewrite claim).trans (Store.id_of_claim? hclaim)

theorem holds_write (hclaim : s.claim? moves.claimId = some claim) (axis : Axis) :
    Holds (s.writeClaim (moves.moved axis claim)) moves.claimId (moves.moved axis claim) :=
  holds_writeClaim hclaim (id_moved hclaim axis)

theorem oneByOne_eq (hclaim : s.claim? moves.claimId = some claim) (hcommitment : claim.commitment.isSome) (first : Axis) :
    moves.oneByOne s first =
      (s.writeClaim (moves.moved first claim)).writeClaim (moves.moved first.other (moves.moved first claim)) := by
  have hfirst := mutateClaim_eq_writeClaim hclaim (mutate_eq moves hcommitment first)
  have hthen := (holds_write hclaim first).claim?
  rw [oneByOne, hfirst, mutateClaim_eq_writeClaim hthen (mutate_eq moves (commitment_moved hcommitment first) first.other)]

theorem writeBack_eq (hcommitment : claim.commitment.isSome) (axis : Axis) :
    writeBack (moves.mutation axis) (some claim) = .call (.write (moves.moved axis claim)) (fun _ => .done) := by
  rw [writeBack, mutate_eq moves hcommitment axis]

/-- Where the store and the two calls are. -/
structure At (cfg : Config Store Axis ClaimStatement ClaimStatement.Answer) (axis : Axis) (s : Store) (p q : ClaimProg) :
    Prop where
  state : cfg.state = s
  prog : cfg.progs axis = p
  other : cfg.progs axis.other = q

theorem At.start (moves : Moves) (s : Store) (axis : Axis) : At ⟨s, moves.prog, []⟩ axis s
    (mutateProg moves.claimId (moves.mutation axis)) (mutateProg moves.claimId (moves.mutation axis.other)) :=
  ⟨rfl, prog_eq axis, prog_eq axis.other⟩

theorem At.swap (h : At cfg axis s p q) : At cfg axis.other s q p := by
  refine ⟨h.state, h.other, ?_⟩
  rw [axis.other_other]
  exact h.prog

theorem At.swap_back (h : At cfg axis.other s q p) : At cfg axis s p q := by
  refine ⟨h.state, ?_, h.prog⟩
  rw [← axis.other_other]
  exact h.other

theorem At.step {c : ClaimStatement} {k : c.Answer → ClaimProg} (h : At cfg axis s (.call c k) q) :
    At (cfg.step claimService axis) axis (claimService.effect s c) (k (claimService.answer s c)) q := by
  rw [Config.step_of_call claimService h.prog, h.state]
  refine ⟨rfl, Function.update_self .., ?_⟩
  dsimp only
  rw [Function.update_of_ne axis.other_ne]
  exact h.other

/-- Once one call is done, the other one goes on alone. -/
theorem At.last (h : At cfg axis s .done q) (schedule : List Axis)
    (hdone : (schedule.foldl (Config.step claimService) cfg).progs axis.other = .done) :
    (schedule.foldl (Config.step claimService) cfg).state = q.run claimService s := by
  have hothers : ∀ i, i ≠ axis.other → cfg.progs i = .done := by
    intro i hi
    rcases axis.eq_or_other i with rfl | rfl
    · exact h.prog
    · exact absurd rfl hi
  rw [Config.state_of_alone claimService hothers schedule hdone, h.other, h.state]

/-- The first call has read. -/
theorem At.read (hclaim : s.claim? moves.claimId = some claim) (hcommitment : claim.commitment.isSome)
    (h : At cfg axis s (mutateProg moves.claimId (moves.mutation axis)) q) :
    At (cfg.step claimService axis) axis s (.call (.write (moves.moved axis claim)) (fun _ => .done)) q := by
  rw [← writeBack_eq hcommitment, ← hclaim]
  exact h.step

variable {first : Axis} {rest : List Axis}

theorem state_of_serial (hclaim : s.claim? moves.claimId = some claim) (hcommitment : claim.commitment.isSome)
    (hdone : (interleave claimService (first :: first :: rest) s moves.prog).progs first.other = .done) :
    (interleave claimService (first :: first :: rest) s moves.prog).state = moves.oneByOne s first := by
  have hwritten := ((At.start moves s first).read hclaim hcommitment).step
  have hlast := hwritten.last rest hdone
  have hthen := (holds_write hclaim first).claim?
  have hrun : (interleave claimService (first :: first :: rest) s moves.prog).state =
      (mutateProg moves.claimId (moves.mutation first.other)).run claimService
        (s.writeClaim (moves.moved first claim)) := hlast
  rw [hrun, run_mutateProg, oneByOne, mutateClaim_eq_writeClaim hclaim (mutate_eq moves hcommitment first)]

theorem state_of_overwritten (hclaim : s.claim? moves.claimId = some claim) (hcommitment : claim.commitment.isSome)
    {schedule : List Axis} (hover : Overwritten first schedule)
    (hdone : (interleave claimService schedule s moves.prog).progs first.other = .done) :
    (interleave claimService schedule s moves.prog).state =
      (s.writeClaim (moves.moved first claim)).writeClaim (moves.moved first.other claim) := by
  rcases hover with ⟨rest, rfl⟩ | ⟨rest, rfl⟩
  · have hread := ((At.start moves s first).read hclaim hcommitment).swap.read hclaim hcommitment
    have hwritten := hread.swap_back.step
    exact hwritten.last rest hdone
  · have hread := ((At.start moves s first).swap.read hclaim hcommitment).swap_back.read hclaim hcommitment
    have hwritten := hread.step
    exact hwritten.last rest hdone

/-- Two calls that both return come one after the other, or one writes in between. -/
theorem schedule_cases (hclaim : s.claim? moves.claimId = some claim) (hcommitment : claim.commitment.isSome)
    {schedule : List Axis} (hdone : ∀ axis, (interleave claimService schedule s moves.prog).progs axis = .done) :
    ∃ first, (∃ rest, schedule = first :: first :: rest) ∨ Overwritten first schedule := by
  cases schedule with
  | nil =>
    have hstart := (At.start moves s .epistemic).prog
    exact absurd (hstart.symm.trans (hdone .epistemic)) nofun
  | cons first schedule =>
    cases schedule with
    | nil =>
      have hread := ((At.start moves s first).read hclaim hcommitment).other
      exact absurd (hread.symm.trans (hdone first.other)) nofun
    | cons second schedule =>
      rcases first.eq_or_other second with rfl | rfl
      · exact ⟨second, .inl ⟨schedule, rfl⟩⟩
      cases schedule with
      | nil =>
        have hread := (((At.start moves s first).read hclaim hcommitment).swap.read hclaim hcommitment).prog
        exact absurd (hread.symm.trans (hdone first.other)) nofun
      | cons third schedule =>
        rcases first.eq_or_other third with rfl | rfl
        · exact ⟨third, .inr (.inl ⟨schedule, rfl⟩)⟩
        · refine ⟨first.other, .inr (.inr ⟨schedule, ?_⟩)⟩
          rw [first.other_other]
          rfl

/-- One call after the other makes both moves. -/
theorem bothMade_oneByOne (hclaim : s.claim? moves.claimId = some claim) (hcommitment : claim.commitment.isSome) (first : Axis) :
    moves.BothMade (moves.oneByOne s first) := by
  have hthen := (holds_write hclaim first).claim?
  have hmoved : (moves.moved first claim).commitment.isSome := commitment_moved hcommitment first
  rw [oneByOne_eq hclaim hcommitment, bothMade_iff (holds_write hthen first.other)]
  intro axis
  rcases first.eq_or_other axis with rfl | rfl
  · exact (made_moved_other hmoved axis).mpr (made_moved hcommitment axis)
  · exact made_moved hmoved first.other

/-- After an overwriting, the axis of the first write is as it was before both calls. -/
theorem bothMade_of_overwritten (hclaim : s.claim? moves.claimId = some claim) (hcommitment : claim.commitment.isSome)
    (first : Axis) :
    moves.BothMade ((s.writeClaim (moves.moved first claim)).writeClaim (moves.moved first.other claim)) ↔
      moves.Made first claim := by
  have hthen := (holds_write hclaim first).claim?
  have hheld := holds_writeClaim hthen (id_moved hclaim first.other)
  rw [bothMade_iff hheld]
  constructor
  · intro hmade
    exact (made_moved_other hcommitment first).mp (hmade first)
  · intro hmade axis
    rcases first.eq_or_other axis with rfl | rfl
    · exact (made_moved_other hcommitment axis).mpr hmade
    · exact made_moved hcommitment first.other

theorem not_overwritten_of_serial (axis : Axis) : ¬ Overwritten axis (first :: first :: rest) := by
  rintro (⟨tail, htail⟩ | ⟨tail, htail⟩)
  · simp only [List.cons_append, List.cons.injEq] at htail
    exact axis.other_ne (htail.2.1.trans htail.1.symm)
  · simp only [List.cons_append, List.cons.injEq] at htail
    exact axis.other_ne (htail.1.trans htail.2.1.symm)

theorem eq_of_overwritten {schedule : List Axis} {axis : Axis} (h : Overwritten first schedule)
    (h' : Overwritten axis schedule) : axis = first := by
  rcases first.eq_or_other axis with rfl | rfl
  · rfl
  · rcases h with ⟨tail, rfl⟩ | ⟨tail, rfl⟩ <;> rcases h' with ⟨tail', htail⟩ | ⟨tail', htail⟩ <;>
      simp [first.other_ne, first.other_ne.symm] at htail

end Schedules
end Moves

/-- Once both calls have returned, both axes are as they were set, and the store is as after one call and then the other,
unless a call that moves its axis was overwritten. -/
theorem axes_kept_iff (moves : Moves) (s : Store) (claim : Claim) (hclaim : s.claim? moves.claimId = some claim)
    (hcommitment : claim.commitment.isSome) (schedule : List Axis)
    (hdone : ∀ axis, (interleave claimService schedule s moves.prog).progs axis = .done) :
    (moves.BothMade (interleave claimService schedule s moves.prog).state ↔
      ∀ axis, Moves.Overwritten axis schedule → moves.Made axis claim) ∧
    ((∀ axis, Moves.Overwritten axis schedule → moves.Made axis claim) →
      ∃ first, (interleave claimService schedule s moves.prog).state = moves.oneByOne s first) := by
  obtain ⟨first, ⟨rest, rfl⟩ | hover⟩ := Moves.schedule_cases hclaim hcommitment hdone
  · have hstate := Moves.state_of_serial hclaim hcommitment (hdone first.other)
    have hnever : ∀ axis, Moves.Overwritten axis (first :: first :: rest) → moves.Made axis claim :=
      fun axis hover => absurd hover (Moves.not_overwritten_of_serial axis)
    rw [hstate]
    exact ⟨iff_of_true (Moves.bothMade_oneByOne hclaim hcommitment first) hnever, fun _ => ⟨first, rfl⟩⟩
  · have hstate := Moves.state_of_overwritten hclaim hcommitment hover (hdone first.other)
    have honly : (∀ axis, Moves.Overwritten axis schedule → moves.Made axis claim) ↔ moves.Made first claim := by
      constructor
      · exact fun h => h first hover
      · intro hmade axis haxis
        rw [Moves.eq_of_overwritten hover haxis]
        exact hmade
    rw [hstate, honly]
    refine ⟨Moves.bothMade_of_overwritten hclaim hcommitment first, ?_⟩
    intro hmade
    refine ⟨first, ?_⟩
    rw [Moves.oneByOne_eq hclaim hcommitment, Moves.moved_of_made hmade]

/-- A promise that was reassigned, and kept all the same. -/
def keptPromise : Moves := ⟨"clm_1", .superseded, .fulfilled, some 7⟩

def promised : Store := Store.upsert PropertyGraph.empty (.claim promise) promise.statement

theorem claim?_promised : promised.claim? keptPromise.claimId = some promise := by
  rw [promised, Store.claim?_upsert_claim]
  exact if_pos rfl

theorem axes_kept_iff_promised :
    (keptPromise.BothMade (interleave claimService [.epistemic, .epistemic, .lifecycle, .lifecycle] promised keptPromise.prog).state ↔
      ∀ axis, Moves.Overwritten axis [.epistemic, .epistemic, .lifecycle, .lifecycle] → keptPromise.Made axis promise) ∧
    ((∀ axis, Moves.Overwritten axis [.epistemic, .epistemic, .lifecycle, .lifecycle] → keptPromise.Made axis promise) →
      ∃ first, (interleave claimService [.epistemic, .epistemic, .lifecycle, .lifecycle] promised keptPromise.prog).state =
        keptPromise.oneByOne promised first) :=
  axes_kept_iff keptPromise promised promise claim?_promised rfl _ (by intro axis; cases axis <;> rfl)

/-- Both calls read the claim before either of them writes it, and its status is lost. -/
theorem status_lost :
    (∀ axis, (interleave claimService [.epistemic, .lifecycle, .epistemic, .lifecycle] promised keptPromise.prog).progs axis =
      .done) ∧
    ¬ keptPromise.BothMade
      (interleave claimService [.epistemic, .lifecycle, .epistemic, .lifecycle] promised keptPromise.prog).state := by
  have hdone : ∀ axis, (interleave claimService [.epistemic, .lifecycle, .epistemic, .lifecycle] promised
      keptPromise.prog).progs axis = .done := by
    intro axis
    cases axis <;> rfl
  have hover : Moves.Overwritten .epistemic [.epistemic, .lifecycle, .epistemic, .lifecycle] := .inl ⟨[.lifecycle], rfl⟩
  refine ⟨hdone, ?_⟩
  rw [Moves.state_of_overwritten claim?_promised rfl hover (hdone .lifecycle),
    Moves.bothMade_of_overwritten claim?_promised rfl]
  intro hmade
  exact absurd (show promise.status = .superseded from hmade) (by decide)

end Memorai.Storage
