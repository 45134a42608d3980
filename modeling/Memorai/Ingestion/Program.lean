import Memorai.Concurrency.Interleaving
import Memorai.Ingestion.WriteLaws

/-! A run as a program of store calls, so that two of them can take turns. -/
namespace Memorai.Ingestion
open Schema Memorai.Graph Storage Extraction Resolver Concurrency

/-- One round trip to the store: `get`, `claims_about` with the order its rows come back in, or
one of the statements that write. -/
inductive Call where
  | get (nodeId : String)
  | claimsAbout (rows : RowOrder Claim) (ownerId : String) (claim : Claim)
  | exec (op : StoreOp)

abbrev Answer : Call → Type
  | .get _ => Bool
  | .claimsAbout .. => List Claim
  | .exec _ => Unit

def storeService : Service Store Call Answer where
  answer
    | s, .get nodeId => (s.get nodeId).isSome
    | s, .claimsAbout rows ownerId claim => storedAbout rows s ownerId claim
    | _, .exec _ => ()
  effect
    | s, .get _ => s
    | s, .claimsAbout .. => s
    | s, .exec op => op.exec s

abbrev StoreProg := Prog Call Answer

abbrev StoreEvent := Concurrency.Event Call Answer

section Programs
variable (rows : RowOrder Claim) (ownerId : String)

/-- `Resolver.resolve`, up to where it hands over the resolution and the pending claims. -/
def resolveProg : List Claim → Resolution × List Claim → (Resolution × List Claim → StoreProg) → StoreProg
  | [], st, k => k st
  | claim :: claims, st, k =>
    .call (.get claim.id) fun (found : Bool) =>
      if found then resolveProg claims (resolveClaim st ⟨claim, true, []⟩) k
      else .call (.claimsAbout rows ownerId claim) fun (stored : List Claim) =>
        resolveProg claims (resolveClaim st ⟨claim, false, stored⟩) k

def resolveBatchProg : List Candidate → List Resolution × List Claim →
    (List Resolution × List Claim → StoreProg) → StoreProg
  | [], st, k => k st
  | candidate :: candidates, st, k =>
    resolveProg rows ownerId candidate.claims ({}, st.2) fun (resolution, pending) =>
      resolveBatchProg candidates (st.1 ++ [resolution], pending) k

def writeProg : List StoreOp → StoreProg
  | [] => .done
  | op :: ops => .call (.exec op) fun _ => writeProg ops

end Programs

def Job.prog (job : Job) : StoreProg :=
  resolveBatchProg job.rows job.ownerId job.candidates ([], []) fun resolved =>
    writeProg (write job.records job.sealed (merge job.candidates resolved)).ops

private theorem run_resolveProg (rows : RowOrder Claim) (ownerId : String) (claims : List Claim)
    (st : Resolution × List Claim) (k : Resolution × List Claim → StoreProg) (s : Store) :
    (resolveProg rows ownerId claims st k).run storeService s =
      (k (claims.foldl (fun st c => resolveClaim st (ask rows s ownerId c)) st)).run storeService s := by
  induction claims generalizing st with
  | nil => rfl
  | cons c cs ih =>
    have hget : storeService.answer s (.get c.id) = (s.get c.id).isSome := rfl
    rw [resolveProg, Prog.run, hget, List.foldl_cons]
    cases h : (s.get c.id).isSome with
    | true =>
      have hask : resolveClaim st (ask rows s ownerId c) = resolveClaim st ⟨c, true, []⟩ := by
        simp [resolveClaim, ask, h]
      rw [if_pos rfl, hask]
      exact ih _
    | false =>
      have hask : ask rows s ownerId c = ⟨c, false, storedAbout rows s ownerId c⟩ := by simp [ask, h]
      rw [if_neg (by simp), Prog.run, hask]
      exact ih _

private theorem run_resolveBatchProg (rows : RowOrder Claim) (ownerId : String) (candidates : List Candidate)
    (st : List Resolution × List Claim) (k : List Resolution × List Claim → StoreProg) (s : Store) :
    (resolveBatchProg rows ownerId candidates st k).run storeService s =
      (k (candidates.foldl (resolveBatchStep rows s ownerId) st)).run storeService s := by
  induction candidates generalizing st with
  | nil => rfl
  | cons c cs ih =>
    rw [resolveBatchProg, run_resolveProg, ih]
    rfl

private theorem run_writeProg (ops : List StoreOp) (s : Store) :
    (writeProg ops).run storeService s = execAll ops s := by
  induction ops generalizing s with
  | nil => rfl
  | cons op ops ih => exact ih (op.exec s)

/-- Left alone, the program does what the run does. -/
theorem Job.run_prog (job : Job) (s : Store) : job.prog.run storeService s = job.run s := by
  rw [prog, run_resolveBatchProg, run_writeProg]
  rfl

/-- The calls that ask about one claim. -/
def asks (rows : RowOrder Claim) (ownerId : String) (q : Asked) : List StoreEvent :=
  if q.found then [⟨.get q.claim.id, true⟩]
  else [⟨.get q.claim.id, false⟩, ⟨.claimsAbout rows ownerId q.claim, q.stored⟩]

def writes (ops : List StoreOp) : List StoreEvent := ops.map (fun op => ⟨.exec op, ()⟩)

private theorem leads_resolveProg {rows : RowOrder Claim} {ownerId : String} {claims : List Claim}
    {st : Resolution × List Claim} {k : Resolution × List Claim → StoreProg} {t : List StoreEvent}
    (h : (resolveProg rows ownerId claims st k).Leads t .done) :
    ∃ (qs : List Asked) (t' : List StoreEvent), qs.map Asked.claim = claims ∧ t = qs.flatMap (asks rows ownerId) ++ t' ∧
      (k (qs.foldl resolveClaim st)).Leads t' .done := by
  induction claims generalizing st t with
  | nil => exact ⟨[], t, rfl, rfl, h⟩
  | cons c cs ih =>
    obtain ⟨found, t, rfl, hrest⟩ := Prog.leads_call h
    change Bool at found
    cases found with
    | true =>
      obtain ⟨qs, t', hqs, rfl, hk⟩ := ih hrest
      exact ⟨⟨c, true, []⟩ :: qs, t', by rw [List.map_cons, hqs], rfl, hk⟩
    | false =>
      obtain ⟨stored, t, rfl, hlast⟩ := Prog.leads_call hrest
      obtain ⟨qs, t', hqs, rfl, hk⟩ := ih hlast
      exact ⟨⟨c, false, stored⟩ :: qs, t', by rw [List.map_cons, hqs], rfl, hk⟩

private theorem leads_resolveBatchProg {rows : RowOrder Claim} {ownerId : String} {candidates : List Candidate}
    {rs : List Resolution} {p : List Claim} {k : List Resolution × List Claim → StoreProg}
    {t : List StoreEvent} (h : (resolveBatchProg rows ownerId candidates (rs, p) k).Leads t .done) :
    ∃ groups : List (Candidate × List Asked), ∃ t', groups.map Prod.fst = candidates ∧
      (∀ g ∈ groups, g.2.map Asked.claim = g.1.claims) ∧
      t = (groups.flatMap Prod.snd).flatMap (asks rows ownerId) ++ t' ∧
      (k (rs ++ resolutionsFrom p (groups.map Prod.snd), settleAll p (groups.flatMap Prod.snd))).Leads t' .done := by
  induction candidates generalizing rs p t with
  | nil => exact ⟨[], t, rfl, by simp, rfl, by simpa [resolutionsFrom, settleAll, resolveBatchProg] using h⟩
  | cons c cs ih =>
    obtain ⟨qs, t', hqs, rfl, hk⟩ := leads_resolveProg h
    rw [resolveAll_eq] at hk
    obtain ⟨groups, t'', hfst, hclaims, rfl, hk'⟩ := ih hk
    refine ⟨(c, qs) :: groups, t'', by rw [List.map_cons, hfst], ?_, by simp, ?_⟩
    · intro g hg
      rcases List.mem_cons.mp hg with rfl | hg
      · exact hqs
      · exact hclaims g hg
    · simpa [resolutionsFrom, settleAll_append] using hk'

private theorem leads_writeProg {ops : List StoreOp} {t : List StoreEvent}
    (h : (writeProg ops).Leads t .done) : t = writes ops := by
  induction ops generalizing t with
  | nil => exact Prog.leads_done h
  | cons op ops ih =>
    obtain ⟨_, t, rfl, hrest⟩ := Prog.leads_call h
    rw [ih hrest]
    rfl

/-- The calls of a complete job: it asks about each claim in turn, and then sends the statements that
follow from the answers. -/
theorem Job.leads_prog {job : Job} {t : List StoreEvent} (h : job.prog.Leads t .done) :
    ∃ answers : Answers job, t = answers.asked.flatMap (asks job.rows job.ownerId) ++ writes answers.ops := by
  obtain ⟨groups, t', hfst, hclaims, rfl, hk⟩ := leads_resolveBatchProg h
  exact ⟨⟨groups, hfst, hclaims⟩, by rw [leads_writeProg hk]; rfl⟩

end Memorai.Ingestion
