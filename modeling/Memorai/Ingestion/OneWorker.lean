import Memorai.Ingestion.Interruptions
import Memorai.Ingestion.Service

/-! A service with one worker does one run after the other, each whole or up to where its worker was killed. -/
namespace Memorai.Ingestion
open Schema Memorai.Graph Storage Extraction Connectors Concurrency Resolver Wire

/-- The statement that a call sends. -/
def Call.op? : Call → Option StoreOp
  | .exec op => some op
  | _ => none

section Alone
variable (s : Store)

private theorem foldl_effect (cs : List Call) : cs.foldl storeService.effect s = execAll (cs.filterMap Call.op?) s := by
  induction cs generalizing s with
  | nil => rfl
  | cons c cs ih =>
    rw [List.foldl_cons, ih]
    cases c with
    | exec op => rfl
    | _ => rfl

/-- The statements that a program sends on its own. -/
def sent (p : StoreProg) : List StoreOp := (p.calls storeService s).filterMap Call.op?

private theorem sent_resolveProg (rows : RowOrder Claim) (ownerId : String) (claims : List Claim) (st : Resolution × List Claim)
    (k : Resolution × List Claim → StoreProg) : sent s (resolveProg rows ownerId claims st k) =
      sent s (k (claims.foldl (fun st c => resolveClaim st (ask rows s ownerId c)) st)) := by
  induction claims generalizing st with
  | nil => rfl
  | cons c cs ih =>
    rw [List.foldl_cons, ← ih, resolveProg, sent, Prog.calls]
    cases h : (s.get c.id).isSome with
    | true =>
      have hask : resolveClaim st (ask rows s ownerId c) = resolveClaim st ⟨c, true, []⟩ := by simp [resolveClaim, ask, h]
      have hget : storeService.answer s (.get c.id) = true := h
      rw [hget, hask]
      rfl
    | false =>
      have hask : ask rows s ownerId c = ⟨c, false, storedAbout rows s ownerId c⟩ := by simp [ask, h]
      have hget : storeService.answer s (.get c.id) = false := h
      rw [hget, hask]
      rfl

private theorem sent_resolveBatchProg (rows : RowOrder Claim) (ownerId : String) (candidates : List Candidate)
    (st : List Resolution × List Claim) (k : List Resolution × List Claim → StoreProg) :
    sent s (resolveBatchProg rows ownerId candidates st k) = sent s (k (candidates.foldl (resolveBatchStep rows s ownerId) st)) := by
  induction candidates generalizing st with
  | nil => rfl
  | cons c cs ih =>
    rw [resolveBatchProg, sent_resolveProg, ih]
    rfl

private theorem sent_writeProg (ops : List StoreOp) : sent s (writeProg ops) = ops := by
  induction ops generalizing s with
  | nil => rfl
  | cons op ops ih => exact congrArg (op :: ·) (ih (op.exec s))

/-- On its own, a run sends the statements of the run on the store it found. -/
theorem sent_prog (job : Job) : sent s job.prog = job.ops s := by
  rw [Job.prog, sent_resolveBatchProg, sent_writeProg]
  rfl

/-- A run that came some way on its own is one that was stopped there. -/
theorem stopped_of_reaches {job : Job} {s' : Store} {q : StoreProg} (h : job.prog.Reaches storeService s q s') :
    ∃ n, s' = job.stopped n s := by
  obtain ⟨made, hcalls, rfl⟩ := h
  refine ⟨(made.filterMap Call.op?).length, ?_⟩
  have hops : job.ops s = made.filterMap Call.op? ++ sent (made.foldl storeService.effect s) q := by
    rw [← sent_prog, sent, hcalls, List.filterMap_append, sent]
  rw [foldl_effect, Job.stopped, hops, List.take_left]

end Alone

section Service
variable {Obj : Type} {registry : Registry Obj} {spec : Obj → ConnectorSpec} {settings : Settings} {repr : String → String}

/-- One worker's store: some runs, each stopped somewhere, and the run the worker is in, if it is in one. -/
structure Attempted (attempts : List (Job × Nat)) (o : Orchestrator Unit) : Prop where
  begun : attempts.map Prod.fst = o.begun
  state : o.workers.state = attemptAll attempts PropertyGraph.empty
  current : o.workers.progs () = .done ∨ ∃ before job n, attempts = before ++ [(job, n)] ∧
    job.prog.Reaches storeService (attemptAll before PropertyGraph.empty) (o.workers.progs ()) o.workers.state

theorem attemptAll_concat (attempts : List (Job × Nat)) (job : Job) (n : Nat) (s : Store) :
    attemptAll (attempts ++ [(job, n)]) s = job.stopped n (attemptAll attempts s) := by
  rw [attemptAll, List.foldl_append, List.foldl_cons, List.foldl_nil, ← attemptAll]

theorem Attempted.step {attempts : List (Job × Nat)} {o : Orchestrator Unit} (h : Attempted attempts o) (happening : Happening Unit) :
    ∃ attempts', Attempted attempts' (o.step registry spec settings repr happening) := by
  cases happening with
  | enqueue request =>
    refine ⟨attempts, ?_⟩
    rw [Orchestrator.step]
    split
    · exact ⟨h.begun, h.state, h.current⟩
    · exact h
  | take worker request around =>
    rw [Orchestrator.step]
    split_ifs with hidle
    · cases hjob : intake registry spec settings around request with
      | error e => exact ⟨attempts, h⟩
      | ok job =>
        have hzero : attemptAll (attempts ++ [(job, 0)]) PropertyGraph.empty = attemptAll attempts PropertyGraph.empty := by
          rw [attemptAll_concat]
          rfl
        refine ⟨attempts ++ [(job, 0)], ?_, ?_, .inr ⟨attempts, job, 0, rfl, ?_⟩⟩
        · rw [List.map_append, h.begun]
          rfl
        · exact h.state.trans hzero.symm
        · dsimp only
          rw [Function.update_self, h.state]
          exact Prog.Reaches.refl
    · exact ⟨attempts, h⟩
  | call worker =>
    cases hprog : o.workers.progs () with
    | done =>
      refine ⟨attempts, ?_⟩
      rw [Orchestrator.step, Config.step_of_done storeService hprog]
      exact h
    | call c k =>
      obtain hdone | ⟨before, job, n, rfl, hreaches⟩ := h.current
      · exact absurd (hprog.symm.trans hdone) (by simp)
      · rw [hprog] at hreaches
        obtain ⟨m, hm⟩ := stopped_of_reaches _ hreaches.step
        refine ⟨before ++ [(job, m)], ?_⟩
        rw [Orchestrator.step, Config.step_of_call storeService hprog]
        refine ⟨?_, ?_, .inr ⟨before, job, m, rfl, ?_⟩⟩
        · rw [← h.begun]
          simp
        · rw [attemptAll_concat]
          exact hm
        · dsimp only
          rw [Function.update_self]
          exact hreaches.step
  | kill worker =>
    refine ⟨attempts, h.begun, h.state, .inl ?_⟩
    change Function.update o.workers.progs () .done () = .done
    rw [Function.update_self]

/-- What the worker leaves if it is let to finish: the runs begun, one after the other. -/
def Carried (o : Orchestrator Unit) : Prop :=
  (o.workers.progs ()).run storeService o.workers.state = runAll o.begun PropertyGraph.empty

theorem Carried.step {o : Orchestrator Unit} (h : Carried o) {happening : Happening Unit} (hkill : happening ≠ .kill ()) :
    Carried (o.step registry spec settings repr happening) := by
  cases happening with
  | enqueue request =>
    rw [Orchestrator.step]
    split
    · exact h
    · exact h
  | take worker request around =>
    rw [Orchestrator.step]
    split_ifs with hidle
    · cases hjob : intake registry spec settings around request with
      | error e => exact h
      | ok job =>
        have hstate : o.workers.state = runAll o.begun PropertyGraph.empty := by
          have hrun := h
          rw [Carried, hidle.2, Prog.run] at hrun
          exact hrun
        rw [Carried]
        dsimp only
        rw [Function.update_self, Job.run_prog, runAll_concat, hstate]
    · exact h
  | call worker =>
    have hrun : (o.workers.progs ()).run storeService o.workers.state = runAll o.begun PropertyGraph.empty := h
    rw [Carried, Orchestrator.step]
    dsimp only
    rw [← hrun]
    cases hprog : o.workers.progs () with
    | done =>
      rw [Config.step_of_done storeService hprog, hprog]
    | call c k =>
      rw [Config.step_of_call storeService hprog]
      dsimp only
      rw [Function.update_self, Prog.run]
  | kill worker => exact absurd rfl hkill

/-- With one worker, whatever happens: the store is what some runs leave one after the other, each of them stopped somewhere, and
unless the worker was killed they are the whole runs, the last of them as far as it has come. -/
theorem one_worker (registry : Registry Obj) (spec : Obj → ConnectorSpec) (settings : Settings) (repr : String → String)
    (happenings : List (Happening Unit)) :
    (∃ attempts, Attempted attempts (served registry spec settings repr happenings)) ∧
      (.kill () ∈ happenings ∨ Carried (served registry spec settings repr happenings)) := by
  induction happenings using List.reverseRecOn with
  | nil => exact ⟨⟨[], rfl, rfl, .inl rfl⟩, .inr rfl⟩
  | append_singleton past happening ih =>
    obtain ⟨⟨attempts, hattempted⟩, hcarried⟩ := ih
    rw [served_concat]
    refine ⟨hattempted.step happening, ?_⟩
    by_cases hkill : happening = .kill ()
    · exact .inl (by simp [hkill])
    · refine hcarried.imp (fun hmem => List.mem_append_left _ hmem) (fun hcarried => ?_)
      exact hcarried.step hkill

end Service

end Memorai.Ingestion
