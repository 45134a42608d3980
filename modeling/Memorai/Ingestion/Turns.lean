import Memorai.Concurrency.Workers
import Memorai.Ingestion.ConcurrentTenants
import Memorai.Ingestion.Service

/-! However many workers a service has and whenever they are killed, the runs begun are runs that take turns on one store. -/
namespace Memorai.Ingestion
open Schema Memorai.Graph Storage Extraction Connectors Concurrency Resolver Wire

section Service
variable {Obj W : Type} [DecidableEq W] {registry : Registry Obj} {spec : Obj → ConnectorSpec} {settings : Settings}
  {repr : String → String} {all : List Job} {o : Orchestrator W} {schedule : List (Fin all.length)}
  {task : W → Option (Fin all.length)}

/-- The service is at some turns of those of `all` that are begun. -/
structure AtTurns (all : List Job) (o : Orchestrator W) (schedule : List (Fin all.length)) (task : W → Option (Fin all.length)) :
    Prop where
  hosted : Hosted o.workers (together all.get schedule PropertyGraph.empty) task
  turned : ∀ i ∈ schedule, i.val < o.begun.length
  tasks : ∀ w i, task w = some i → i.val < o.begun.length

omit [DecidableEq W] in
theorem AtTurns.boot : AtTurns all (Orchestrator.boot (W := W)) [] (fun _ => none) :=
  ⟨⟨rfl, fun _ => rfl, fun _ _ _ h => absurd h (by simp)⟩, fun _ h => absurd h List.not_mem_nil, fun _ _ h => absurd h (by simp)⟩

theorem AtTurns.step (h : AtTurns all o schedule task) (happening : Happening W)
    (hall : (o.step registry spec settings repr happening).begun <+: all) :
    ∃ schedule' task', AtTurns all (o.step registry spec settings repr happening) schedule' task' := by
  cases happening with
  | enqueue request =>
    refine ⟨schedule, task, ?_⟩
    rw [Orchestrator.step]
    split
    · exact ⟨h.hosted, h.turned, h.tasks⟩
    · exact h
  | take worker request around =>
    rw [Orchestrator.step] at hall ⊢
    split_ifs at hall ⊢ with hidle
    · cases hjob : intake registry spec settings around request with
      | error e => exact ⟨schedule, task, h⟩
      | ok job =>
        rw [hjob] at hall
        dsimp only at hall ⊢
        have hlt : o.begun.length < all.length := by
          have hlength := hall.length_le
          rw [List.length_append, List.length_singleton] at hlength
          exact hlength
        have hget : all.get ⟨o.begun.length, hlt⟩ = job := by
          have hat := hall.getElem (i := o.begun.length) (by rw [List.length_append, List.length_singleton]; exact Nat.lt_succ_self _)
          rw [List.getElem_concat_length rfl] at hat
          exact hat.symm
        have hfresh : (together all.get schedule PropertyGraph.empty).progs ⟨o.begun.length, hlt⟩ = job.prog := by
          rw [together, progs_of_not_mem storeService (fun hmem => lt_irrefl _ (h.turned _ hmem)), hget]
        have hhosted := h.hosted.begin worker (i := ⟨o.begun.length, hlt⟩) (fun w hw => lt_irrefl _ (h.tasks w _ hw))
        rw [hfresh] at hhosted
        refine ⟨schedule, _, hhosted, fun i hi => ?_, fun w i hi => ?_⟩
        · rw [List.length_append]
          exact Nat.lt_add_right _ (h.turned i hi)
        · rw [List.length_append]
          by_cases hw : w = worker
          · subst hw
            rw [Function.update_self] at hi
            rw [← Option.some.inj hi]
            exact Nat.lt_succ_self _
          · rw [Function.update_of_ne hw] at hi
            exact Nat.lt_add_right _ (h.tasks w i hi)
    · exact ⟨schedule, task, h⟩
  | call worker =>
    refine ⟨schedule ++ (task worker).toList, task, ?_, ?_, h.tasks⟩
    · rw [together, interleave, List.foldl_append]
      exact h.hosted.step storeService worker
    · intro i hi
      rcases List.mem_append.mp hi with hi | hi
      · exact h.turned i hi
      · exact h.tasks worker i (Option.mem_toList.mp hi)
  | kill worker =>
    refine ⟨schedule, _, h.hosted.drop worker, h.turned, fun w i hi => ?_⟩
    by_cases hw : w = worker
    · subst hw
      rw [Function.update_self] at hi
      exact absurd hi (by simp)
    · rw [Function.update_of_ne hw] at hi
      exact h.tasks w i hi

end Service

section Served
variable {Obj W : Type} [DecidableEq W] (registry : Registry Obj) (spec : Obj → ConnectorSpec) (settings : Settings)
  (repr : String → String) (happenings : List (Happening W))

end Served

end Memorai.Ingestion
