import Memorai.Ingestion.EventTrace
import Memorai.Ingestion.Links

/-! Stored events that are written again. Every run writes whatever its source returned, over what was stored. -/
namespace Memorai.Ingestion
open Schema Memorai.Graph Storage Extraction Memorai.Lists

/-- Every event that is stored first is stored unchanged after. -/
def EventsStay (s t : Store) : Prop := ∀ x e, s.event? x = some e → t.event? x = some e

/-- Where the run writes a stored event again, the last copy it writes is that very event. -/
def RewritesAlike (job : Job) (s : Store) : Prop :=
  ∀ pre d post, job.keptEvents = pre ++ d :: post → (∀ c ∈ post, c.id ≠ d.id) → ∀ e, s.event? d.id = some e → d = e

theorem EventsStay.refl (s : Store) : EventsStay s s := fun _ _ h => h

theorem EventsStay.trans {s t u : Store} (h : EventsStay s t) (h' : EventsStay t u) : EventsStay s u :=
  fun x e he => h' x e (h x e he)

theorem eventsStay_run_iff (job : Job) (s : Store) : EventsStay s (job.run s) ↔ RewritesAlike job s := by
  constructor
  · intro h pre d post hsplit hlast e he
    have hrun := h d.id e he
    have hlatest : latest job.keptEvents s d.id = some d := by
      rw [hsplit]
      exact latest_of_last hlast
    rw [Job.event?_run_eq, hlatest] at hrun
    exact Option.some.inj hrun
  · intro h x e he
    rw [Job.event?_run_eq]
    obtain ⟨d, hd⟩ := Option.isSome_iff_exists.mp (latest_isSome job.keptEvents he)
    rcases latest_cases hd with ⟨pre, post, hsplit, hlast⟩ | ⟨_, hold⟩
    · obtain rfl := id_of_latest hd
      rw [hd, h pre d post hsplit hlast e he]
    · rw [hd, ← hold, he]

/-- A stored event never changes in any later run, exactly if every run that writes a stored event again ends with the
very same one. -/
theorem append_only_iff (jobs : List Job) :
    (∀ n m, n ≤ m → EventsStay (runAll (jobs.take n) PropertyGraph.empty) (runAll (jobs.take m) PropertyGraph.empty)) ↔
      EveryRun RewritesAlike jobs PropertyGraph.empty := by
  apply EveryRun.between_iff
  · exact EventsStay.refl
  · exact fun h h' => h.trans h'
  · exact fun job s => eventsStay_run_iff job s

/-- A conversation, and the same one when somebody has taken it up again and it is fetched once more. -/
def revived : List Job :=
  [.ofRecords plain (fun _ => {}) [{ noteRecord mockConnector false "c1" 1 with body := "Hello." }],
    .ofRecords { plain with nowMs := 2000 } (fun _ => {}) [{ noteRecord mockConnector false "c1" 1 with body := "Hello. Hello again." }]]

set_option maxRecDepth 8000 in
theorem revived_rewritten :
    ¬ ∀ n m, n ≤ m → EventsStay (runAll (revived.take n) PropertyGraph.empty) (runAll (revived.take m) PropertyGraph.empty) := by
  intro h
  have hfirst : ((runAll (revived.take 1) PropertyGraph.empty).event? "evt_alice\x1fmock\x1fc1").map
      (fun e => (e.body, e.source.ingestedAtMs)) = some (some "Hello.", 1000) := by decide
  have hsecond : ((runAll (revived.take 2) PropertyGraph.empty).event? "evt_alice\x1fmock\x1fc1").map
      (fun e => (e.body, e.source.ingestedAtMs)) = some (some "Hello. Hello again.", 2000) := by decide
  obtain ⟨e, he, heq⟩ := Option.map_eq_some_iff.mp hfirst
  rw [h 1 2 (by decide) _ e he, Option.map_some, heq] at hsecond
  exact absurd hsecond (by decide)

end Memorai.Ingestion
