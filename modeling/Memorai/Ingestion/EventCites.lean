import Memorai.Ingestion.EventTrace
import Memorai.Ingestion.Links

/-! Citations between events. A link is made when the citing event is written, if the cited one is stored by then. -/
namespace Memorai.Ingestion
open Schema Memorai.Graph Storage Extraction Memorai.Lists

/-- Whatever stored event of its owner a stored event cites, there is an edge to it. -/
def CitesLinked (s : Store) : Prop :=
  ∀ x y e f, s.event? x = some e → s.event? y = some f → e.ownerId = f.ownerId → y ≠ x → Cites (.event e) y →
    (Store.eventKey x, .cites, Store.eventKey y) ∈ s.edges

/-- The run writes the first event at a point where the second one is there. -/
def Job.WrittenAfter (job : Job) (s : Store) (x y : String) : Prop :=
  ∃ pre d post, job.keptEvents = pre ++ d :: post ∧ d.id = x ∧ (Store.eventKey y ∈ s.keys ∨ ∃ c ∈ pre, c.id = y)

/-- When an event comes to an owner, those of this owner that cite it are written after it, if no edge is there yet. -/
def CitersFollow (job : Job) (s : Store) : Prop :=
  ∀ x y e f, latest job.keptEvents s x = some e → latest job.keptEvents s y = some f → e.ownerId = f.ownerId → y ≠ x →
    Cites (.event e) y → (∀ g, s.event? y = some g → g.ownerId ≠ e.ownerId) →
      (Store.eventKey x, .cites, Store.eventKey y) ∈ s.edges ∨ job.WrittenAfter s x y

section Run
variable {job : Job} {s : Store}

theorem tagged_of_event? (h : TaggedKeys s) {x : String} {e : Event} (he : s.event? x = some e) : Tagged (Store.eventKey x) :=
  h _ ((Store.event?_isSome_iff s x).mp ⟨e, he⟩)

/-- It is the last copy that counts: nothing written before another copy comes too late for it. -/
theorem Job.WrittenAfter.last {x y : String} {e : Event} (h : job.WrittenAfter s x y)
    (he : latest job.keptEvents s x = some e) :
    ∃ pre post, job.keptEvents = pre ++ e :: post ∧ (Store.eventKey y ∈ s.keys ∨ ∃ c ∈ pre, c.id = y) := by
  obtain ⟨pre, d, post, hsplit, hid, hy⟩ := h
  rcases latest_cases he with ⟨pre', post', hsplit', hlast⟩ | ⟨hnone, _⟩
  · refine ⟨pre', post', hsplit', hy.imp id ?_⟩
    rintro ⟨c, hc, hcid⟩
    obtain ⟨p, q, rfl⟩ := List.append_of_mem hc
    rw [List.append_assoc, List.cons_append] at hsplit
    have hd : d ∈ q ++ d :: post := by simp
    exact ⟨c, mem_of_splits_last (hsplit.symm.trans hsplit') hd (fun hin => hlast d hin hid), hcid⟩
  · exact absurd hid (hnone d (by rw [hsplit]; simp))

theorem CitesLinked.citersFollow (hs : Sound s) (h : CitesLinked (job.run s)) : CitersFollow job s := by
  intro x y e f he hf howner hne hcites _
  rw [← Job.event?_run_eq] at he hf
  have hedge := h x y e f he hf howner hne hcites
  rcases (job.mem_cites_run s (tagged_of_event? (hs.run job).tagged he) y).mp hedge with hedge | ⟨pre, d, post, hsplit, hid, _, _, hy⟩
  · exact Or.inl hedge
  · exact Or.inr ⟨pre, d, post, hsplit, hid, hy⟩

theorem CitersFollow.citesLinked (hs : Sound s) (h : CitesLinked s) (hfollow : CitersFollow job s) : CitesLinked (job.run s) := by
  intro x y e f hx hy howner hne hcites
  rw [job.mem_cites_run s (tagged_of_event? (hs.run job).tagged hx) y]
  rw [Job.event?_run_eq] at hx hy
  have hid : e.id = x := id_of_latest hx
  by_cases hcame : ∀ g, s.event? y = some g → g.ownerId ≠ e.ownerId
  · rcases hfollow x y e f hx hy howner hne hcites hcame with hedge | hafter
    · exact Or.inl hedge
    · obtain ⟨pre, post, hsplit, hthere⟩ := hafter.last hx
      exact Or.inr ⟨pre, e, post, hsplit, hid, hcites, hne, hthere⟩
  · -- The owner had the cited event: the citing one is linked already, or written again.
    push Not at hcame
    obtain ⟨g, hg, hgowner⟩ := hcame
    rcases latest_cases hx with ⟨pre, post, hsplit, _⟩ | ⟨_, hold⟩
    · have hthere := (Store.event?_isSome_iff s y).mp ⟨g, hg⟩
      exact Or.inr ⟨pre, e, post, hsplit, hid, hcites, hne, Or.inl hthere⟩
    · exact Or.inl (h x y e g hold hg hgowner.symm hne hcites)

end Run

theorem CitesLinked.empty : CitesLinked PropertyGraph.empty := fun _ _ _ _ h => absurd h (by simp [Store.event?])

/-- After every number of runs each citation between stored events of one owner has its edge, exactly if in each run
those who cite an event that comes to their owner are written after it. -/
theorem cites_linked_iff (jobs : List Job) :
    (∀ n, CitesLinked (runAll (jobs.take n) PropertyGraph.empty)) ↔ EveryRun CitersFollow jobs PropertyGraph.empty := by
  apply EveryRun.prefixes_iff
  · intro job s hs h
    exact ⟨fun hrun => hrun.citersFollow hs, fun hfollow => hfollow.citesLinked hs h⟩
  · exact Sound.empty
  · exact CitesLinked.empty

/-- A note that refers to some records. -/
def reply (externalId : String) (occurredAtMs : Int) (cites : List String) : RawRecord :=
  { noteRecord mockConnector false externalId occurredAtMs with metadata := { cites := cites } }

/-- A reply that arrives before the note it refers to. -/
def replyFirst : List Job :=
  [.ofRecords plain (fun _ => {}) [reply "r2" 2 ["mock:r1"]], .ofRecords plain (fun _ => {}) [reply "r1" 1 []]]

set_option maxRecDepth 8000 in
theorem replyFirst_unlinked : ¬ CitesLinked (runAll replyFirst PropertyGraph.empty) := by
  intro h
  have hno : (runAll replyFirst PropertyGraph.empty).edges = [] := by decide
  have hciting : ((runAll replyFirst PropertyGraph.empty).event? (eventIdOf plain "alice" (reply "r2" 2 []))).map
      (fun e => (e.ownerId, e.provenance.citations.map Citation.eventId)) =
        some ("alice", [eventIdOf plain "alice" (reply "r2" 2 []), eventIdOf plain "alice" (reply "r1" 1 [])]) := by decide
  have hcited : ((runAll replyFirst PropertyGraph.empty).event? (eventIdOf plain "alice" (reply "r1" 1 []))).map Event.ownerId =
      some "alice" := by decide
  obtain ⟨e, he, heq⟩ := Option.map_eq_some_iff.mp hciting
  obtain ⟨f, hf, hfowner⟩ := Option.map_eq_some_iff.mp hcited
  obtain ⟨heowner, hcites⟩ := Prod.mk.inj heq
  obtain ⟨c, hc, hid⟩ := List.mem_map.mp (hcites ▸ List.mem_cons_of_mem _ List.mem_cons_self)
  have hedge := h _ _ e f he hf (heowner.trans hfowner.symm) (by decide) ⟨c, hc, hid⟩
  rw [hno] at hedge
  exact absurd hedge List.not_mem_nil

end Memorai.Ingestion
