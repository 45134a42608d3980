import Memorai.Ingestion.RunLaws

/-! What a run writes of entities and events: every entity of the batch, and every event that is
not held back. -/
namespace Memorai.Ingestion
open Schema Memorai.Graph Storage Extraction Resolver

/-- The event as it is written, unless it is held back. -/
def Job.kept (job : Job) (event : Event) : Option Event :=
  match job.sealed.lookup event.source.externalId with
  | some blob => some { event with encryptedContent := some blob.ref, body := none }
  | none => if needsSeal job.records event.source.externalId then none else some event

/-- The event of a sealed body is kept without it. -/
theorem Job.kept_of_sealed {job : Job} {event : Event} {blob : Sealed} (h : job.sealed.lookup event.source.externalId = some blob) :
    job.kept event = some { event with encryptedContent := some blob.ref, body := none } := by
  rw [Job.kept, h]

theorem Job.id_of_kept {job : Job} {event e : Event} (h : job.kept event = some e) : e.id = event.id := by
  unfold Job.kept at h
  split at h
  · obtain rfl := Option.some.inj h
    rfl
  · split at h
    · exact absurd h (by simp)
    · obtain rfl := Option.some.inj h
      rfl

theorem Job.guard_of_kept {job : Job} {event e : Event} (h : job.kept event = some e) :
    e.ownerId = event.ownerId ∧ e.acl = event.acl := by
  unfold Job.kept at h
  split at h
  · obtain rfl := Option.some.inj h
    exact ⟨rfl, rfl⟩
  · split at h
    · exact absurd h (by simp)
    · obtain rfl := Option.some.inj h
      exact ⟨rfl, rfl⟩

private theorem entities_claimOps (claim : Claim) : (claimOps claim).filterMap StoreOp.entity? = [] := by
  rw [List.filterMap_eq_nil_iff, claimOps_eq]
  intro op hop
  rcases List.mem_cons.mp hop with rfl | hop
  · rfl
  · rcases mem_claimTail_cases hop with ⟨q, b, rfl⟩ | ⟨y, st, rfl⟩ <;> rfl

private theorem events_claimOps (claim : Claim) : (claimOps claim).filterMap StoreOp.event? = [] := by
  rw [List.filterMap_eq_nil_iff, claimOps_eq]
  intro op hop
  rcases List.mem_cons.mp hop with rfl | hop
  · rfl
  · rcases mem_claimTail_cases hop with ⟨q, b, rfl⟩ | ⟨y, st, rfl⟩ <;> rfl

private theorem entities_eventOps (event : Event) : (eventOps event).filterMap StoreOp.entity? = [] := by
  rw [List.filterMap_eq_nil_iff]
  intro op hop
  simp only [eventOps, List.mem_append, List.mem_cons, List.mem_map] at hop
  rcases hop with (rfl | ⟨_, _, rfl⟩) | ⟨_, _, rfl⟩ <;> rfl

theorem events_eventOps (event : Event) : (eventOps event).filterMap StoreOp.event? = [event] := by
  have hrest : ∀ (ts : List String) (q : Rel), (ts.map (StoreOp.link event.id q)).filterMap StoreOp.event? = [] := by
    intro ts q
    rw [List.filterMap_eq_nil_iff]
    intro op hop
    obtain ⟨_, _, rfl⟩ := List.mem_map.mp hop
    rfl
  simp only [eventOps, List.filterMap_append, List.filterMap_cons, List.filterMap_map]
  simp [StoreOp.event?, Function.comp_def]

section Run
variable (job : Job) (store : Store)

private theorem entities_writeEvent (event : Event) :
    (writeEvent job.records job.sealed event).ops.filterMap StoreOp.entity? = [] := by
  unfold writeEvent
  split
  · exact entities_eventOps _
  · split
    · rfl
    · exact entities_eventOps _

theorem events_writeEvent (event : Event) :
    (writeEvent job.records job.sealed event).ops.filterMap StoreOp.event? = (job.kept event).toList := by
  cases hb : job.sealed.lookup event.source.externalId with
  | some blob =>
    rw [writeEvent, Job.kept, hb]
    exact events_eventOps _
  | none =>
    rw [writeEvent, Job.kept, hb]
    cases needsSeal job.records event.source.externalId with
    | true => rfl
    | false => exact events_eventOps event

private theorem flatMap_merged {α : Type} (f : Candidate → List α) (h : ∀ g asked m, Refreshed g asked m → f m = f g) :
    (job.answers store).merged.flatMap f = job.candidates.flatMap f := by
  have hmap : ∀ {gs : List (Candidate × List Asked)} {ms : List Candidate},
      List.Forall₂ (fun g m => Refreshed g.1 g.2 m) gs ms → ms.flatMap f = (gs.map Prod.fst).flatMap f := by
    intro gs ms hall
    induction hall with
    | nil => rfl
    | cons hr _ ih => rw [List.flatMap_cons, List.map_cons, List.flatMap_cons, ih, h _ _ _ hr]
  rw [hmap (job.answers store).merged_refreshed, (job.answers store).candidates]

/-- The entities a run writes are those of the batch. -/
theorem Job.entities_ops : (job.ops store).filterMap StoreOp.entity? = job.candidates.flatMap Candidate.entities := by
  have hall : ∀ m : Candidate, (Answers.prelude job m ++ m.claims.flatMap claimOps).filterMap StoreOp.entity? =
      m.entities := by
    intro m
    simp only [Answers.prelude, List.filterMap_append, List.filterMap_flatMap, entities_claimOps, entities_writeEvent]
    simp [writeEntity, StoreOp.entity?]
  rw [ops_eq_answers, Answers.ops_eq, List.filterMap_flatMap, List.flatMap_congr (fun m _ => hall m)]
  exact flatMap_merged job store _ (fun _ _ _ hr => hr.entities)

/-- The events a run writes are those of the batch that are kept. -/
theorem Job.events_ops : (job.ops store).filterMap StoreOp.event? =
    (job.candidates.flatMap Candidate.events).filterMap job.kept := by
  have hall : ∀ m : Candidate, (Answers.prelude job m ++ m.claims.flatMap claimOps).filterMap StoreOp.event? =
      m.events.filterMap job.kept := by
    intro m
    have hentity : ∀ e : Entity, (writeEntity e).ops.filterMap StoreOp.event? = [] := fun _ => rfl
    have hnil : ∀ {α : Type} (l : List α), l.flatMap (fun _ => ([] : List Event)) = [] := by simp
    rw [List.filterMap_eq_flatMap_toList job.kept]
    simp only [Answers.prelude, List.filterMap_append, List.filterMap_flatMap, events_claimOps, events_writeEvent,
      hentity, hnil, List.nil_append, List.append_nil]
  rw [ops_eq_answers, Answers.ops_eq, List.filterMap_flatMap, List.flatMap_congr (fun m _ => hall m),
    flatMap_merged job store _ (fun _ _ _ hr => by rw [hr.events]), List.filterMap_flatMap]

/-- The run sends `node` to the store. -/
def Job.Writes (node : MemoryNode) : Prop := ∃ text, .upsert node text ∈ job.ops store

theorem Job.writes_entity_iff (e : Entity) : job.Writes store (.entity e) ↔ ∃ p ∈ job.extracted, e ∈ p.2.entities := by
  have hmem : job.Writes store (.entity e) ↔ e ∈ (job.ops store).filterMap StoreOp.entity? := by
    rw [List.mem_filterMap]
    refine ⟨fun ⟨text, h⟩ => ⟨_, h, rfl⟩, fun ⟨op, hop, he⟩ => ?_⟩
    unfold StoreOp.entity? at he
    split at he
    · obtain rfl := Option.some.inj he
      exact ⟨_, hop⟩
    · exact absurd he (by simp)
  rw [hmem, entities_ops, candidates, List.flatMap_map, List.mem_flatMap]

theorem Job.writes_event_iff (e : Event) : job.Writes store (.event e) ↔
    ∃ p ∈ job.extracted, ∃ event ∈ p.2.events, job.kept event = some e := by
  have hmem : job.Writes store (.event e) ↔ e ∈ (job.ops store).filterMap StoreOp.event? := by
    rw [List.mem_filterMap]
    refine ⟨fun ⟨text, h⟩ => ⟨_, h, rfl⟩, fun ⟨op, hop, he⟩ => ?_⟩
    unfold StoreOp.event? at he
    split at he
    · obtain rfl := Option.some.inj he
      exact ⟨_, hop⟩
    · exact absurd he (by simp)
  rw [hmem, events_ops, candidates, List.flatMap_map, List.filterMap_flatMap, List.mem_flatMap]
  simp only [List.mem_filterMap]

theorem Job.writes_claim_iff (b : Claim) : job.Writes store (.claim b) ↔ b ∈ job.pending store :=
  ⟨fun ⟨_, h⟩ => ((job.carries_ops store).text_of_mem h).1,
    fun h => ⟨_, (job.carries_ops store).all b h _ (upsert_mem_claimOps b)⟩⟩

/-- An entity row after a run: the last one of the batch with that id, else what was there. -/
theorem Job.entity?_run (x : String) : (job.run store).entity? x =
    ((job.candidates.flatMap Candidate.entities).filter (fun e => e.id = x)).getLast?.or (store.entity? x) := by
  rw [run, entity?_execAll, entities_ops]

/-- An event row after a run: the last one of the batch that is kept, else what was there. -/
theorem Job.event?_run (x : String) : (job.run store).event? x =
    (((job.candidates.flatMap Candidate.events).filterMap job.kept).filter (fun e => e.id = x)).getLast?.or
      (store.event? x) := by
  rw [run, event?_execAll, events_ops]

end Run

/-- A stored claim is one that a record yielded, but for what resolution decided. -/
theorem claim_origin {jobs : List Job} {x : String} {c : Claim} (h : (runAll jobs PropertyGraph.empty).claim? x = some c) :
    ∃ job ∈ jobs, ∃ p ∈ job.extracted, ∃ d ∈ p.2.claims, bare c = bare d := by
  induction jobs using List.reverseRecOn generalizing c with
  | nil => exact absurd h (by simp [runAll, Store.claim?])
  | append_singleton jobs job ih =>
    rw [runAll_concat] at h
    rcases job.claim?_run_cases h with ⟨d, hd, rfl⟩ | ⟨b, hb, _, _, post, _, rfl⟩
    · obtain ⟨k, hk, p, hp, d', hd', hbare⟩ := ih hd
      exact ⟨k, List.mem_append_left _ hk, p, hp, d', hd', (bare_touch _ d).trans hbare⟩
    · obtain ⟨p, hp, q, _, hq, _, _, hbare⟩ := (job.answers _).origin_of_mem_pending hb
      exact ⟨job, by simp, p, hp, q.claim, hq, (bare_touch _ b).trans hbare⟩

/-- A stored event is one that a record yielded, as it was kept. -/
theorem event_origin {jobs : List Job} {x : String} {e : Event} (h : (runAll jobs PropertyGraph.empty).event? x = some e) :
    ∃ job ∈ jobs, ∃ p ∈ job.extracted, ∃ d ∈ p.2.events, d.id = x ∧ job.kept d = some e := by
  induction jobs using List.reverseRecOn generalizing e with
  | nil => exact absurd h (by simp [runAll, Store.event?])
  | append_singleton jobs job ih =>
    rw [runAll_concat, Job.event?_run, Option.or_eq_some_iff] at h
    rcases h with h | ⟨_, h⟩
    · obtain ⟨he, hid⟩ := List.mem_filter.mp (List.mem_of_getLast? h)
      obtain ⟨d, hd, hkept⟩ := List.mem_filterMap.mp he
      obtain ⟨m, hm, hd⟩ := List.mem_flatMap.mp hd
      obtain ⟨p, hp, rfl⟩ := List.mem_map.mp hm
      exact ⟨job, by simp, p, hp, d, hd, (Job.id_of_kept hkept).symm.trans (by simpa using hid), hkept⟩
    · obtain ⟨k, hk, hrest⟩ := ih h
      exact ⟨k, List.mem_append_left _ hk, hrest⟩

end Memorai.Ingestion
