import Memorai.Collections.Lists
import Memorai.Ingestion.Unsealed

/-! The events a run writes, one after the other, and the `CITES` edges it gives them: to whatever is stored by then. -/
namespace Memorai.Ingestion
open Schema Memorai.Graph Storage Extraction Resolver Memorai.Lists

/-- The events of the batch in the order they are written, without those held back. -/
def Job.keptEvents (job : Job) : List Event := (job.candidates.flatMap Candidate.events).filterMap job.kept

/-- A statement that writes no event and cites nothing in the name of one. -/
def Silent (op : StoreOp) : Prop := op.event? = none ∧ ∀ a t, op = .link a .cites t → ¬ Tagged (Store.eventKey a)

/-- Statements that write these events, each of them with its links, and otherwise silent ones. -/
inductive Spells : List StoreOp → List Event → Prop where
  | nil : Spells [] []
  | silent {op : StoreOp} {ops : List StoreOp} {es : List Event} : Silent op → Spells ops es → Spells (op :: ops) es
  | event (e : Event) {ops : List StoreOp} {es : List Event} : Spells ops es → Spells (eventOps e ++ ops) (e :: es)

namespace Spells
variable {ops ops' : List StoreOp} {es es' : List Event}

theorem append (h : Spells ops es) (h' : Spells ops' es') : Spells (ops ++ ops') (es ++ es') := by
  induction h with
  | nil => exact h'
  | silent hop _ ih => exact .silent hop ih
  | event e _ ih =>
    rw [List.append_assoc]
    exact .event e ih

theorem of_silent (h : ∀ op ∈ ops, Silent op) : Spells ops [] := by
  induction ops with
  | nil => exact .nil
  | cons op ops ih => exact .silent (h op List.mem_cons_self) (ih (fun o ho => h o (List.mem_cons_of_mem _ ho)))

theorem flatMap {α : Type} {f : α → List StoreOp} {g : α → List Event} {l : List α} (h : ∀ a ∈ l, Spells (f a) (g a)) :
    Spells (l.flatMap f) (l.flatMap g) := by
  induction l with
  | nil => exact .nil
  | cons a l ih =>
    rw [List.flatMap_cons, List.flatMap_cons]
    exact (h a List.mem_cons_self).append (ih (fun b hb => h b (List.mem_cons_of_mem _ hb)))

/-- The events are those that the statements write. -/
theorem events (h : Spells ops es) : ops.filterMap StoreOp.event? = es := by
  induction h with
  | nil => rfl
  | silent hop _ ih => rw [List.filterMap_cons, hop.1, ih]
  | event e _ ih => rw [List.filterMap_append, events_eventOps, ih, List.singleton_append]

end Spells

/-- Links from one id to some others, for what is stored. -/
theorem mem_edges_links (s : Store) (a : String) (q : Rel) (targets : List String) (k : NodeKey) (r : Rel) (j : NodeKey) :
    (k, r, j) ∈ (execAll (targets.map (fun t => .link a q t)) s).edges ↔
      (k, r, j) ∈ s.edges ∨ (k ∈ s.keys ∧ k.id = a) ∧ r = q ∧ j ∈ s.keys ∧ j.id ∈ targets := by
  induction targets generalizing s with
  | nil => simp
  | cons t targets ih =>
    rw [List.map_cons, execAll_cons, ih, StoreOp.exec, Store.mem_edges_link, Store.keys_link, List.mem_cons, or_assoc]
    refine or_congr_right ?_
    constructor
    · rintro (⟨hk, hr, hj, ht⟩ | ⟨hk, hr, hj, ht⟩)
      · exact ⟨hk, hr, hj, Or.inl ht⟩
      · exact ⟨hk, hr, hj, Or.inr ht⟩
    · rintro ⟨hk, hr, hj, ht | ht⟩
      · exact Or.inl ⟨hk, hr, hj, ht⟩
      · exact Or.inr ⟨hk, hr, hj, ht⟩

theorem keys_links (s : Store) (a : String) (q : Rel) (targets : List String) :
    (execAll (targets.map (fun t => .link a q t)) s).keys = s.keys := by
  induction targets generalizing s with
  | nil => rfl
  | cons t targets ih => exact ih (s.link a q t)

private theorem eventOps_eq (e : Event) : ∃ named cited : List String,
    (∀ y, y ∈ cited ↔ Cites (.event e) y ∧ y ≠ e.id) ∧
      ∃ text, eventOps e = .upsert (.event e) text ::
        (named.map (fun t => .link e.id .mentions t) ++ cited.map (fun t => .link e.id .cites t)) := by
  refine ⟨e.entityIds, (e.provenance.citations.filter (fun c => c.eventId ≠ e.id)).map Citation.eventId, fun y => ?_,
    e.summary ++ " " ++ e.body.getD "", ?_⟩
  · simp only [List.mem_map, List.mem_filter, decide_eq_true_eq]
    constructor
    · rintro ⟨c, ⟨hc, hne⟩, rfl⟩
      exact ⟨⟨c, hc, rfl⟩, hne⟩
    · rintro ⟨⟨c, hc, rfl⟩, hne⟩
      exact ⟨c, ⟨hc, hne⟩, rfl⟩
  · rw [eventOps, List.map_map, List.cons_append]
    rfl

theorem mem_keys_eventOps (s : Store) (e : Event) (k : NodeKey) :
    k ∈ (execAll (eventOps e) s).keys ↔ k = Store.eventKey e.id ∨ k ∈ s.keys := by
  obtain ⟨named, cited, _, text, hops⟩ := eventOps_eq e
  rw [hops, execAll_cons, execAll_append, keys_links, keys_links, StoreOp.exec, Store.mem_keys_upsert]
  rfl

/-- Writing an event links it to each event it cites that is stored by then. -/
theorem mem_edges_eventOps (s : Store) (e : Event) (x y : String) :
    (Store.eventKey x, .cites, Store.eventKey y) ∈ (execAll (eventOps e) s).edges ↔
      (Store.eventKey x, .cites, Store.eventKey y) ∈ s.edges ∨
        e.id = x ∧ Cites (.event e) y ∧ y ≠ x ∧ Store.eventKey y ∈ s.keys := by
  obtain ⟨named, cited, hcited, text, hops⟩ := eventOps_eq e
  rw [hops, execAll_cons, execAll_append, mem_edges_links, mem_edges_links, keys_links, StoreOp.exec, Store.edges_upsert,
    Store.mem_keys_upsert, Store.mem_keys_upsert, hcited]
  constructor
  · rintro ((h | ⟨_, h, _⟩) | ⟨⟨_, hx⟩, _, hy, hcites, hne⟩)
    · exact Or.inl h
    · exact absurd h (by simp)
    · obtain rfl : x = e.id := hx
      refine Or.inr ⟨rfl, hcites, hne, hy.resolve_left ?_⟩
      intro hkey
      exact hne (congrArg NodeKey.id hkey)
  · rintro (h | ⟨rfl, hcites, hne, hy⟩)
    · exact Or.inl (Or.inl h)
    · exact Or.inr ⟨⟨Or.inl rfl, rfl⟩, rfl, Or.inr hy, hcites, hne⟩

/-- A silent statement leaves the events and their citation edges alone. -/
private theorem Silent.exec {op : StoreOp} (h : Silent op) (s : Store) {x : String} (hx : Tagged (Store.eventKey x)) (y : String) :
    ((Store.eventKey x, Rel.cites, Store.eventKey y) ∈ (op.exec s).edges ↔
      (Store.eventKey x, Rel.cites, Store.eventKey y) ∈ s.edges) ∧
      (Store.eventKey y ∈ (op.exec s).keys ↔ Store.eventKey y ∈ s.keys) := by
  cases op with
  | upsert n t =>
    rw [StoreOp.exec, Store.edges_upsert, Store.mem_keys_upsert]
    refine ⟨Iff.rfl, or_iff_right ?_⟩
    intro hkey
    cases n with
    | entity e => exact absurd (congrArg NodeKey.label hkey) (by simp [labelOf])
    | event e => exact absurd h.1 (by simp [StoreOp.event?])
    | claim c => exact absurd (congrArg NodeKey.label hkey) (by simp [labelOf])
  | link a q b =>
    rw [StoreOp.exec, Store.mem_edges_link, Store.keys_link]
    refine ⟨or_iff_left ?_, Iff.rfl⟩
    rintro ⟨⟨_, rfl⟩, rfl, _⟩
    exact h.2 _ _ rfl hx
  | setClaimStatus y st =>
    rw [StoreOp.exec, Store.edges_setClaimStatus, Store.keys_setClaimStatus]
    exact ⟨Iff.rfl, Iff.rfl⟩

/-- Which citation edges there are after the events: those of each event to what was stored when it was written. -/
theorem Spells.mem_edges {ops : List StoreOp} {es : List Event} (h : Spells ops es) (s : Store) {x : String}
    (hx : Tagged (Store.eventKey x)) (y : String) :
    (Store.eventKey x, .cites, Store.eventKey y) ∈ (execAll ops s).edges ↔
      (Store.eventKey x, .cites, Store.eventKey y) ∈ s.edges ∨
        ∃ pre e post, es = pre ++ e :: post ∧ e.id = x ∧ Cites (.event e) y ∧ y ≠ x ∧
          (Store.eventKey y ∈ s.keys ∨ ∃ d ∈ pre, d.id = y) := by
  induction h generalizing s with
  | nil => simp
  | @silent op ops es hop _ ih =>
    obtain ⟨hedges, hkeys⟩ := hop.exec s hx y
    rw [execAll_cons, ih, hedges, hkeys]
  | @event e ops es _ ih =>
    have hkey : Store.eventKey y ∈ (execAll (eventOps e) s).keys ↔ e.id = y ∨ Store.eventKey y ∈ s.keys := by
      rw [mem_keys_eventOps]
      simp [eq_comm]
    rw [execAll_append, ih, mem_edges_eventOps, hkey, or_assoc, exists_split_cons]
    -- The event itself, and those after it, which have it among what is written before them.
    refine or_congr_right (or_congr (by simp) ?_)
    simp only [List.exists_mem_cons_iff, or_left_comm, or_assoc]

/-- The event with this id once some events are written: the last of them, else the one that was stored. -/
def latest (es : List Event) (s : Store) (x : String) : Option Event := (es.filter (fun e => e.id = x)).getLast?.or (s.event? x)

section Run
variable (job : Job) (s : Store)

theorem Job.event?_run_eq (x : String) : (job.run s).event? x = latest job.keptEvents s x := job.event?_run s x

private theorem spells_writeEvent (event : Event) :
    Spells (writeEvent job.records job.sealed event).ops (job.kept event).toList := by
  have hone : ∀ e : Event, Spells (eventOps e) [e] := fun e => by simpa using Spells.event e .nil
  cases hb : job.sealed.lookup event.source.externalId with
  | some blob =>
    rw [writeEvent, Job.kept, hb]
    exact hone _
  | none =>
    rw [writeEvent, Job.kept, hb]
    cases needsSeal job.records event.source.externalId with
    | false => exact hone _
    | true => exact .nil

private theorem spells_prelude (m : Candidate) : Spells (Answers.prelude job m) (m.events.filterMap job.kept) := by
  have hentities : ∀ op ∈ m.entities.flatMap (fun e => (writeEntity e).ops), Silent op := by
    intro op hop
    obtain ⟨e, _, hop⟩ := List.mem_flatMap.mp hop
    obtain rfl := List.mem_singleton.mp hop
    exact ⟨rfl, fun _ _ h => absurd h (by simp)⟩
  have hevents : m.events.filterMap job.kept = m.events.flatMap (fun e => (job.kept e).toList) := by
    rw [List.filterMap_eq_flatMap_toList]
  rw [hevents, ← List.nil_append (m.events.flatMap _)]
  exact (Spells.of_silent hentities).append (.flatMap (fun e _ => spells_writeEvent job e))

private theorem silent_of_mem_claimOps {b : Claim} (hb : Tagged (Store.claimKey b.id)) {op : StoreOp} (hop : op ∈ claimOps b) :
    Silent op := by
  have hno : ¬ Tagged (Store.eventKey b.id) := fun he => absurd (hb.label_eq he rfl) (by simp)
  rw [claimOps_eq] at hop
  rcases List.mem_cons.mp hop with rfl | hop
  · exact ⟨rfl, fun _ _ h => absurd h (by simp)⟩
  · rcases mem_claimTail_cases hop with ⟨q, t, rfl⟩ | ⟨y, st, rfl⟩
    · refine ⟨rfl, ?_⟩
      rintro a t' he
      injection he with ha
      exact ha ▸ hno
    · exact ⟨rfl, fun _ _ h => absurd h (by simp)⟩

theorem Job.spells : Spells (job.ops s) job.keptEvents := by
  have hops : Spells (job.ops s) ((job.answers s).merged.flatMap (fun m => m.events.filterMap job.kept ++ [])) := by
    rw [ops_eq_answers, Answers.ops_eq]
    refine .flatMap (fun m hm => (spells_prelude job m).append (.of_silent ?_))
    intro op hop
    obtain ⟨b, hb, hop⟩ := List.mem_flatMap.mp hop
    have hpending : b ∈ job.pending s := by
      rw [pending, ← (job.answers s).merged_claims]
      exact List.mem_flatMap.mpr ⟨m, hm, hb⟩
    have hkey := job.tagged_of_key? s ((job.carries_ops s).all b hpending _ (upsert_mem_claimOps b)) rfl
    exact silent_of_mem_claimOps hkey hop
  have hevents := hops.events
  rw [job.events_ops s] at hevents
  rw [keptEvents, hevents]
  exact hops

theorem Job.mem_cites_run {x : String} (hx : Tagged (Store.eventKey x)) (y : String) :
    (Store.eventKey x, .cites, Store.eventKey y) ∈ (job.run s).edges ↔
      (Store.eventKey x, .cites, Store.eventKey y) ∈ s.edges ∨
        ∃ pre e post, job.keptEvents = pre ++ e :: post ∧ e.id = x ∧ Cites (.event e) y ∧ y ≠ x ∧
          (Store.eventKey y ∈ s.keys ∨ ∃ d ∈ pre, d.id = y) := (job.spells s).mem_edges s hx y

end Run

section Latest
variable {es pre post : List Event} {s : Store} {x : String} {e : Event}

theorem id_of_latest (h : latest es s x = some e) : e.id = x := by
  rcases Option.or_eq_some_iff.mp h with h | ⟨_, h⟩
  · simpa using (List.mem_filter.mp (List.mem_of_getLast? h)).2
  · exact Store.id_of_event? h

/-- The last one written, or the stored one if there is none. -/
theorem latest_cases (h : latest es s x = some e) :
    (∃ pre post, es = pre ++ e :: post ∧ ∀ d ∈ post, d.id ≠ x) ∨ ((∀ d ∈ es, d.id ≠ x) ∧ s.event? x = some e) := by
  rcases Option.or_eq_some_iff.mp h with h | ⟨hnone, h⟩
  · obtain ⟨pre, post, hsplit, _, hpost⟩ := split_of_getLast?_filter h
    exact Or.inl ⟨pre, post, hsplit, fun d hd => by simpa using hpost d hd⟩
  · rw [List.getLast?_eq_none_iff, List.filter_eq_nil_iff] at hnone
    exact Or.inr ⟨fun d hd => by simpa using hnone d hd, h⟩

theorem latest_of_last (h : ∀ d ∈ post, d.id ≠ e.id) : latest (pre ++ e :: post) s e.id = some e := by
  have hnone : post.filter (fun d => d.id = e.id) = [] := List.filter_eq_nil_iff.mpr (fun d hd => by simpa using h d hd)
  rw [latest, List.filter_append, List.filter_cons_of_pos (by simp), hnone, List.getLast?_append]
  rfl

theorem latest_isSome (es : List Event) (h : s.event? x = some e) : (latest es s x).isSome := by
  rw [latest, Option.isSome_or, h]
  exact Bool.or_true _

end Latest
end Memorai.Ingestion
