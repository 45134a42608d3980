import Memorai.Ingestion.Nodes
import Memorai.Storage.Tenants

/-! What a run sends to the store, whatever it is answered: statements about its own records, and about claims that it was
told of. -/
namespace Memorai.Ingestion
open Schema Storage Extraction Resolver

namespace Job

/-- The ids of everything the records yielded, and of the events they cite. -/
def ids (job : Job) : List String :=
  job.candidates.flatMap (fun c => c.entities.map Entity.id ++
    c.events.flatMap (fun e => e.id :: e.provenance.citations.map Citation.eventId) ++ c.claims.map Claim.id)

/-- Every candidate is what an extractor may return for its record. -/
def Extracted (job : Job) : Prop := ∀ p ∈ job.extracted, Extracts job.ownerId p.1 p.2

section Ids
variable {job : Job} {p : RawRecord × Candidate}

theorem entity_id_mem (hp : p ∈ job.extracted) {e : Entity} (he : e ∈ p.2.entities) : e.id ∈ job.ids := by
  refine List.mem_flatMap.mpr ⟨p.2, List.mem_map_of_mem hp, ?_⟩
  exact List.mem_append_left _ (List.mem_append_left _ (List.mem_map_of_mem he))

theorem event_ids_mem (hp : p ∈ job.extracted) {e : Event} (he : e ∈ p.2.events) {x : String}
    (hx : x ∈ e.id :: e.provenance.citations.map Citation.eventId) : x ∈ job.ids := by
  refine List.mem_flatMap.mpr ⟨p.2, List.mem_map_of_mem hp, ?_⟩
  exact List.mem_append_left _ (List.mem_append_right _ (List.mem_flatMap.mpr ⟨e, he, hx⟩))

theorem claim_id_mem (hp : p ∈ job.extracted) {c : Claim} (hc : c ∈ p.2.claims) : c.id ∈ job.ids := by
  refine List.mem_flatMap.mpr ⟨p.2, List.mem_map_of_mem hp, ?_⟩
  exact List.mem_append_right _ (List.mem_map_of_mem hc)

theorem named_mem (hp : p ∈ job.extracted) {ids : List String} (h : Names p.2 ids) {x : String} (hx : x ∈ ids) : x ∈ job.ids := by
  obtain ⟨e, he, rfl⟩ := h x hx
  exact entity_id_mem hp he

end Ids

end Job

private theorem of_upsert_mem_eventOps {event : Event} {node : MemoryNode} {text : String} (h : .upsert node text ∈ eventOps event) :
    node = .event event ∧ text = event.summary ++ " " ++ event.body.getD "" := by
  simp only [eventOps, List.cons_append, List.mem_cons, List.mem_append, List.mem_map] at h
  rcases h with h | ⟨_, _, h⟩ | ⟨_, _, h⟩
  · exact StoreOp.upsert.inj h
  · exact absurd h (by simp)
  · exact absurd h (by simp)

private theorem target_of_mem_eventOps {event : Event} {a t : String} {q : Rel} (h : .link a q t ∈ eventOps event) :
    t ∈ event.entityIds ∨ t ∈ event.provenance.citations.map Citation.eventId := by
  simp only [eventOps, List.mem_append, List.mem_cons, List.mem_map, List.mem_filter] at h
  rcases h with (h | ⟨_, hin, h⟩) | ⟨_, ⟨hin, _⟩, h⟩
  · exact absurd h (by simp)
  · injection h with _ _ h
    exact .inl (h ▸ hin)
  · injection h with _ _ h
    exact .inr (h ▸ List.mem_map_of_mem hin)

private theorem node_of_upsert_mem_claimOps {claim : Claim} {node : MemoryNode} {text : String}
    (h : .upsert node text ∈ claimOps claim) : node = .claim claim := by
  rw [claimOps_eq] at h
  rcases List.mem_cons.mp h with h | h
  · exact (StoreOp.upsert.inj h).1
  · rcases mem_claimTail_cases h with ⟨_, _, h⟩ | ⟨_, _, h⟩
    · exact absurd h (by simp)
    · exact absurd h (by simp)

section Events
variable {job : Job} {event : Event}

private theorem of_upsert_mem_writeEvent {node : MemoryNode} {text : String}
    (h : .upsert node text ∈ (writeEvent job.records job.sealed event).ops) :
    ∃ e, job.kept event = some e ∧ node = .event e ∧ text = e.summary ++ " " ++ e.body.getD "" := by
  cases hb : job.sealed.lookup event.source.externalId with
  | some blob =>
    rw [writeEvent, hb] at h
    rw [Job.kept, hb]
    exact ⟨_, rfl, of_upsert_mem_eventOps h⟩
  | none =>
    rw [writeEvent, hb] at h
    rw [Job.kept, hb]
    cases hneeds : needsSeal job.records event.source.externalId with
    | true =>
      rw [hneeds] at h
      exact absurd h List.not_mem_nil
    | false =>
      rw [hneeds] at h
      exact ⟨event, rfl, of_upsert_mem_eventOps h⟩

private theorem target_of_mem_writeEvent {a t : String} {q : Rel}
    (h : .link a q t ∈ (writeEvent job.records job.sealed event).ops) :
    t ∈ event.entityIds ∨ t ∈ event.provenance.citations.map Citation.eventId := by
  unfold writeEvent at h
  split at h
  · rename_i blob _
    exact @target_of_mem_eventOps { event with encryptedContent := some blob.ref, body := none } a t q h
  · split at h
    · exact absurd h List.not_mem_nil
    · exact target_of_mem_eventOps h

end Events

namespace Answers
variable {job : Job} (answers : Answers job)

/-- Where the nodes come from that a run writes: of an event what is kept, of a claim all but what resolution decided. -/
theorem origin_of_upsert {node : MemoryNode} {text : String} (h : .upsert node text ∈ answers.ops) : ∃ p ∈ job.extracted,
    (∃ e ∈ p.2.entities, node = .entity e) ∨
    (∃ event ∈ p.2.events, ∃ e, job.kept event = some e ∧ node = .event e ∧ text = e.summary ++ " " ++ e.body.getD "") ∨
    ∃ c ∈ p.2.claims, ∃ b, bare b = bare c ∧ node = .claim b := by
  rw [answers.ops_eq] at h
  obtain ⟨m, hm, h⟩ := List.mem_flatMap.mp h
  rcases List.mem_append.mp h with h | h
  · obtain ⟨_, _, p, hp, hpg, href⟩ := answers.exists_of_mem_merged hm
    refine ⟨p, hp, ?_⟩
    rcases List.mem_append.mp h with h | h
    · obtain ⟨entity, hentity, h⟩ := List.mem_flatMap.mp h
      obtain ⟨rfl, _⟩ := StoreOp.upsert.inj (List.mem_singleton.mp h)
      exact .inl ⟨entity, hpg ▸ href.entities ▸ hentity, rfl⟩
    · obtain ⟨event, hevent, h⟩ := List.mem_flatMap.mp h
      exact .inr (.inl ⟨event, hpg ▸ href.events ▸ hevent, of_upsert_mem_writeEvent h⟩)
  · obtain ⟨claim, hclaim, h⟩ := List.mem_flatMap.mp h
    obtain ⟨p, hp, _, q, _, hq, _, _, hbare⟩ := answers.origin_of_mem_merged hm hclaim
    exact ⟨p, hp, .inr (.inr ⟨q.claim, hq, claim, hbare, node_of_upsert_mem_claimOps h⟩)⟩

theorem pending_id_mem {b : Claim} (hb : b ∈ answers.pending) : b.id ∈ job.ids := by
  obtain ⟨p, hp, q, _, hq, _, _, hbare⟩ := answers.origin_of_mem_pending hb
  have hid : b.id = q.claim.id := eq_of_bare Claim.id (fun _ => rfl) hbare
  exact hid ▸ Job.claim_id_mem hp hq

/-- Whom a pending claim supersedes or contradicts: a claim of the batch, or one that the store told of. -/
theorem referred {b : Claim} (hb : b ∈ answers.pending) {x : String} (hx : x ∈ b.supersedes ++ b.contradicts) :
    x ∈ job.ids ∨ ∃ q ∈ answers.asked, q.found = false ∧ ∃ a ∈ q.stored, a.id = x := by
  obtain ⟨p, t, hsplit⟩ := List.append_of_mem hb
  rcases (pending_refers answers.raw_asked hsplit hx).2 with htold | ⟨d, hd, rfl⟩
  · exact .inr htold
  · refine .inl (answers.pending_id_mem ?_)
    rw [hsplit]
    exact List.mem_append_left _ hd

/-- The ends of an edge that a run asks for. -/
theorem ends_of_link (hx : job.Extracted) {a t : String} {q : Rel} (h : .link a q t ∈ answers.ops) :
    a ∈ job.ids ∧ (t ∈ job.ids ∨ ∃ b ∈ answers.pending, t ∈ b.supersedes ++ b.contradicts) := by
  rw [answers.ops_eq] at h
  obtain ⟨m, hm, h⟩ := List.mem_flatMap.mp h
  rcases List.mem_append.mp h with h | h
  · obtain ⟨_, _, p, hp, hpg, href⟩ := answers.exists_of_mem_merged hm
    rcases List.mem_append.mp h with h | h
    · obtain ⟨e, _, h⟩ := List.mem_flatMap.mp h
      exact absurd (List.mem_singleton.mp h) (by simp)
    · obtain ⟨e, he, h⟩ := List.mem_flatMap.mp h
      have he : e ∈ p.2.events := hpg ▸ href.events ▸ he
      obtain ⟨event, hevents, hof, _⟩ := (hx p hp).event
      obtain rfl := List.mem_singleton.mp (hevents ▸ he)
      refine ⟨source_of_mem_writeEvent h ▸ Job.event_ids_mem hp he List.mem_cons_self, .inl ?_⟩
      rcases target_of_mem_writeEvent h with ht | ht
      · rw [hof.entities] at ht
        obtain ⟨entity, hentity, rfl⟩ := List.mem_map.mp ht
        exact Job.entity_id_mem hp hentity
      · exact Job.event_ids_mem hp he (List.mem_cons_of_mem _ ht)
  · obtain ⟨b, hb, h⟩ := List.mem_flatMap.mp h
    have hpending : b ∈ answers.pending := by
      rw [← answers.merged_claims]
      exact List.mem_flatMap.mpr ⟨m, hm, hb⟩
    obtain ⟨rfl, ht⟩ := (link_mem_claimOps b a q t).mp h
    refine ⟨answers.pending_id_mem hpending, ?_⟩
    obtain ⟨p, hp, c, _, hc, hunresolved, _, hbare⟩ := answers.origin_of_mem_pending hpending
    obtain ⟨event, hevents, _, _, hclaims⟩ := (hx p hp).event
    have hevent : event ∈ p.2.events := hevents ▸ List.mem_singleton_self event
    have hparties : parties b = parties c.claim := eq_of_bare parties (fun _ => rfl) hbare
    cases q with
    | about =>
      have hsubjects : b.subjectEntityIds = c.claim.subjectEntityIds := eq_of_bare _ (fun _ => rfl) hbare
      exact .inl (Job.named_mem hp hunresolved.subjects (hsubjects ▸ ht))
    | owedBy => exact .inl (Job.named_mem hp hunresolved.owed (hparties ▸ List.mem_append_left _ ht))
    | owedTo =>
      have howed := (Option.mem_filter_iff.mp (Option.mem_toList.mp ht)).1
      exact .inl (Job.named_mem hp hunresolved.owed (hparties ▸ List.mem_append_right _ (Option.mem_toList.mpr howed)))
    | cites =>
      have hcites : b.provenance = c.claim.provenance := eq_of_bare _ (fun _ => rfl) hbare
      change t ∈ b.provenance.citations.map Citation.eventId at ht
      rw [hcites] at ht
      obtain ⟨citation, hcitation, rfl⟩ := List.mem_map.mp ht
      rw [((hclaims _ hc).cites citation hcitation).1]
      exact .inl (Job.event_ids_mem hp hevent List.mem_cons_self)
    | supersedes => exact .inr ⟨b, hpending, List.mem_append_left _ ht⟩
    | contradicts => exact .inr ⟨b, hpending, List.mem_append_right _ ht⟩
    | mentions => exact absurd ht List.not_mem_nil
    | other name => exact absurd ht List.not_mem_nil

/-- If the store tells of nobody else's claims, a run's statements are about its owner's nodes. -/
theorem ops_of (hx : job.Extracted) {mine : String → Prop} (hids : ∀ x ∈ job.ids, mine x)
    (htold : ∀ q ∈ answers.asked, q.found = false → ∀ a ∈ q.stored, mine a.id) :
    ∀ op ∈ answers.ops, op.Of mine job.ownerId := by
  have hreferred : ∀ b ∈ answers.pending, ∀ x ∈ b.supersedes ++ b.contradicts, mine x := by
    intro b hb x hxb
    rcases answers.referred hb hxb with hin | ⟨q, hq, hfound, a, ha, rfl⟩
    · exact hids x hin
    · exact htold q hq hfound a ha
  intro op hop
  cases op with
  | upsert node text =>
    obtain ⟨p, hp, hnode⟩ := answers.origin_of_upsert hop
    obtain ⟨event, hevents, hof, hentities, hclaims⟩ := (hx p hp).event
    rcases hnode with ⟨e, he, rfl⟩ | ⟨event', hevent', e, hkept, rfl, _⟩ | ⟨c, hc, b, hbare, rfl⟩
    · exact ⟨(hentities e he).owner, hids _ (Job.entity_id_mem hp he)⟩
    · obtain rfl := List.mem_singleton.mp (hevents ▸ hevent')
      refine ⟨(Job.guard_of_kept hkept).1.trans hof.owner, hids _ ?_⟩
      change e.id ∈ job.ids
      rw [Job.id_of_kept hkept]
      exact Job.event_ids_mem hp hevent' List.mem_cons_self
    · have howner : b.ownerId = c.ownerId := eq_of_bare Claim.ownerId (fun _ => rfl) hbare
      have hid : b.id = c.id := eq_of_bare Claim.id (fun _ => rfl) hbare
      refine ⟨howner.trans (hclaims c hc).owner, hids _ ?_⟩
      change b.id ∈ job.ids
      rw [hid]
      exact Job.claim_id_mem hp hc
  | link source rel target =>
    obtain ⟨hsource, htarget⟩ := answers.ends_of_link hx hop
    refine ⟨hids _ hsource, ?_⟩
    rcases htarget with hin | ⟨b, hb, hin⟩
    · exact hids _ hin
    · exact hreferred b hb _ hin
  | setClaimStatus claimId status =>
    rcases answers.carries_ops.only _ hop with hquiet | ⟨b, hb, hmem⟩
    · exact absurd rfl (hquiet.2.1 claimId status)
    · exact hreferred b hb _ (List.mem_append_left _ ((setClaimStatus_mem_claimOps b claimId status).mp hmem).1)

end Answers

end Memorai.Ingestion
