import Mathlib.Order.Bounds.Defs
import Memorai.Ingestion.EntityGuards

/-! When an entity was seen, first and last. Each record says so of itself alone, and the last one to be written is heard. -/
namespace Memorai.Ingestion
open Schema Memorai.Graph Storage Extraction

/-- The times of the records that mention it. -/
def seenAt (seen : List (RawRecord × Entity)) : Set Int := {t | ∃ p ∈ seen, p.1.occurredAtMs = t}

/-- First seen at the earliest of these times, and last at the latest. -/
structure SeenBetween (seen : List (RawRecord × Entity)) (e : Entity) : Prop where
  first : IsLeast (seenAt seen) e.firstSeenAtMs
  last : IsGreatest (seenAt seen) e.lastSeenAtMs

/-- All of it happened at one time. -/
def AtOnce (seen : List (RawRecord × Entity)) : Prop := ∀ p ∈ seen, ∀ q ∈ seen, p.1.occurredAtMs = q.1.occurredAtMs

instance (seen : List (RawRecord × Entity)) : Decidable (AtOnce seen) := by unfold AtOnce; infer_instance

theorem seen_of_mem {jobs : List Job} (hx : ∀ job ∈ jobs, ∀ p ∈ job.extracted, Extracts job.ownerId p.1 p.2) {x : String}
    {p : RawRecord × Entity} (hp : p ∈ sightingsOf jobs x) :
    p.2.firstSeenAtMs = p.1.occurredAtMs ∧ p.2.lastSeenAtMs = p.1.occurredAtMs := by
  obtain ⟨job, hjob, hp⟩ := List.mem_flatMap.mp (List.mem_filter.mp hp).1
  obtain ⟨q, hq, hp⟩ := List.mem_flatMap.mp hp
  obtain ⟨e, he, rfl⟩ := List.mem_map.mp hp
  obtain ⟨event, _, _, hent, _⟩ := (hx job hjob q hq).event
  exact (hent e he).seen

theorem exists_sighting {jobs : List Job} {x : String} {e : Entity}
    (he : (runAll jobs PropertyGraph.empty).entity? x = some e) : ∃ last, (last, e) ∈ sightingsOf jobs x := by
  have hnone : Store.entity? PropertyGraph.empty x = none := rfl
  rw [entity?_runAll, hnone, Option.or_none] at he
  obtain ⟨⟨last, e⟩, hlast, rfl⟩ := Option.map_eq_some_iff.mp he
  exact ⟨last, List.mem_of_getLast? hlast⟩

/-- A stored entity says when it was first and last seen exactly if all records that mention it are of one time. -/
theorem seen_between_iff (jobs : List Job) (hx : ∀ job ∈ jobs, ∀ p ∈ job.extracted, Extracts job.ownerId p.1 p.2)
    (x : String) (e : Entity) (he : (runAll jobs PropertyGraph.empty).entity? x = some e) :
    SeenBetween (sightingsOf jobs x) e ↔ AtOnce (sightingsOf jobs x) := by
  obtain ⟨last, hlast⟩ := exists_sighting he
  obtain ⟨hfirst, hlastSeen⟩ := seen_of_mem hx hlast
  dsimp only at hfirst hlastSeen
  have hmem : last.occurredAtMs ∈ seenAt (sightingsOf jobs x) := ⟨_, hlast, rfl⟩
  constructor
  · intro h
    have hall : ∀ p ∈ sightingsOf jobs x, p.1.occurredAtMs = last.occurredAtMs := by
      intro p hp
      have hle := h.first.2 ⟨p, hp, rfl⟩
      have hge := h.last.2 ⟨p, hp, rfl⟩
      omega
    intro p hp q hq
    rw [hall p hp, hall q hq]
  · intro h
    have hall : ∀ t ∈ seenAt (sightingsOf jobs x), t = last.occurredAtMs := by
      rintro t ⟨p, hp, rfl⟩
      exact h p hp _ hlast
    rw [← hfirst] at hmem hall
    refine ⟨⟨hmem, fun t ht => (hall t ht).ge⟩, ?_⟩
    rw [hlastSeen, ← hfirst]
    exact ⟨hmem, fun t ht => (hall t ht).le⟩

theorem seen_between_toRedis : SeenBetween (sightingsOf [toRedis] (atlas (noteRecord mockConnector false "r1" 1)).id)
    (atlas (noteRecord mockConnector false "r1" 1)) := by
  refine (seen_between_iff [toRedis] ?_ _ _ (by decide +kernel)).mpr (by decide +kernel)
  intro job hjob
  obtain rfl := List.mem_singleton.mp hjob
  exact Job.ofAnswers_extracts _

/-- A second note, written a day after the first, is the only one the project is seen in. -/
theorem second_note_is_first_sighting : ¬ ∀ jobs : List Job,
    (∀ job ∈ jobs, ∀ p ∈ job.extracted, Extracts job.ownerId p.1 p.2) → ∀ (x : String) (e : Entity),
      (runAll jobs PropertyGraph.empty).entity? x = some e → SeenBetween (sightingsOf jobs x) e := by
  intro h
  have hx : ∀ job ∈ [toRedis, toPostgres], ∀ p ∈ job.extracted, Extracts job.ownerId p.1 p.2 := by
    intro job hjob
    simp only [List.mem_cons, List.not_mem_nil, or_false] at hjob
    rcases hjob with rfl | rfl <;> exact Job.ofAnswers_extracts _
  have hseen := h [toRedis, toPostgres] hx (atlas (noteRecord mockConnector false "r2" 2)).id
    (atlas (noteRecord mockConnector false "r2" 2)) (by decide +kernel)
  have hearlier : (noteRecord mockConnector false "r1" 1, atlas (noteRecord mockConnector false "r1" 1)) ∈
      sightingsOf [toRedis, toPostgres] (atlas (noteRecord mockConnector false "r2" 2)).id := by decide +kernel
  exact absurd (hseen.first.2 ⟨_, hearlier, rfl⟩) (by decide)

end Memorai.Ingestion
