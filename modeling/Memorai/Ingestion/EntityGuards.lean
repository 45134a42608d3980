import Memorai.Ingestion.Nodes

/-! An entity that several records yield is stored with the guard of the last one alone. -/
namespace Memorai.Ingestion
open Schema Memorai.Graph Storage Extraction Resolver

/-- The entities of a batch, each with the record that yields it, in the order they are written. -/
def Job.sightings (job : Job) : List (RawRecord × Entity) :=
  job.extracted.flatMap (fun p => p.2.entities.map (fun e => (p.1, e)))

/-- All sightings of one entity. -/
def sightingsOf (jobs : List Job) (entityId : String) : List (RawRecord × Entity) :=
  (jobs.flatMap Job.sightings).filter (fun p => p.2.id = entityId)

/-- The guard of `e` covers each of its sightings. -/
structure Guarded (seen : List (RawRecord × Entity)) (e : Entity) : Prop where
  sources : ∀ p ∈ seen, p.1.connector ∈ e.acl.sources
  sensitivity : ∀ p ∈ seen, p.2.acl.sensitivity.rank ≤ e.acl.sensitivity.rank
  denied : ∀ (scope : Scope) (nowMs : Int), ∀ p ∈ seen,
    p.1.connector ∉ scope.sources ∨ scope.maxSensitivity.rank < p.2.acl.sensitivity.rank →
      evaluate scope e.acl nowMs ≠ .allow

/-- All records come from the connector of the last one, which is sensitive if any is. -/
def LastGuardsAll (records : List RawRecord) : Prop :=
  ∀ last ∈ records.getLast?, ∀ r ∈ records, r.connector = last.connector ∧ (r.sensitive → last.sensitive)

instance (records : List RawRecord) : Decidable (LastGuardsAll records) := by
  unfold LastGuardsAll
  cases records.getLast? with
  | none => exact isTrue (fun _ h => absurd h (by simp))
  | some last => exact decidable_of_iff (∀ r ∈ records, r.connector = last.connector ∧ (r.sensitive → last.sensitive)) (by simp)

theorem entity?_runAll (jobs : List Job) (s : Store) (x : String) :
    (runAll jobs s).entity? x = ((sightingsOf jobs x).getLast?.map Prod.snd).or (s.entity? x) := by
  induction jobs generalizing s with
  | nil => rfl
  | cons job jobs ih =>
    have hentities : (job.candidates.flatMap Candidate.entities).filter (fun e => e.id = x) =
        (job.sightings.filter (fun p => p.2.id = x)).map Prod.snd := by
      simp [Job.candidates, Job.sightings, List.flatMap_map, List.filter_flatMap, List.map_flatMap, List.filter_map,
        Function.comp_def]
    have hsplit : sightingsOf (job :: jobs) x = job.sightings.filter (fun p => p.2.id = x) ++ sightingsOf jobs x := by
      simp [sightingsOf]
    have hrun : runAll (job :: jobs) s = runAll jobs (job.run s) := rfl
    rw [hrun, ih, job.entity?_run, hentities, hsplit, List.getLast?_append, List.getLast?_map, Option.map_or, Option.or_assoc]

private theorem guard_of_mem {jobs : List Job} (hx : ∀ job ∈ jobs, ∀ p ∈ job.extracted, Extracts job.ownerId p.1 p.2)
    {x : String} {p : RawRecord × Entity} (hp : p ∈ sightingsOf jobs x) :
    p.2.acl.sources = [p.1.connector] ∧
      p.2.acl.sensitivity = if p.1.sensitive then .confidential else .personal := by
  obtain ⟨job, hjob, hp⟩ := List.mem_flatMap.mp (List.mem_filter.mp hp).1
  obtain ⟨q, hq, hp⟩ := List.mem_flatMap.mp hp
  obtain ⟨e, he, rfl⟩ := List.mem_map.mp hp
  obtain ⟨event, _, _, hent, _⟩ := (hx job hjob q hq).event
  rw [(hent e he).guard]
  exact ⟨rfl, rfl⟩

private theorem rank_le_iff (a b : Bool) :
    Sensitivity.rank (if a then .confidential else .personal) ≤ Sensitivity.rank (if b then .confidential else .personal) ↔
      (a → b) := by
  cases a <;> cases b <;> simp [Sensitivity.rank]

/-- The guard of a stored entity covers every record that yielded it exactly when the last of these
records covers the others. -/
theorem guarded_iff (jobs : List Job) (hx : ∀ job ∈ jobs, ∀ p ∈ job.extracted, Extracts job.ownerId p.1 p.2)
    (x : String) (e : Entity) (he : (runAll jobs PropertyGraph.empty).entity? x = some e) :
    Guarded (sightingsOf jobs x) e ↔ LastGuardsAll ((sightingsOf jobs x).map Prod.fst) := by
  rw [entity?_runAll] at he
  have hnone : Store.entity? PropertyGraph.empty x = none := rfl
  rw [hnone, Option.or_none] at he
  obtain ⟨⟨last, e⟩, hlast, rfl⟩ := Option.map_eq_some_iff.mp he
  have hrecord : ((sightingsOf jobs x).map Prod.fst).getLast? = some last := by rw [List.getLast?_map, hlast]; rfl
  obtain ⟨hsources, hsens⟩ := guard_of_mem hx (List.mem_of_getLast? hlast)
  dsimp only at hsources hsens ⊢
  constructor
  · intro h last' hl r hr
    rw [hrecord] at hl
    obtain rfl := Option.some.inj hl
    obtain ⟨p, hp, rfl⟩ := List.mem_map.mp hr
    have hle := h.sensitivity p hp
    rw [hsens, (guard_of_mem hx hp).2, rank_le_iff] at hle
    exact ⟨List.mem_singleton.mp (hsources ▸ h.sources p hp), hle⟩
  · intro h
    have hcover : ∀ p ∈ sightingsOf jobs x, p.1.connector = last.connector ∧ (p.1.sensitive → last.sensitive) :=
      fun p hp => h last hrecord p.1 (List.mem_map_of_mem hp)
    have hrank : ∀ p ∈ sightingsOf jobs x, p.2.acl.sensitivity.rank ≤
        Sensitivity.rank (if last.sensitive then .confidential else .personal) := by
      intro p hp
      rw [(guard_of_mem hx hp).2]
      exact (rank_le_iff _ _).mpr (hcover p hp).2
    rw [← hsens] at hrank
    refine ⟨fun p hp => ?_, hrank, fun scope nowMs p hp hout hallow => ?_⟩
    · rw [hsources, (hcover p hp).1]
      exact List.mem_singleton_self _
    · obtain ⟨_, _, _, ⟨_, hin⟩, _, _, _, hmax⟩ := (evaluate_allow_iff _ _ _).mp hallow
      rcases hout with hout | hout
      · refine hout (hin p.1.connector ?_)
        rw [hsources, (hcover p hp).1]
        exact List.mem_singleton_self _
      · have hle := hrank p hp
        omega

/-- The project as one note's record yields it. -/
def atlas (record : RawRecord) : Entity :=
  Llm.entityOf plain "alice" record "claude-extractor@v1" { kind := .project, name := "Atlas" }

theorem guarded_toPostgres : Guarded (sightingsOf [toRedis, toPostgres] (atlas (noteRecord mockConnector false "r2" 2)).id)
    (atlas (noteRecord mockConnector false "r2" 2)) := by
  refine (guarded_iff [toRedis, toPostgres] ?_ _ _ (by decide +kernel)).mpr (by decide +kernel)
  intro job hjob
  simp only [List.mem_cons, List.not_mem_nil, or_false] at hjob
  rcases hjob with rfl | rfl <;> exact Job.ofAnswers_extracts _

def github : SourceId := ⟨"github", by decide⟩

/-- A sensitive commit about a project, and later a plain note about it. -/
def commitThenNote : List Job :=
  [.ofAnswers [(noteRecord github true "c1" 1, aboutProject "Atlas" [])],
   .ofAnswers [(noteRecord mockConnector false "r2" 2, aboutProject "Atlas" [])]]

/-- The note alone decides who may see the project. -/
theorem note_reopens_project : ¬ ∀ jobs : List Job,
    (∀ job ∈ jobs, ∀ p ∈ job.extracted, Extracts job.ownerId p.1 p.2) → ∀ (x : String) (e : Entity),
      (runAll jobs PropertyGraph.empty).entity? x = some e → Guarded (sightingsOf jobs x) e := by
  intro h
  have hx : ∀ job ∈ commitThenNote, ∀ p ∈ job.extracted, Extracts job.ownerId p.1 p.2 := by
    intro job hjob
    simp only [commitThenNote, List.mem_cons, List.not_mem_nil, or_false] at hjob
    rcases hjob with rfl | rfl <;> exact Job.ofAnswers_extracts _
  have hg := h commitThenNote hx (atlas (noteRecord mockConnector false "r2" 2)).id
    (atlas (noteRecord mockConnector false "r2" 2)) (by decide +kernel)
  have hcommit : (noteRecord github true "c1" 1, atlas (noteRecord github true "c1" 1)) ∈
      sightingsOf commitThenNote (atlas (noteRecord mockConnector false "r2" 2)).id := by decide +kernel
  exact absurd (hg.sources _ hcommit) (by decide)

end Memorai.Ingestion
