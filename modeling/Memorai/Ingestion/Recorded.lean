import Memorai.Extraction.Wordings
import Memorai.Ingestion.Reingest

/-! Which of the claims that runs extract are stored with all they say. -/
namespace Memorai.Ingestion
open Schema Memorai.Graph Storage Extraction Resolver

/-- Every claim that was extracted is stored under its id, with its statement, its parties and its deadline. -/
def Recorded (jobs : List Job) : Prop := ∀ c ∈ jobs.flatMap Job.claims,
  ∃ a, (runAll jobs PropertyGraph.empty).claim? c.id = some a ∧ contents a = contents c

/-- The ids of all claims extracted are stored, and under each one of the claims that have it. -/
structure Covers (jobs : List Job) (s : Store) : Prop where
  sound : Sound s
  stored : ∀ c ∈ jobs.flatMap Job.claims, ∃ a, s.claim? c.id = some a
  extracted : ∀ x a, s.claim? x = some a → ∃ c ∈ jobs.flatMap Job.claims, c.id = x ∧ bare a = bare c

theorem contents_of_bare {a c : Claim} (h : bare a = bare c) : contents a = contents c := eq_of_bare contents (fun _ => rfl) h

theorem Covers.concat {jobs : List Job} {s : Store} (h : Covers jobs s) (job : Job) : Covers (jobs ++ [job]) (job.run s) := by
  refine ⟨h.sound.run job, fun c hc => ?_, fun x a ha => ?_⟩
  · rw [List.flatMap_append, List.flatMap_singleton] at hc
    rcases List.mem_append.mp hc with hc | hc
    · obtain ⟨a, ha⟩ := h.stored c hc
      exact ⟨_, job.claim?_run_of_stored ha⟩
    · exact (Store.claim?_isSome_iff _ _).mpr (job.stores_claim h.sound.tagged hc)
  · rw [List.flatMap_append, List.flatMap_singleton]
    rcases job.claim?_run_cases ha with ⟨c, hc, rfl⟩ | ⟨b, hb, rfl, _, post, _, rfl⟩
    · obtain ⟨d, hd, hid, hbare⟩ := h.extracted x c hc
      exact ⟨d, List.mem_append_left _ hd, hid, (bare_touch _ c).trans hbare⟩
    · have hin := List.mem_map_of_mem (f := bare) hb
      rw [job.pending_bare s] at hin
      obtain ⟨d, hd, hbare⟩ := List.mem_map.mp hin
      exact ⟨d, List.mem_append_right _ (List.mem_filter.mp hd).1, eq_of_bare Claim.id (fun _ => rfl) hbare,
        (bare_touch post b).trans hbare.symm⟩

theorem covers_runAll (jobs : List Job) : Covers jobs (runAll jobs PropertyGraph.empty) := by
  induction jobs using List.reverseRecOn with
  | nil => exact ⟨Sound.empty, fun c hc => absurd hc List.not_mem_nil, fun x a ha => absurd ha (by simp [runAll, Store.claim?])⟩
  | append_singleton jobs job ih =>
    rw [runAll_concat]
    exact ih.concat job

/-- Claims are stored with all they say exactly if those that share an id say the same. -/
theorem recorded_iff (jobs : List Job) : Recorded jobs ↔
    ∀ c ∈ jobs.flatMap Job.claims, ∀ c' ∈ jobs.flatMap Job.claims, c.id = c'.id → contents c = contents c' := by
  constructor
  · intro h c hc c' hc' hid
    obtain ⟨a, ha, hsame⟩ := h c hc
    obtain ⟨a', ha', hsame'⟩ := h c' hc'
    rw [hid, ha', Option.some.injEq] at ha
    rw [← hsame, ← hsame', ha]
  · intro h c hc
    have hcovers := covers_runAll jobs
    obtain ⟨a, ha⟩ := hcovers.stored c hc
    obtain ⟨d, hd, hid, hbare⟩ := hcovers.extracted c.id a ha
    exact ⟨a, ha, (contents_of_bare hbare).trans (h d hd c hc hid)⟩

section Readings

/-- A run with what its extractor read of each record, and when. -/
structure Reading (env : Ambient) where
  job : Job
  readers : List (Int × Reader)
  reads : List.Forall₂ (fun (p : RawRecord × Candidate) (r : Int × Reader) =>
    r.2.extract { env with nowMs := r.1 } job.ownerId p.1 = .ok p.2) job.extracted readers

variable {env : Ambient}

def entriesOf (env : Ambient) (ownerId : String) (extracted : List (RawRecord × Candidate)) (readers : List (Int × Reader)) : List Entry :=
  (extracted.zip readers).flatMap (fun (p, r) => (r.2.told env p.1).map (fun told => ⟨ownerId, p.1, told⟩))

def Reading.entries (reading : Reading env) : List Entry :=
  entriesOf env reading.job.ownerId reading.job.extracted reading.readers

theorem entries_bear {ownerId : String} {extracted : List (RawRecord × Candidate)} {readers : List (Int × Reader)}
    (h : List.Forall₂ (fun (p : RawRecord × Candidate) (r : Int × Reader) =>
      r.2.extract { env with nowMs := r.1 } ownerId p.1 = .ok p.2) extracted readers) :
    List.Forall₂ (fun (e : Entry) c => Bears env e.ownerId e.record e.told c) (entriesOf env ownerId extracted readers)
      ((extracted.map Prod.snd).flatMap Candidate.claims) := by
  induction h with
  | nil => exact .nil
  | cons hread _ ih =>
    refine List.rel_append ?_ ih
    rw [List.forall₂_map_left_iff]
    exact (Reader.bears hread).imp (fun told claim hbears => ⟨hbears.id, hbears.statement, hbears.obligation⟩)

theorem readings_bear (readings : List (Reading env)) :
    List.Forall₂ (fun (e : Entry) c => Bears env e.ownerId e.record e.told c) (readings.flatMap Reading.entries)
      ((readings.map Reading.job).flatMap Job.claims) := by
  induction readings with
  | nil => exact .nil
  | cons reading readings ih => exact List.rel_append (entries_bear reading.reads) ih

theorem recorded_readings_iff (hdigest : Function.Injective env.digest) (readings : List (Reading env)) :
    Recorded (readings.map Reading.job) ↔ OnOneTerms env (readings.flatMap Reading.entries) := by
  rw [recorded_iff]
  exact contents_of_id_iff hdigest (readings_bear readings)

theorem recorded_prefixes_iff (hdigest : Function.Injective env.digest) (readings : List (Reading env)) :
    (∀ n, Recorded ((readings.take n).map Reading.job)) ↔ OnOneTerms env (readings.flatMap Reading.entries) := by
  constructor
  · intro h
    have hall := h readings.length
    rw [List.take_length] at hall
    exact (recorded_readings_iff hdigest readings).mp hall
  · intro h n
    refine (recorded_readings_iff hdigest _).mpr (h.mono ?_)
    intro e he
    obtain ⟨reading, hreading, he⟩ := List.mem_flatMap.mp he
    exact List.mem_flatMap.mpr ⟨reading, List.mem_of_mem_take hreading, he⟩

end Readings

/-- The ids of a record's claims tell what these say exactly if no wording of it is on two terms, and runs store every claim
with all it says exactly if nothing of what they are told under one id is. -/
theorem obligations_told_apart_iff (env : Ambient) (hdigest : Function.Injective env.digest) :
    (∀ ownerId record (reader : Reader) candidate, reader.extract env ownerId record = .ok candidate →
      (IdsTellContents candidate.claims ↔ OneObligationEach (reader.told env record))) ∧
    ∀ readings : List (Reading env),
      (∀ n, Recorded ((readings.take n).map Reading.job)) ↔ OnOneTerms env (readings.flatMap Reading.entries) :=
  ⟨fun _ _ _ _ h => idsTellContents_iff hdigest (Reader.bears h), fun readings => recorded_prefixes_iff hdigest readings⟩

def promiseOf (person obligation : String) : Mock.CommitmentMatch where
  whole := person ++ " committed that " ++ obligation ++ "."
  owedBy := person
  obligation := obligation

/-- A note of what Alice and Bob committed to, and what the patterns find in it. -/
def promises (ofAlice ofBob : String) : RawRecord :=
  { noteRecord mockConnector false "r1" 1 with
    body := "Alice committed that " ++ ofAlice ++ ". Bob committed that " ++ ofBob ++ "." }

def promisesIn (ofAlice ofBob : String) : Mock.Matches where
  commitments := [promiseOf "Alice" ofAlice, promiseOf "Bob" ofBob]
  projects := ["Atlas", "Atlas"]

def promisesJob (ofAlice ofBob : String) : Job := .ofRecords plain (fun _ => promisesIn ofAlice ofBob) [promises ofAlice ofBob]

def readPromises (ofAlice ofBob : String) : Reader := .patterns (fun _ => promisesIn ofAlice ofBob)

def shipAndWait : Reading plain where
  job := promisesJob "project Atlas will ship" "project Atlas will wait"
  readers := [(1000, readPromises "project Atlas will ship" "project Atlas will wait")]
  reads := .cons rfl .nil

theorem obligations_told_apart_shipAndWait :
    (∃ candidate, (readPromises "project Atlas will ship" "project Atlas will wait").extract plain "alice"
        (promises "project Atlas will ship" "project Atlas will wait") = .ok candidate ∧ IdsTellContents candidate.claims) ∧
      ∀ n, Recorded (([shipAndWait].take n).map Reading.job) := by
  obtain ⟨hrecord, hruns⟩ := obligations_told_apart_iff plain (fun _ _ h => h)
  have hextract : ∃ candidate, (readPromises "project Atlas will ship" "project Atlas will wait").extract plain "alice"
      (promises "project Atlas will ship" "project Atlas will wait") = .ok candidate := ⟨_, rfl⟩
  obtain ⟨candidate, hcandidate⟩ := hextract
  refine ⟨⟨candidate, hcandidate, (hrecord _ _ _ _ hcandidate).mpr ?_⟩, (hruns [shipAndWait]).mpr ?_⟩
  · unfold OneObligationEach
    decide +kernel
  · unfold OnOneTerms
    decide +kernel

/-- Alice and Bob promise the same. Bob's commitment is stored, and Alice's is not. -/
theorem one_sentence_of_two :
    ¬IdsTellContents (promisesJob "project Atlas will ship" "project Atlas will ship").claims ∧
      ∃ c ∈ (promisesJob "project Atlas will ship" "project Atlas will ship").claims,
        ∀ a ∈ ((promisesJob "project Atlas will ship" "project Atlas will ship").run PropertyGraph.empty).nodes.filterMap Row.claim?,
          obligation a ≠ obligation c := by
  constructor
  · unfold IdsTellContents
    decide +kernel
  · decide +kernel

end Memorai.Ingestion
