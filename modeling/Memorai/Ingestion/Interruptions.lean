import Memorai.Ingestion.Citing
import Memorai.Ingestion.Splits
import Memorai.Resolution.Resumption

/-! A run that stops in the middle of its writing, and the same records ingested again. -/
namespace Memorai.Ingestion
open Schema Memorai.Graph Storage Extraction Resolver Memorai.Lists

/-- The first `n` statements of the run, and nothing more. -/
def Job.stopped (job : Job) (n : Nat) (s : Store) : Store := execAll ((job.ops s).take n) s

/-- Runs one after the other, each stopped somewhere or carried to its end. -/
def attemptAll (attempts : List (Job × Nat)) (s : Store) : Store := attempts.foldl (fun s a => a.1.stopped a.2 s) s

/-- A record and what was extracted from it, whenever it was ingested. -/
def anytime (p : RawRecord × Candidate) : RawRecord × Candidate := (p.1, p.2.unstamped)

/-- The same records with the same extractor output, ingested at another time. -/
structure Retry (job again : Job) : Prop where
  owner : again.ownerId = job.ownerId
  extracted : again.extracted.map anytime = job.extracted.map anytime

/-- What is stored of a claim, up to what resolution decides and to when it was ingested. -/
def payload (c : Claim) : Claim := (bare c).unstamped

/-- The claims the run is to write, as they were extracted. -/
def Job.due (job : Job) (s : Store) : List Claim := job.claims.filter (Job.fresh s)

/-- How many claims are stored when the run stops. -/
def Job.begun (job : Job) (s : Store) (n : Nat) : Nat := (((job.ops s).take n).filterMap StoreOp.claim?).length

/-- The claims begun, as they are settled when the turn of the others comes. -/
def Job.headway (job : Job) (s : Store) (n : Nat) : List Claim :=
  settleAll [] (((job.due s).take (job.begun s n)).map (ask job.rows s job.ownerId))

/-- The statements of the claim in progress that the run did not come to. -/
def Job.omitted (job : Job) (s : Store) (n : Nat) : List StoreOp := unfinished ((job.ops s).take n)

/-- A claim that is new to the run finds this stored one live, conflicting and asserted earlier. -/
def Job.Overtakes (job : Job) (s : Store) (x : String) : Prop :=
  ∃ c ∈ job.due s, ∃ t < c.assertedAtMs, Sees c (storedAbout job.rows s job.ownerId c) x t

/-- What was omitted of the claim in progress is there already, or the second run makes up for it. -/
structure NothingLost (job again : Job) (s : Store) (n : Nat) : Prop where
  links : ∀ e ∈ (execAll (job.omitted s n) (job.stopped n s)).edges, e ∈ (job.stopped n s).edges
  marks : ∀ x, marked (job.omitted s n) x → ∀ c, (job.stopped n s).claim? x = some c →
    c.status = .superseded ∨ again.Overtakes (job.stopped n s) x

/-- No claim that was not begun has the id of one that was. -/
def BegunApart (job : Job) (s : Store) (n : Nat) : Prop :=
  ∀ c ∈ (job.due s).take (job.begun s n), ∀ d ∈ (job.due s).drop (job.begun s n), c.id ≠ d.id

instance (job : Job) (s : Store) (n : Nat) : Decidable (BegunApart job s n) := by unfold BegunApart; infer_instance

/-- The second run goes on where the first one stopped after `n` statements: every claim that was not begun is
still new to it, and reads back what decides about it in the whole run. -/
structure Resumes (job again : Job) (s : Store) (n : Nat) : Prop where
  apart : BegunApart job s n
  reread : EveryTurn (Reread (storedAbout again.rows (job.stopped n s) job.ownerId) (job.begun s n)) (job.headway s n)
    (((job.due s).drop (job.begun s n)).map (ask job.rows s job.ownerId))

section Fresh
variable {s : Store} {rows : RowOrder Claim} {ownerId : String} {cs : List Claim} {ps : List Claim}

theorem found_iff (c : Claim) : (ask rows s ownerId c).found = false ↔ Job.fresh s c := by
  cases h : s.get c.id <;> simp [ask, Job.fresh, h]

end Fresh

section Retry
variable {s : Store} {job again : Job} {n : Nat}

theorem Retry.claims (h : Retry job again) : again.claims.map Claim.unstamped = job.claims.map Claim.unstamped := by
  have hall : ∀ j : Job, j.claims.map Claim.unstamped =
      (j.extracted.map anytime).flatMap (fun p => p.2.claims) := by
    intro j
    simp only [Job.claims, Job.candidates, List.map_flatMap, List.flatMap_map, anytime, Candidate.unstamped]
  rw [hall, hall, h.extracted]

theorem Keyed.stopped (hs : Keyed s) (job : Job) (n : Nat) : Keyed (job.stopped n s) :=
  hs.execAll (fun _ hop => List.mem_of_mem_take hop)

theorem ids_due (job : Job) (s : Store) : (job.due s).map Claim.id = (job.pending s).map Claim.id := by
  have hids := congrArg (List.map Claim.id) (job.pending_bare s)
  rw [List.map_map, List.map_map] at hids
  exact hids.symm

private theorem Resumes.unstarted (h : again.rows = job.rows) : Resumes job again s 0 where
  apart c hc := absurd hc (by simp [Job.begun])
  reread := by
    refine .of_forall (fun q hq now => ?_)
    obtain ⟨c, _, rfl⟩ := List.mem_map.mp hq
    have hreads : storedAbout again.rows (job.stopped 0 s) job.ownerId c = (ask job.rows s job.ownerId c).stored := by
      rw [h]
      rfl
    have hbegun : job.begun s 0 = 0 := rfl
    rw [hbegun]
    -- Nothing was begun, and the second run reads the same rows in the same order.
    refine ⟨?_, ?_, ?_⟩ <;> rw [show (ask job.rows s job.ownerId c).claim = c from rfl, hreads]
    · exact sameIds_iff.mpr (fun _ => by rw [List.take_zero, List.append_nil])
    · exact sameIds_iff.mpr (fun _ => by rw [List.take_zero, List.append_nil])
    · rw [List.drop_zero]

private theorem Resumes.finished (hs : Keyed s) (hn : (job.ops s).length ≤ n) : Resumes job again s n := by
  have hbegun : (job.due s).length ≤ job.begun s n := by
    rw [Job.begun, List.take_of_length_le hn, (job.lays hs).writes, ← List.length_map Claim.id, ids_due, List.length_map]
  have hdrop : (job.due s).drop (job.begun s n) = [] := List.drop_eq_nil_of_le hbegun
  refine ⟨?_, ?_⟩
  · rw [BegunApart, hdrop]
    exact fun _ _ _ hd => absurd hd List.not_mem_nil
  · rw [hdrop]
    trivial

/-- Between two claims nothing is omitted. -/
theorem NothingLost.of_omitted (h : job.omitted s n = []) : NothingLost job again s n where
  links e he := by rwa [h] at he
  marks x hx := absurd (show marked [] x from h ▸ hx) List.not_mem_nil

/-- At either end of a run there is nothing to make up for, whatever its batch repeats. -/
theorem resumes_ends (hs : Keyed s) (hrows : again.rows = job.rows) (hn : n = 0 ∨ (job.ops s).length ≤ n) :
    Resumes job again s n ∧ NothingLost job again s n := by
  rcases hn with rfl | hn
  · exact ⟨.unstarted hrows, .of_omitted rfl⟩
  · refine ⟨.finished hs hn, .of_omitted ?_⟩
    rw [Job.omitted, List.take_of_length_le hn, (job.lays hs).finished]

end Retry

end Memorai.Ingestion
