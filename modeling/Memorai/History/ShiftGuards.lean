import Memorai.History.Parts
import Memorai.Ingestion.Nodes

/-! What a grant must allow before a shift history lists a citation, and what that means for the
event behind the citation. -/
namespace Memorai.History
open Schema Memorai.Graph Storage Extraction Resolver Ingestion

section Read
variable {fmt : Formatting} {rows : RowOrder Row} {s : Store} {scope : Scope} {claimId : String} {nowMs : Int}

theorem mem_of_supersessionChain {ownerId : String} {maxHops : Nat} {r : Row}
    (h : r ∈ s.supersessionChain ownerId claimId maxHops) : r ∈ s.nodes := by
  unfold Store.supersessionChain at h
  split at h
  · exact (List.mem_filter.mp ((List.mem_insertionSort _).mp h)).1
  · exact absurd h List.not_mem_nil

theorem mem_of_getMany {ownerId : String} {nodeIds : List String} {r : Row} (h : r ∈ s.getMany rows ownerId nodeIds) :
    r ∈ s.nodes :=
  (List.mem_filter.mp ((rows.perm _).mem_iff.mp h)).1

/-- The walk returns stored claims only. -/
theorem stored_of_walk {c : Claim} (h : c ∈ (walk rows s scope claimId).candidates) : s.claim? c.id = some c := by
  obtain ⟨r, hr, hc⟩ := List.mem_filterMap.mp h
  have hnode : r ∈ s.nodes := by
    rcases List.mem_append.mp hr with hr | hr
    · exact mem_of_supersessionChain hr
    · exact mem_of_getMany (List.mem_ite_nil_left.mp hr).2
  exact (Store.claim?_eq_some_iff s c.id c).mpr ⟨r, hnode, hc, rfl⟩

theorem verdict_eq_none_iff (claim : Claim) : verdict scope nowMs claim = none ↔ evaluate scope claim.acl nowMs = .allow := by
  unfold verdict
  split <;> simp [*]

/-- The verdict looked up for an assembled claim is its own. -/
theorem reason_of_mem {candidates : List Claim} {k : String} {c : Claim}
    (h : (k, c) ∈ Dict.collect Claim.id id candidates) :
    Verdicts.reason (Dict.collect Claim.id (verdict scope nowMs) candidates) k = verdict scope nowMs c := by
  have hmap : Dict.collect Claim.id (verdict scope nowMs) candidates = _ :=
    Dict.collect_map Claim.id id (verdict scope nowMs) candidates
  have hin : (k, verdict scope nowMs c) ∈ Dict.collect Claim.id (verdict scope nowMs) candidates := by
    rw [hmap]
    exact List.mem_map.mpr ⟨(k, c), h, rfl⟩
  rw [Verdicts.reason, Dict.lookup_collect hin]
  rfl

theorem step_of_assemble {walked : Walk} {verdicts : Verdicts} {denials : List Denial} {st : Step}
    (h : st ∈ (assemble fmt claimId walked verdicts denials).steps) :
    ∃ a b, a ∈ walked.candidates ∧ b ∈ walked.candidates ∧ (a.id, a) ∈ Dict.collect Claim.id id walked.candidates ∧
      (b.id, b) ∈ Dict.collect Claim.id id walked.candidates ∧ st = step a b verdicts := by
  rw [assemble_eq] at h
  dsimp only at h
  split at h
  · exact absurd h List.not_mem_nil
  · split at h
    · exact absurd h List.not_mem_nil
    · obtain ⟨⟨j, a⟩, hja, k, _, b, hb, rfl⟩ := (mem_stepsOf _ _).mp h
      have hkb := Dict.mem_of_lookup hb
      obtain ⟨a', ha', hea⟩ := Dict.mem_collect _ hja
      obtain ⟨b', hb', heb⟩ := Dict.mem_collect _ hkb
      obtain ⟨rfl, rfl⟩ := Prod.mk.inj hea
      obtain ⟨rfl, rfl⟩ := Prod.mk.inj heb
      exact ⟨_, _, ha', hb', hja, hkb, rfl⟩

/-- The two claims of a step are stored. Its citations are those of the later one, and they are listed
only where the grant allows both. -/
theorem step_spec {st : Step} (h : st ∈ (whyDidThisShift fmt rows s scope claimId nowMs).steps) :
    ∃ a b, s.claim? a.id = some a ∧ s.claim? b.id = some b ∧ st.superseding = claimView a (verdict scope nowMs a) ∧
      st.superseded = claimView b (verdict scope nowMs b) ∧ ∀ cit ∈ st.newCitations,
        evaluate scope a.acl nowMs = .allow ∧ evaluate scope b.acl nowMs = .allow ∧
          ∃ d ∈ a.provenance.citations, cit = citationView d := by
  obtain ⟨a, b, ha, hb, hka, hkb, rfl⟩ := step_of_assemble h
  have hra : Verdicts.reason _ a.id = verdict scope nowMs a := reason_of_mem hka
  have hrb : Verdicts.reason _ b.id = verdict scope nowMs b := reason_of_mem hkb
  refine ⟨a, b, stored_of_walk ha, stored_of_walk hb, by rw [← hra]; rfl, by rw [← hrb]; rfl, fun cit hcit => ?_⟩
  unfold step at hcit
  dsimp only at hcit
  rw [hra, hrb] at hcit
  split at hcit
  · rename_i hboth
    obtain ⟨d, hd, rfl⟩ := List.mem_map.mp hcit
    exact ⟨(verdict_eq_none_iff a).mp hboth.1, (verdict_eq_none_iff b).mp hboth.2, d, (List.mem_filter.mp hd).1, rfl⟩
  · exact absurd hcit List.not_mem_nil

end Read

/-- Two ingested records stand for the same event and guard it differently. -/
def GuardChanged (jobs : List Job) (eventId : String) : Prop :=
  ∃ p ∈ jobs.flatMap Job.extracted, ∃ q ∈ jobs.flatMap Job.extracted,
    (∃ e ∈ p.2.events, e.id = eventId) ∧ (∃ e ∈ q.2.events, e.id = eventId) ∧
      ¬ (p.1.connector = q.1.connector ∧ p.1.occurredAtMs = q.1.occurredAtMs ∧ p.1.sensitive = q.1.sensitive)

/-- The event a readable claim cites is readable too, but for the entity kinds of its record, or for a
guard that changed when the record was ingested again. -/
theorem cited_event_guarded {jobs : List Job} (hx : ∀ job ∈ jobs, ∀ p ∈ job.extracted, Extracts job.ownerId p.1 p.2)
    {scope : Scope} {nowMs : Int} {x : String} {a : Claim} {d : Citation} {e : Event}
    (ha : (runAll jobs PropertyGraph.empty).claim? x = some a) (hallow : evaluate scope a.acl nowMs = .allow)
    (hd : d ∈ a.provenance.citations) (he : (runAll jobs PropertyGraph.empty).event? d.eventId = some e)
    (howner : e.ownerId = scope.ownerId) :
    evaluate scope e.acl nowMs = .allow ∨ evaluate scope e.acl nowMs = .deny .entityKindNotInScope ∨
      GuardChanged jobs d.eventId := by
  obtain ⟨job, hjob, p, hp, c, hc, hbare⟩ := claim_origin ha
  obtain ⟨job', hjob', q, hq, ev', hev', hid, hkept⟩ := event_origin he
  obtain ⟨ev, hev, _, _, hclaims⟩ := (hx job hjob p hp).event
  obtain ⟨ev'', hsole, hof, _, _⟩ := (hx job' hjob' q hq).event
  rw [hsole] at hev'
  obtain rfl := List.mem_singleton.mp hev'
  have hprov : a.provenance = c.provenance := eq_of_bare Claim.provenance (fun _ => rfl) hbare
  have hacl : a.acl = c.acl := eq_of_bare Claim.acl (fun _ => rfl) hbare
  have hcited : d.eventId = ev.id := ((hclaims c hc).cites d (hprov ▸ hd)).1
  obtain ⟨kinds, hguard, _⟩ := (hclaims c hc).guard
  obtain ⟨kinds', hguard', _⟩ := hof.guard
  obtain ⟨hsame, hacl'⟩ := Job.guard_of_kept hkept
  by_cases hagree : p.1.connector = q.1.connector ∧ p.1.occurredAtMs = q.1.occurredAtMs ∧ p.1.sensitive = q.1.sensitive
  · have hrest : { e.acl with ownerId := a.acl.ownerId, entityKinds := a.acl.entityKinds } = a.acl := by
      rw [hacl', hguard', hacl, hguard]
      simp [acl, hagree]
    have heo : scope.ownerId = e.acl.ownerId := by
      rw [hacl', hguard', ← howner, hsame, hof.owner]
      rfl
    exact (evaluate_of_other_kinds hallow heo hrest).imp id Or.inl
  · refine Or.inr (Or.inr ⟨p, List.mem_flatMap.mpr ⟨job, hjob, hp⟩, q, List.mem_flatMap.mpr ⟨job', hjob', hq⟩, ?_, ?_, hagree⟩)
    · exact ⟨ev, by rw [hev]; exact List.mem_singleton_self _, hcited.symm⟩
    · exact ⟨ev', by rw [hsole]; exact List.mem_singleton_self _, hid⟩

/-- A step lists new citations only where the grant allows both of its claims, and the stored event
behind such a citation is then denied for its entity kinds at most, unless its guard changed. -/
theorem new_citations_guarded (jobs : List Job) (hx : ∀ job ∈ jobs, ∀ p ∈ job.extracted, Extracts job.ownerId p.1 p.2)
    (fmt : Formatting) (rows : RowOrder Row) (scope : Scope) (claimId : String) (nowMs : Int) (st : Step)
    (hst : st ∈ (whyDidThisShift fmt rows (runAll jobs PropertyGraph.empty) scope claimId nowMs).steps) :
    ∃ a b, (runAll jobs PropertyGraph.empty).claim? a.id = some a ∧ (runAll jobs PropertyGraph.empty).claim? b.id = some b ∧
      st.superseding = claimView a (verdict scope nowMs a) ∧ st.superseded = claimView b (verdict scope nowMs b) ∧
      ∀ cit ∈ st.newCitations, evaluate scope a.acl nowMs = .allow ∧ evaluate scope b.acl nowMs = .allow ∧
        ∀ e, (runAll jobs PropertyGraph.empty).event? cit.eventId = some e → e.ownerId = scope.ownerId →
          evaluate scope e.acl nowMs = .allow ∨ evaluate scope e.acl nowMs = .deny .entityKindNotInScope ∨
            GuardChanged jobs cit.eventId := by
  obtain ⟨a, b, ha, hb, hsa, hsb, hcit⟩ := step_spec hst
  refine ⟨a, b, ha, hb, hsa, hsb, fun cit hc => ?_⟩
  obtain ⟨hallow, hallow', d, hd, rfl⟩ := hcit cit hc
  exact ⟨hallow, hallow', fun e he howner => cited_event_guarded hx ha hallow hd he howner⟩

def mockFormat : Formatting := ⟨id, toString⟩

/-- A grant for projects of the mock source. -/
def projectsOnly : Scope where
  agentId := "agent"
  ownerId := "alice"
  sources := [mockConnector]
  entityKinds := [.project]

/-- The move to Postgres, in a record that mentions a person as well. -/
def danaToPostgres : Job :=
  .ofAnswers [(noteRecord mockConnector false "r2" 2,
    { entities := [{ kind := .project, name := "Atlas" }, { kind := .person, name := "Dana" }]
      claims := [{ statement := "project Atlas will use Postgres.", subjects := ["Atlas"] }] })]

/-- The step from Redis to Postgres, both claims visible. -/
def toPostgresStep : Step :=
  step { soleClaim danaToPostgres with supersedes := [(soleClaim toRedis).id] }
    { soleClaim toRedis with status := .superseded } []

theorem danaToPostgres_extracts : ∀ job ∈ [toRedis, danaToPostgres], ∀ p ∈ job.extracted,
    Extracts job.ownerId p.1 p.2 := by
  intro job hjob
  simp only [List.mem_cons, List.not_mem_nil, or_false] at hjob
  rcases hjob with rfl | rfl <;> exact Job.ofAnswers_extracts _

private theorem toPostgresStep_mem : toPostgresStep ∈ (whyDidThisShift mockFormat .asStored
    (runAll [toRedis, danaToPostgres] PropertyGraph.empty) projectsOnly (soleClaim toRedis).id 10).steps := by
  decide +kernel

theorem new_citations_guarded_toPostgres : ∃ a b,
    (runAll [toRedis, danaToPostgres] PropertyGraph.empty).claim? a.id = some a ∧
    (runAll [toRedis, danaToPostgres] PropertyGraph.empty).claim? b.id = some b ∧
    toPostgresStep.superseding = claimView a (verdict projectsOnly 10 a) ∧
    toPostgresStep.superseded = claimView b (verdict projectsOnly 10 b) ∧
    ∀ cit ∈ toPostgresStep.newCitations, evaluate projectsOnly a.acl 10 = .allow ∧ evaluate projectsOnly b.acl 10 = .allow ∧
      ∀ e, (runAll [toRedis, danaToPostgres] PropertyGraph.empty).event? cit.eventId = some e →
        e.ownerId = projectsOnly.ownerId → evaluate projectsOnly e.acl 10 = .allow ∨
          evaluate projectsOnly e.acl 10 = .deny .entityKindNotInScope ∨ GuardChanged [toRedis, danaToPostgres] cit.eventId :=
  new_citations_guarded [toRedis, danaToPostgres] danaToPostgres_extracts mockFormat .asStored projectsOnly
    (soleClaim toRedis).id 10 toPostgresStep toPostgresStep_mem

/-- The record is closed to the grant because of the person, its claim is not, and the step lists the record. -/
theorem denied_event_listed : ¬ ∀ jobs : List Job, (∀ job ∈ jobs, ∀ p ∈ job.extracted, Extracts job.ownerId p.1 p.2) →
    ∀ (fmt : Formatting) (rows : RowOrder Row) (scope : Scope) (claimId : String) (nowMs : Int),
      ∀ st ∈ (whyDidThisShift fmt rows (runAll jobs PropertyGraph.empty) scope claimId nowMs).steps,
        ∀ cit ∈ st.newCitations, ∀ e, (runAll jobs PropertyGraph.empty).event? cit.eventId = some e →
          e.ownerId = scope.ownerId → evaluate scope e.acl nowMs = .allow := by
  intro h
  have hall := h [toRedis, danaToPostgres] danaToPostgres_extracts mockFormat .asStored projectsOnly
    (soleClaim toRedis).id 10 toPostgresStep toPostgresStep_mem
  have hdenied : ∃ cit ∈ toPostgresStep.newCitations, ((runAll [toRedis, danaToPostgres] PropertyGraph.empty).event?
      cit.eventId).any (fun e => e.ownerId = projectsOnly.ownerId ∧ evaluate projectsOnly e.acl 10 ≠ .allow) := by
    decide +kernel
  obtain ⟨cit, hcit, hev⟩ := hdenied
  obtain ⟨e, he, hno⟩ := (Option.any_eq_true _ _).mp hev
  obtain ⟨howner, hno⟩ := of_decide_eq_true hno
  exact hno (hall cit hcit e he howner)

end Memorai.History
