import Memorai.Ingestion.Nodes

/-! A sensitive record that could not be sealed: its event is held back, its entities and claims are not. -/
namespace Memorai.Ingestion
open Schema Memorai.Graph Storage Extraction Resolver

/-- The records the `encrypt` node hands over: sensitive ones of the batch, one for each external id. -/
theorem sensitiveRecords_spec (records : List RawRecord) :
    ((sensitiveRecords records).map Prod.fst).Nodup ∧
      (∀ p ∈ sensitiveRecords records, p.2 ∈ records ∧ p.2.sensitive ∧ p.1 = p.2.externalId) ∧
      ∀ x, x ∈ (sensitiveRecords records).map Prod.fst ↔ needsSeal records x := by
  refine ⟨Dict.nodup_keys_collect _ _ _, fun p hp => ?_, fun x => ?_⟩
  · obtain ⟨r, hr, rfl⟩ := Dict.mem_collect _ hp
    exact ⟨(List.mem_filter.mp hr).1, (List.mem_filter.mp hr).2, rfl⟩
  · have hneeds : needsSeal records x ↔ ∃ r ∈ records, r.externalId = x ∧ r.sensitive := by simp [needsSeal]
    rw [hneeds, sensitiveRecords, Dict.mem_keys_collect]
    simp only [List.mem_filter]
    exact exists_congr (fun r => ⟨fun ⟨⟨hr, hs⟩, he⟩ => ⟨hr, he, hs⟩, fun ⟨hr, he, hs⟩ => ⟨⟨hr, hs⟩, he⟩⟩)

/-- The seal call for this record was made and raised. -/
def SealFailed (job : Job) (r : RawRecord) : Prop :=
  (r.externalId, r) ∈ sensitiveRecords job.records ∧ ∃ exc, job.sealBody r = .error exc

/-- One body handed to the gateway. -/
private def sealOne (sealBody : RawRecord → Except String Sealed) (st : List (String × Sealed) × List String)
    (p : String × RawRecord) : List (String × Sealed) × List String :=
  match sealBody p.2 with
  | .ok result => (Dict.assign p.1 result st.1, st.2)
  | .error exc => (st.1, st.2 ++ ["seal failed for " ++ p.1 ++ ": " ++ exc])

private theorem encrypt_eq (records : List RawRecord) (sealBody : RawRecord → Except String Sealed) :
    encrypt records sealBody = (sensitiveRecords records).foldl (sealOne sealBody) ([], []) := rfl

private theorem mem_keys_sealOne (sealBody : RawRecord → Except String Sealed) (st : List (String × Sealed) × List String)
    (p : String × RawRecord) (x : String) : x ∈ (sealOne sealBody st p).1.map Prod.fst ↔
      x ∈ st.1.map Prod.fst ∨ x = p.1 ∧ ∃ blob, sealBody p.2 = .ok blob := by
  unfold sealOne
  cases sealBody p.2 with
  | error exc => simp
  | ok result => simp [Dict.mem_keys_assign, or_comm]

/-- The external ids with a sealed body. -/
theorem mem_keys_sealed (job : Job) (x : String) : x ∈ job.sealed.map Prod.fst ↔
    ∃ r, (x, r) ∈ sensitiveRecords job.records ∧ ∃ blob, job.sealBody r = .ok blob := by
  have hall : ∀ (ps : List (String × RawRecord)) (st : List (String × Sealed) × List String),
      x ∈ (ps.foldl (sealOne job.sealBody) st).1.map Prod.fst ↔
        x ∈ st.1.map Prod.fst ∨ ∃ r, (x, r) ∈ ps ∧ ∃ blob, job.sealBody r = .ok blob := by
    intro ps
    induction ps with
    | nil => simp
    | cons p ps ih =>
      intro st
      rw [List.foldl_cons, ih, mem_keys_sealOne, or_assoc]
      refine or_congr_right ⟨fun h => ?_, fun ⟨r, hr, hok⟩ => ?_⟩
      · rcases h with ⟨rfl, hok⟩ | ⟨r, hr, hok⟩
        · exact ⟨p.2, List.mem_cons_self .., hok⟩
        · exact ⟨r, List.mem_cons_of_mem _ hr, hok⟩
      · rcases List.mem_cons.mp hr with rfl | hr
        · exact Or.inl ⟨rfl, hok⟩
        · exact Or.inr ⟨r, hr, hok⟩
  rw [Job.sealed, encrypt_eq, hall]
  simp

/-- A sealed body is the gateway's answer to a record of its external id. -/
theorem mem_sealed (job : Job) {x : String} {blob : Sealed} (h : (x, blob) ∈ job.sealed) :
    ∃ r, (x, r) ∈ sensitiveRecords job.records ∧ job.sealBody r = .ok blob := by
  have hall : ∀ (ps : List (String × RawRecord)) (st : List (String × Sealed) × List String),
      (x, blob) ∈ (ps.foldl (sealOne job.sealBody) st).1 →
        (x, blob) ∈ st.1 ∨ ∃ r, (x, r) ∈ ps ∧ job.sealBody r = .ok blob := by
    intro ps
    induction ps with
    | nil => exact fun _ h => Or.inl h
    | cons p ps ih =>
      intro st h
      rw [List.foldl_cons] at h
      rcases ih _ h with h | ⟨r, hr, hok⟩
      · unfold sealOne at h
        split at h
        · rename_i result hresult
          rcases Dict.mem_assign h with h | h
          · obtain ⟨rfl, rfl⟩ := Prod.mk.inj h
            exact Or.inr ⟨p.2, List.mem_cons_self, hresult⟩
          · exact Or.inl h
        · exact Or.inl h
      · exact Or.inr ⟨r, List.mem_cons_of_mem _ hr, hok⟩
  rw [Job.sealed, encrypt_eq] at h
  rcases hall _ ([], []) h with h | h
  · exact absurd h List.not_mem_nil
  · exact h

/-- Held back are the events with the external id of a record whose sealing failed. -/
theorem kept_eq_none_iff (job : Job) (event : Event) :
    job.kept event = none ↔ ∃ r, SealFailed job r ∧ r.externalId = event.source.externalId := by
  obtain ⟨hnodup, hrec, hkeys⟩ := sensitiveRecords_spec job.records
  have hheld : job.kept event = none ↔ event.source.externalId ∉ job.sealed.map Prod.fst ∧
      needsSeal job.records event.source.externalId := by
    have hlookup : job.sealed.lookup event.source.externalId = none ↔
        event.source.externalId ∉ job.sealed.map Prod.fst := by
      rw [List.lookup_eq_none_iff]
      simp only [List.mem_map, not_exists, not_and, bne_iff_ne, ne_eq]
      exact forall_congr' (fun _ => forall_congr' (fun _ => not_congr eq_comm))
    rw [← hlookup, Job.kept]
    cases job.sealed.lookup event.source.externalId with
    | some blob => simp
    | none => simp
  rw [hheld, mem_keys_sealed, ← hkeys]
  constructor
  · rintro ⟨hno, hin⟩
    obtain ⟨⟨x, r⟩, hr, hx⟩ := List.mem_map.mp hin
    dsimp only at hx
    subst hx
    have hx := (hrec _ hr).2.2
    dsimp only at hx
    rw [hx] at hno hr ⊢
    cases hs : job.sealBody r with
    | ok blob => exact absurd ⟨r, hr, blob, hs⟩ hno
    | error exc => exact ⟨r, ⟨hr, exc, hs⟩, rfl⟩
  · rintro ⟨r, ⟨hr, exc, hs⟩, hx⟩
    refine ⟨?_, hx ▸ List.mem_map_of_mem hr⟩
    rintro ⟨r', hr', blob, hb⟩
    have he := List.inj_on_of_nodup_map hnodup hr' hr hx.symm
    obtain rfl := (Prod.mk.inj he).2
    rw [hs] at hb
    exact absurd hb (by simp)

def Cites (node : MemoryNode) (eventId : String) : Prop := ∃ c ∈ node.citations, c.eventId = eventId

instance (node : MemoryNode) (eventId : String) : Decidable (Cites node eventId) := by unfold Cites; infer_instance

/-- The node is one of this record's, as the run writes it. -/
def Yields (job : Job) (p : RawRecord × Candidate) : MemoryNode → Prop
  | .entity e => e ∈ p.2.entities
  | .event e => ∃ event ∈ p.2.events, job.kept event = some e
  | .claim b => ∃ c ∈ p.2.claims, bare b = bare c

section Trace
variable (job : Job) (s : Store) (p : RawRecord × Candidate) (event : Event)

/-- Nothing the run writes goes back to the event of `p`, unless another record yields it too, and no
claim it writes cites the event while it is not stored. -/
structure NoTrace : Prop where
  objects : ∀ node, job.Writes s node → Cites node event.id → ∃ q ∈ job.extracted, q.1 ≠ p.1 ∧ Yields job q node
  cited : ∀ b, job.Writes s (.claim b) → Cites (.claim b) event.id → ((job.run s).event? event.id).isSome

/-- Other records of the batch yield every entity of `p` and every claim of it that is not stored, and
a claim that is not stored cites the event only where it is stored, or another record can bring it. -/
structure Covered : Prop where
  entities : ∀ e ∈ p.2.entities, Cites (.entity e) event.id → ∃ q ∈ job.extracted, q.1 ≠ p.1 ∧ e ∈ q.2.entities
  claims : ∀ c ∈ p.2.claims, Job.fresh s c → Cites (.claim c) event.id → ∃ q ∈ job.extracted, q.1 ≠ p.1 ∧ c ∈ q.2.claims
  cited : (∃ c ∈ job.claims, Job.fresh s c ∧ Cites (.claim c) event.id) → (s.event? event.id).isSome ∨
    ∃ q ∈ job.extracted, ∃ e ∈ q.2.events, e.id = event.id ∧ ∀ r, SealFailed job r → r.externalId ≠ e.source.externalId

end Trace

private theorem cites_of_bare {b c : Claim} {x : String} (h : bare b = bare c) (hc : Cites (.claim c) x) :
    Cites (.claim b) x := by
  have hprov : (MemoryNode.claim b).citations = (MemoryNode.claim c).citations :=
    eq_of_bare (fun d => d.provenance.citations) (fun _ => rfl) h
  obtain ⟨d, hd, he⟩ := hc
  exact ⟨d, hprov ▸ hd, he⟩

private theorem event?_run_isSome (job : Job) (s : Store) (x : String) : ((job.run s).event? x).isSome ↔
    (s.event? x).isSome ∨ ∃ q ∈ job.extracted, ∃ e ∈ q.2.events, e.id = x ∧
      ∀ r, SealFailed job r → r.externalId ≠ e.source.externalId := by
  have hkept : ∀ e : Event, (∀ r, SealFailed job r → r.externalId ≠ e.source.externalId) ↔ job.kept e ≠ none := by
    intro e
    rw [ne_eq, kept_eq_none_iff]
    simp
  rw [Job.event?_run, Option.isSome_or, Bool.or_eq_true, or_comm]
  refine or_congr_right ?_
  rw [List.getLast?_isSome, ne_eq, List.eq_nil_iff_forall_not_mem, not_forall_not]
  simp only [List.mem_filter, List.mem_filterMap, List.mem_flatMap, Job.candidates, List.mem_map, decide_eq_true_eq]
  constructor
  · rintro ⟨e, ⟨event, ⟨_, ⟨q, hq, rfl⟩, hevent⟩, hkeep⟩, hid⟩
    have hne : job.kept event ≠ none := by rw [hkeep]; simp
    exact ⟨q, hq, event, hevent, (Job.id_of_kept hkeep).symm.trans hid, (hkept event).mpr hne⟩
  · rintro ⟨q, hq, event, hevent, hid, hfree⟩
    obtain ⟨e, he⟩ := Option.ne_none_iff_exists'.mp ((hkept event).mp hfree)
    exact ⟨e, ⟨event, ⟨q.2, ⟨q, hq, rfl⟩, hevent⟩, he⟩, (Job.id_of_kept he).trans hid⟩

/-- The new claims of the batch are the ones written, but for what resolution decides. -/
private theorem writes_of_fresh {job : Job} {s : Store} {c : Claim} (hc : c ∈ job.claims) (hf : Job.fresh s c) :
    ∃ b, job.Writes s (.claim b) ∧ bare b = bare c := by
  have hin : bare c ∈ (job.claims.filter (Job.fresh s)).map bare := List.mem_map_of_mem (List.mem_filter.mpr ⟨hc, hf⟩)
  rw [← job.pending_bare s] at hin
  obtain ⟨b, hb, hbare⟩ := List.mem_map.mp hin
  exact ⟨b, (job.writes_claim_iff s b).mpr hb, hbare⟩

private theorem fresh_of_writes {job : Job} {s : Store} {b : Claim} (hb : job.Writes s (.claim b)) :
    ∃ p ∈ job.extracted, ∃ c ∈ p.2.claims, bare b = bare c ∧ Job.fresh s c := by
  have hb := (job.writes_claim_iff s b).mp hb
  obtain ⟨p, hp, q, _, hc, _, _, hbare⟩ := (job.answers s).origin_of_mem_pending hb
  have hid : b.id = q.claim.id := eq_of_bare Claim.id (fun _ => rfl) hbare
  have hf := job.fresh_of_mem_pending s hb
  rw [Job.fresh, hid] at hf
  exact ⟨p, hp, q.claim, hc, hbare, hf⟩

private theorem eq_of_bare_of_raw {b c : Claim} (hb : Raw b) (hc : Raw c) (h : bare b = bare c) : b = c := by
  have hraw : ∀ d, Raw d → bare d = d := by
    rintro ⟨⟩ ⟨rfl, rfl, rfl⟩
    rfl
  rw [← hraw b hb, h, hraw c hc]

section Trace
variable {job : Job} {s : Store} {p : RawRecord × Candidate} {event : Event}

theorem Job.mem_claims {c : Claim} (hp : p ∈ job.extracted) (hc : c ∈ p.2.claims) : c ∈ job.claims :=
  List.mem_flatMap.mpr ⟨p.2, List.mem_map_of_mem hp, hc⟩

private theorem NoTrace.covered (hp : p ∈ job.extracted) (h : NoTrace job s p event) : Covered job s p event where
  entities := fun e he hcites => h.objects _ ((job.writes_entity_iff s e).mpr ⟨p, hp, he⟩) hcites
  claims := by
    intro c hc hf hcites
    obtain ⟨b, hb, hbare⟩ := writes_of_fresh (Job.mem_claims hp hc) hf
    obtain ⟨q, hq, hne, c', hc', hbare'⟩ := h.objects _ hb (cites_of_bare hbare hcites)
    have heq : c' = c := eq_of_bare_of_raw (job.raw_claims _ (Job.mem_claims hq hc'))
      (job.raw_claims _ (Job.mem_claims hp hc)) (hbare'.symm.trans hbare)
    exact ⟨q, hq, hne, heq ▸ hc'⟩
  cited := by
    intro ⟨c, hc, hf, hcites⟩
    obtain ⟨b, hb, hbare⟩ := writes_of_fresh hc hf
    exact (event?_run_isSome job s event.id).mp (h.cited b hb (cites_of_bare hbare hcites))

/-- Nothing of a record leads to its event but through the event's own id. -/
private theorem Covered.noTrace (hx : ∀ q ∈ job.extracted, Extracts job.ownerId q.1 q.2) (hp : p ∈ job.extracted)
    (hfail : SealFailed job p.1) (hevent : event ∈ p.2.events)
    (h : ∀ q ∈ job.extracted, SealFailed job q.1 → ∀ event ∈ q.2.events, Covered job s q event) :
    NoTrace job s p event where
  objects := by
    intro node hw hcites
    cases node with
    | entity e =>
      obtain ⟨q, hq, he⟩ := (job.writes_entity_iff s e).mp hw
      by_cases hqp : q.1 = p.1
      · obtain ⟨ev, hev, _, hent, _⟩ := (hx q hq).event
        obtain ⟨c, hc, hid⟩ := hcites
        have hcites : Cites (.entity e) ev.id := ⟨c, hc, ((hent e he).cites c hc).1⟩
        have hcov := h q hq (hqp ▸ hfail) ev (by rw [hev]; exact List.mem_singleton_self _)
        obtain ⟨r, hr, hne, her⟩ := hcov.entities e he hcites
        exact ⟨r, hr, hqp ▸ hne, her⟩
      · exact ⟨q, hq, hqp, he⟩
    | event e =>
      obtain ⟨q, hq, ev, hev, hkept⟩ := (job.writes_event_iff s e).mp hw
      refine ⟨q, hq, fun hqp => ?_, ev, hev, hkept⟩
      obtain ⟨ev', hev', hof, _, _⟩ := (hx q hq).event
      rw [hev'] at hev
      obtain rfl := List.mem_singleton.mp hev
      have hnone := (kept_eq_none_iff job ev).mpr ⟨q.1, hqp ▸ hfail, hof.externalId.symm⟩
      rw [hnone] at hkept
      exact absurd hkept (by simp)
    | claim b =>
      obtain ⟨q, hq, c, hc, hbare, hf⟩ := fresh_of_writes hw
      by_cases hqp : q.1 = p.1
      · obtain ⟨ev, hev, _, _, hclaims⟩ := (hx q hq).event
        obtain ⟨d, hd, hid⟩ := cites_of_bare hbare.symm hcites
        have hcites : Cites (.claim c) ev.id := ⟨d, hd, ((hclaims c hc).cites d hd).1⟩
        have hcov := h q hq (hqp ▸ hfail) ev (by rw [hev]; exact List.mem_singleton_self _)
        obtain ⟨r, hr, hne, hcr⟩ := hcov.claims c hc hf hcites
        exact ⟨r, hr, hqp ▸ hne, c, hcr, hbare⟩
      · exact ⟨q, hq, hqp, c, hc, hbare⟩
  cited := by
    intro b hw hcites
    obtain ⟨q, hq, c, hc, hbare, hf⟩ := fresh_of_writes hw
    have hcov := (h p hp hfail event hevent).cited ⟨c, Job.mem_claims hq hc, hf, cites_of_bare hbare.symm hcites⟩
    exact (event?_run_isSome job s event.id).mpr hcov

end Trace

/-- A record that could not be sealed leaves no trace exactly when everything it yields comes from
other records as well: only its event is held back. -/
theorem no_trace_iff (job : Job) (hx : ∀ p ∈ job.extracted, Extracts job.ownerId p.1 p.2) (s : Store) :
    (∀ p ∈ job.extracted, SealFailed job p.1 → ∀ event ∈ p.2.events, NoTrace job s p event) ↔
      ∀ p ∈ job.extracted, SealFailed job p.1 → ∀ event ∈ p.2.events, Covered job s p event :=
  ⟨fun h p hp hfail event hevent => (h p hp hfail event hevent).covered hp,
    fun h _ hp hfail _ hevent => Covered.noTrace hx hp hfail hevent h⟩

def secret : RawRecord := noteRecord mockConnector true "r1" 1

def secretOf (answer : Llm.Answer) : RawRecord × Candidate :=
  (secret, Llm.toCandidate plain "alice" secret "claude-extractor@v1" answer)

/-- A sensitive record the model found nothing in, and a plain one. -/
def emptySecret : Job :=
  .ofAnswers [(secret, {}), (noteRecord mockConnector false "r2" 2, aboutProject "Atlas" ["project Atlas will use Postgres."])]

theorem no_trace_emptySecret : SealFailed emptySecret secret ∧ ∀ p ∈ emptySecret.extracted, SealFailed emptySecret p.1 →
    ∀ event ∈ p.2.events, NoTrace emptySecret PropertyGraph.empty p event := by
  refine ⟨⟨by decide, _, rfl⟩, (no_trace_iff emptySecret (Job.ofAnswers_extracts _) PropertyGraph.empty).mpr ?_⟩
  intro p hp hfail event hevent
  have hsensitive : p.1.sensitive := ((sensitiveRecords_spec _).2.1 _ hfail.1).2.1
  have hall : ∀ p ∈ emptySecret.extracted, p.1.sensitive → p.2.entities = [] ∧ p.2.claims = [] ∧
      ∀ event ∈ p.2.events, ∀ c ∈ emptySecret.claims, ¬ Cites (.claim c) event.id := by decide +kernel
  obtain ⟨hentities, hclaims, hcites⟩ := hall p hp hsensitive
  exact
    { entities := fun e he => absurd he (by rw [hentities]; exact List.not_mem_nil)
      claims := fun c hc => absurd hc (by rw [hclaims]; exact List.not_mem_nil)
      cited := fun ⟨c, hc, _, hno⟩ => absurd hno (hcites event hevent c hc) }

/-- A sensitive record that states a decision. -/
def statedSecret : Job := .ofAnswers [(secret, aboutProject "Atlas" ["project Atlas will use Redis."])]

/-- Its body is never sealed, and the claim with its quote is stored all the same. -/
theorem secret_leaks : ¬ ∀ (job : Job) (s : Store), (∀ p ∈ job.extracted, Extracts job.ownerId p.1 p.2) →
    ∀ p ∈ job.extracted, SealFailed job p.1 → ∀ event ∈ p.2.events, NoTrace job s p event := by
  intro h
  have hp : secretOf (aboutProject "Atlas" ["project Atlas will use Redis."]) ∈ statedSecret.extracted :=
    List.mem_singleton_self _
  have hno := h statedSecret PropertyGraph.empty (Job.ofAnswers_extracts _) _ hp ⟨by decide, _, rfl⟩ _
    (List.mem_singleton_self _)
  have hw : statedSecret.Writes PropertyGraph.empty (.claim (soleClaim statedSecret)) :=
    (statedSecret.writes_claim_iff _ _).mpr (by decide +kernel)
  obtain ⟨q, hq, hne, _⟩ := hno.objects _ hw (by decide +kernel)
  obtain rfl := List.mem_singleton.mp hq
  exact hne rfl

end Memorai.Ingestion
