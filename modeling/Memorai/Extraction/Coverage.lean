import Memorai.Extraction.Mock

/-! What the guards of a candidate cover, and which of its objects some grant can read. -/
namespace Memorai.Extraction
open Schema Text

section Guards

/-- A guard that says where the record comes from, and when and how sensitive it is. -/
structure GuardOf (ownerId : String) (record : RawRecord) (acl : ObjectAcl) : Prop where
  owner : acl.ownerId = ownerId
  sources : acl.sources = [record.connector]
  occurred : acl.occurredAtMs = record.occurredAtMs
  sensitivity : acl.sensitivity = if record.sensitive then .confidential else .personal

/-- Entities of one id are of one kind. -/
def IdsTellKinds (candidate : Candidate) : Prop :=
  ∀ e ∈ candidate.entities, ∀ e' ∈ candidate.entities, e.id = e'.id → e.kind = e'.kind

/-- The ids are those of entities of the candidate, whose kinds are the given ones. By id alone they are that
wherever the ids tell the kinds. -/
structure About (candidate : Candidate) (ids : List String) (kinds : List EntityKind) : Prop where
  names : Names candidate ids
  resolved : KindsOf candidate ids kinds
  byId : IdsTellKinds candidate → ∀ k, k ∈ kinds ↔ ∃ e ∈ candidate.entities, e.id ∈ ids ∧ e.kind = k

theorem guardOf_acl (ownerId : String) (record : RawRecord) (kinds : List EntityKind) :
    GuardOf ownerId record (acl ownerId record kinds) := ⟨rfl, rfl, rfl, rfl⟩

theorem KindsOf.about {candidate : Candidate} {ids : List String} {kinds : List EntityKind} (h : KindsOf candidate ids kinds) :
    About candidate ids kinds := by
  refine ⟨h.names, h, fun htell k => ?_⟩
  obtain ⟨named, hin, rfl, hkinds⟩ := h
  rw [hkinds]
  constructor
  · rintro ⟨e, he, rfl⟩
    exact ⟨e, hin e he, List.mem_map_of_mem he, rfl⟩
  · rintro ⟨e, he, hid, rfl⟩
    obtain ⟨e', he', hid'⟩ := List.mem_map.mp hid
    exact ⟨e', he', htell e' (hin e' he') e he hid'⟩

/-- Every object of the candidate is guarded as its record is, and by the kinds of what it is about. -/
structure Guarded (ownerId : String) (record : RawRecord) (candidate : Candidate) : Prop where
  events : ∀ event ∈ candidate.events, GuardOf ownerId record event.acl ∧ About candidate event.entityIds event.acl.entityKinds
  claims : ∀ claim ∈ candidate.claims, GuardOf ownerId record claim.acl ∧
    About candidate (claim.subjectEntityIds ++ parties claim) claim.acl.entityKinds
  entities : ∀ entity ∈ candidate.entities, GuardOf ownerId record entity.acl ∧ entity.acl.entityKinds = [entity.kind]

theorem Extracts.guarded {ownerId : String} {record : RawRecord} {candidate : Candidate}
    (h : Extracts ownerId record candidate) : Guarded ownerId record candidate := by
  obtain ⟨event, hevents, hevent, hentities, hclaims⟩ := h.event
  refine ⟨fun e he => ?_, fun claim hclaim => ?_, fun entity hentity => ?_⟩
  · rw [hevents] at he
    obtain rfl := List.mem_singleton.mp he
    obtain ⟨kinds, hacl, hkinds⟩ := hevent.guard
    rw [hacl]
    exact ⟨guardOf_acl _ _ _, hkinds.about⟩
  · obtain ⟨kinds, hacl, hkinds⟩ := (hclaims claim hclaim).guard
    rw [hacl]
    exact ⟨guardOf_acl _ _ _, hkinds.about⟩
  · rw [(hentities entity hentity).guard]
    exact ⟨guardOf_acl _ _ _, rfl⟩

end Guards

section Kinds
variable {env : Ambient} {ownerId : String} {record : RawRecord}

/-- The kind stands between the separators of what the id is a digest of. -/
theorem kind_of_parts {k k' : EntityKind} {name name' : String}
    (h : join "\x1f" [ownerId, k.value, name] = join "\x1f" [ownerId, k'.value, name']) : k = k' := by
  have hjoin : ∀ a b c : String, join "\x1f" [a, b, c] = a ++ "\x1f" ++ b ++ "\x1f" ++ c := fun _ _ _ => rfl
  rw [hjoin, hjoin] at h
  have hlists := congrArg String.toList h
  simp only [String.toList_append, List.append_assoc, List.append_cancel_left_eq] at hlists
  cases k <;> cases k' <;> first | rfl | exact absurd hlists (by simp [EntityKind.value])

/-- Where the digest tells its inputs apart, ids tell kinds. -/
theorem Llm.idsTellKinds (hdigest : Function.Injective env.digest) (derivedBy : String) (answer : Llm.Answer) :
    IdsTellKinds (Llm.toCandidate env ownerId record derivedBy answer) := by
  intro e he e' he' hid
  obtain ⟨raw, _, rfl⟩ := List.mem_map.mp he
  obtain ⟨raw', _, rfl⟩ := List.mem_map.mp he'
  have hparts : env.digest (join "\x1f" [ownerId, raw.kind.value, env.lower raw.name]) =
      env.digest (join "\x1f" [ownerId, raw'.kind.value, env.lower raw'.name]) :=
    String.append_right_inj _ |>.mp hid
  exact kind_of_parts (hdigest hparts)

namespace Mock

/-- An entity is added under an id that no other one has. -/
theorem nodup_addEntity {entities : List Entity} {kind : EntityKind} {name : String} (h : (entities.map Entity.id).Nodup) :
    ((addEntity env ownerId record entities kind name).1.map Entity.id).Nodup := by
  unfold addEntity
  split
  · exact h
  · rename_i hnone
    rw [List.map_append, List.map_singleton, List.nodup_append_comm, List.singleton_append, List.nodup_cons]
    refine ⟨fun hin => ?_, h⟩
    obtain ⟨e, he, hid⟩ := List.mem_map.mp hin
    have hother := List.find?_eq_none.mp hnone e he
    rw [decide_eq_true_eq] at hother
    exact hother hid

theorem nodup_entitiesOf (named : List (EntityKind × String)) : ((entitiesOf env ownerId record named).map Entity.id).Nodup := by
  induction named using List.reverseRecOn with
  | nil => exact List.nodup_nil
  | append_singleton named p ih =>
    rw [entitiesOf, List.foldl_append]
    exact nodup_addEntity ih

theorem idsTellKinds {find : String → Matches} {candidate : Candidate} (h : extract env ownerId record find = .ok candidate) :
    IdsTellKinds candidate := by
  obtain ⟨references, _, h⟩ := Results.bind_ok h
  obtain ⟨commitments, _, h⟩ := Results.bind_ok h
  obtain rfl := Except.ok.inj h
  intro e he e' he' hid
  rw [List.inj_on_of_nodup_map (nodup_entitiesOf _) he he' hid]

end Mock
end Kinds

/-- Whatever a record yields, each guard covers what its object is about. -/
theorem acl_covers (env : Ambient) (ownerId : String) (record : RawRecord) :
    (∀ find candidate, Mock.extract env ownerId record find = .ok candidate →
      Guarded ownerId record candidate ∧ IdsTellKinds candidate) ∧
    ∀ derivedBy answer, Guarded ownerId record (Llm.toCandidate env ownerId record derivedBy answer) ∧
      (Function.Injective env.digest → IdsTellKinds (Llm.toCandidate env ownerId record derivedBy answer)) :=
  ⟨fun _ _ h => ⟨(Mock.extract_extracts h).guarded, Mock.idsTellKinds h⟩,
    fun derivedBy answer => ⟨(Llm.toCandidate_extracts env ownerId record derivedBy answer).guarded,
      fun hdigest => Llm.idsTellKinds hdigest derivedBy answer⟩⟩

/-- Ids that spell out what they are digests of, and names as they are written. -/
def literal : Ambient where
  lower := id
  digest := id
  parseDay := fun _ => none
  nowMs := 0

/-- A sensitive record about whatever its text mentions. -/
def notes (participants : List String) : RawRecord where
  externalId := "n1"
  connector := ⟨"mock", checkSourceId_mock⟩
  occurredAtMs := 5
  title := "Weekly notes"
  body := "Nothing to report"
  sensitive := true
  participants := participants

/-- What the patterns find where Alice promises Bob something about Atlas. -/
def promise : Mock.Matches where
  commitments := [{ whole := "Alice committed", owedBy := "Alice", owedTo := some "Bob", obligation := "project Atlas will ship" }]
  projects := ["Atlas"]

theorem acl_covers_promise :
    ∃ candidate, Mock.extract literal "alice" (notes ["Carol"]) (fun _ => promise) = .ok candidate ∧
      (candidate.claims.map (fun claim => claim.acl.entityKinds)) = [[.person, .project]] ∧
      Guarded "alice" (notes ["Carol"]) candidate :=
  ⟨_, rfl, by decide, ((acl_covers literal "alice" (notes ["Carol"])).1 (fun _ => promise) _ rfl).1⟩

section Readable
variable {ownerId : String} {record : RawRecord} {candidate : Candidate}

/-- The widest grant an owner can give over the given sources. -/
def widest (agentId ownerId : String) (sources : List SourceId) : Scope where
  agentId := agentId
  ownerId := ownerId
  sources := sources
  entityKinds := [.person, .project, .artifact, .organization, .topic]
  maxSensitivity := .restricted

/-- The widest grant opens what is about any kind of entity at all. -/
theorem evaluate_widest_iff (agentId : String) (kinds : List EntityKind) (nowMs : Int) :
    evaluate (widest agentId ownerId (acl ownerId record kinds).sources) (acl ownerId record kinds) nowMs = .allow ↔
      kinds ≠ [] := by
  rw [evaluate_allow_iff]
  constructor
  · rintro ⟨_, _, _, _, ⟨hkinds, _⟩, _⟩
    exact hkinds
  · intro hkinds
    refine ⟨rfl, by simp [widest], by simp [acl], ⟨by simp [acl], fun s hs => hs⟩, ⟨hkinds, fun k _ => ?_⟩,
      by simp [widest], by simp [widest], ?_⟩
    · cases k <;> simp [widest]
    · cases hs : record.sensitive <;> simp [acl, widest, Sensitivity.rank, hs]

/-- What is about no kind of entity is closed to every grant. -/
theorem evaluate_of_no_kinds {scope : Scope} {guard : ObjectAcl} (h : guard.entityKinds = []) (nowMs : Int) :
    evaluate scope guard nowMs ≠ .allow := fun hallow =>
  ((evaluate_allow_iff _ _ _).mp hallow).2.2.2.2.1.1 h

/-- Each entity can be read under the widest grant, and an event or a claim exactly if it names some entity. -/
structure ReadableIfNaming (ownerId : String) (candidate : Candidate) : Prop where
  entities : ∀ entity ∈ candidate.entities, ∀ agentId nowMs,
    evaluate (widest agentId ownerId entity.acl.sources) entity.acl nowMs = .allow
  events : ∀ event ∈ candidate.events, ∀ agentId nowMs,
    evaluate (widest agentId ownerId event.acl.sources) event.acl nowMs = .allow ↔ event.entityIds ≠ []
  claims : ∀ claim ∈ candidate.claims, ∀ agentId nowMs,
    evaluate (widest agentId ownerId claim.acl.sources) claim.acl nowMs = .allow ↔
      claim.subjectEntityIds ++ parties claim ≠ []

theorem KindsOf.eq_nil_iff {ids : List String} {kinds : List EntityKind} (h : KindsOf candidate ids kinds) :
    kinds = [] ↔ ids = [] := by
  obtain ⟨named, _, rfl, hkinds⟩ := h
  rw [List.map_eq_nil_iff, List.eq_nil_iff_forall_not_mem, List.eq_nil_iff_forall_not_mem]
  constructor
  · intro hnone e he
    exact hnone e.kind ((hkinds _).mpr ⟨e, he, rfl⟩)
  · intro hnone k hk
    obtain ⟨e, he, _⟩ := (hkinds k).mp hk
    exact hnone e he

theorem Extracts.readable (h : Extracts ownerId record candidate) : ReadableIfNaming ownerId candidate := by
  obtain ⟨event, hevents, hevent, hentities, hclaims⟩ := h.event
  refine ⟨fun entity hentity agentId nowMs => ?_, fun e he agentId nowMs => ?_, fun claim hclaim agentId nowMs => ?_⟩
  · rw [(hentities entity hentity).guard]
    exact (evaluate_widest_iff agentId _ nowMs).mpr (List.cons_ne_nil _ _)
  · rw [hevents] at he
    obtain rfl := List.mem_singleton.mp he
    obtain ⟨kinds, hacl, hkinds⟩ := hevent.guard
    rw [hacl, evaluate_widest_iff, ne_eq, hkinds.eq_nil_iff]
  · obtain ⟨kinds, hacl, hkinds⟩ := (hclaims claim hclaim).guard
    rw [hacl, evaluate_widest_iff, ne_eq, hkinds.eq_nil_iff]

end Readable

/-- Of whatever either extractor accepts, what names an entity can be read under some grant, and nothing else. -/
theorem readable_iff_naming (env : Ambient) (ownerId : String) (record : RawRecord) :
    (∀ find candidate, Mock.extract env ownerId record find = .ok candidate → ReadableIfNaming ownerId candidate) ∧
    ∀ derivedBy answer, ReadableIfNaming ownerId (Llm.toCandidate env ownerId record derivedBy answer) :=
  ⟨fun _ _ h => (Mock.extract_extracts h).readable,
    fun derivedBy answer => (Llm.toCandidate_extracts env ownerId record derivedBy answer).readable⟩

theorem readable_iff_naming_promise :
    ∃ candidate, Mock.extract literal "alice" (notes []) (fun _ => promise) = .ok candidate ∧ ReadableIfNaming "alice" candidate :=
  ⟨_, rfl, (readable_iff_naming literal "alice" (notes [])).1 (fun _ => promise) _ rfl⟩

/-- A note that mentions nobody and nothing, and a model's answer that gives a claim no subject: both are stored behind a
guard that no grant opens. -/
theorem nobody_reads_notes :
    (∃ candidate, Mock.extract literal "alice" (notes []) (fun _ => {}) = .ok candidate ∧
      ∃ event ∈ candidate.events, ∀ scope nowMs, evaluate scope event.acl nowMs ≠ .allow) ∧
    ∃ claim ∈ (Llm.toCandidate literal "alice" (notes []) "claude-extractor@v1"
        { claims := [{ statement := "Nothing is planned." }] }).claims,
      ∀ scope nowMs, evaluate scope claim.acl nowMs ≠ .allow :=
  ⟨⟨_, rfl, _, List.mem_singleton_self _, fun _ nowMs => evaluate_of_no_kinds rfl nowMs⟩,
    ⟨_, List.mem_singleton_self _, fun _ nowMs => evaluate_of_no_kinds rfl nowMs⟩⟩

end Memorai.Extraction
