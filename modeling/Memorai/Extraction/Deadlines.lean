import Memorai.Connectors.ChatGpt
import Memorai.Extraction.Mock
import Memorai.Text.Dates

/-! Deadlines as the extractors read them, and what one that is no day of the calendar costs. -/
namespace Memorai.Extraction
open Schema Text Results Wire

/-- Dates are read as `datetime.strptime` reads them. -/
def Ambient.calendar (env : Ambient) : Ambient := { env with parseDay := strptimeDay }

section Worth

open Classical in
/-- What a stated deadline is worth: nothing where it is no day of the calendar. -/
noncomputable def realDue (due : Option String) : Option Int :=
  due.bind (fun d => if RealDay d then strptimeDay d else none)

variable {env : Ambient} {d : String}

theorem strptimeDay_of_realDay (h : RealDay d) : ∃ ms, strptimeDay d = some ms := by
  obtain ⟨year, month, day, hday, rfl⟩ := h
  exact ⟨_, strptimeDay_dayText hday⟩

theorem realDue_of_realDay (h : RealDay d) : realDue (some d) = strptimeDay d := if_pos h

theorem realDue_of_not_realDay (h : ¬RealDay d) : realDue (some d) = none := if_neg h

theorem not_realDay_empty : ¬RealDay "" := by
  intro h
  obtain ⟨ms, hms⟩ := strptimeDay_of_realDay h
  have hnone : strptimeDay "" = none := by decide
  exact absurd hms (by simp [hnone])

end Worth

namespace Mock

section Deadlines
variable (env : Ambient) (ownerId : String) (record : RawRecord)

def statementOf (m : CommitmentMatch) : String :=
  let statement := match m.due with
    | some due => if due = "" then strip m.obligation else strip m.obligation ++ " by " ++ due
    | none => strip m.obligation
  statement ++ "."

/-- The claim that is made of a commitment once its deadline is known. -/
def commitmentDue (entities : List Entity) (m : CommitmentMatch) (dueAtMs : Option Int) : Claim :=
  let (owedBy, owedTo) := partiesOf env ownerId record entities m
  { statedClaim env ownerId record entities (statementOf m) m.whole with
    commitment := some
      { owedByEntityId := owedBy.id
        owedToEntityId := owedTo.map Entity.id
        dueAtMs := dueAtMs
        fulfillment := .open
        settledAtMs := none }
    acl := acl ownerId record (kindsOf (subjectsOf entities ++ owedBy :: owedTo.toList)) }

/-- The extraction as it is when every deadline can be converted, by `due`. -/
def extractWith (due : Option String → Option Int) (find : String → Matches) : Except Raised Candidate := do
  let found := find (record.title ++ ". " ++ record.body)
  let entities := entitiesOf env ownerId record (mentions record found)
  let references ← record.metadata.cites.mapM (referenceOf env ownerId record)
  .ok
    { entities := entities
      events := [eventOf env ownerId record entities references]
      claims := found.claims.map (claimOf env ownerId record entities) ++
        found.commitments.map (fun m => commitmentDue env ownerId record entities m (due m.due)) }

/-- Every commitment of the batch is there, with what its deadline is worth, and so is all else. -/
structure OnlyDeadlines (find : String → Matches) (records : List RawRecord) : Prop where
  each : ∀ record ∈ records, extract env.calendar ownerId record find = extractWith env.calendar ownerId record realDue find
  batch : records.mapM (fun record => extract env.calendar ownerId record find) =
    records.mapM (fun record => extractWith env.calendar ownerId record realDue find)

/-- The deadlines in the text of the record are days of the calendar, unless it refers to no source and is refused for that. -/
def StatesDays (find : String → Matches) : Prop :=
  (∀ reference ∈ record.metadata.cites, checkSourceId (partition ':' reference).1 = true) →
    ∀ m ∈ (find (record.title ++ ". " ++ record.body)).commitments, ∀ d, m.due = some d → d ≠ "" → RealDay d

end Deadlines

variable {env : Ambient} {ownerId : String} {record : RawRecord}

theorem commitmentOf_eq (entities : List Entity) (m : CommitmentMatch) :
    commitmentOf env ownerId record entities m = (dueMs env m.due).map (commitmentDue env ownerId record entities m) := by
  unfold commitmentOf
  cases dueMs env m.due with
  | error e => rfl
  | ok dueAtMs => rfl

theorem commitmentDue_injective (entities : List Entity) (m : CommitmentMatch) :
    Function.Injective (commitmentDue env ownerId record entities m) := by
  intro dueAtMs dueAtMs' h
  exact congrArg Commitment.dueAtMs (Option.some.inj (congrArg Claim.commitment h))

theorem exists_references_iff : (∃ references, record.metadata.cites.mapM (referenceOf env ownerId record) = .ok references) ↔
    ∀ reference ∈ record.metadata.cites, checkSourceId (partition ':' reference).1 = true := by
  rw [exists_mapM_iff]
  refine forall₂_congr (fun reference _ => ?_)
  simp only [referenceOf]
  split
  · exact ⟨fun _ => ‹_›, fun _ => ⟨_, rfl⟩⟩
  · exact ⟨fun ⟨_, h⟩ => (nomatch h), fun h => absurd h ‹_›⟩

/-- Conversions differ on a record only where it is extracted and has a commitment on whose deadline they differ. -/
theorem extract_eq_extractWith_iff {due : Option String → Option Int} {find : String → Matches} :
    extract env ownerId record find = extractWith env ownerId record due find ↔
      ((∃ references, record.metadata.cites.mapM (referenceOf env ownerId record) = .ok references) →
        ∀ m ∈ (find (record.title ++ ". " ++ record.body)).commitments, dueMs env m.due = .ok (due m.due)) := by
  simp only [extract, extractWith]
  generalize find (record.title ++ ". " ++ record.body) = found
  generalize entitiesOf env ownerId record (mentions record found) = entities
  cases record.metadata.cites.mapM (referenceOf env ownerId record) with
  | error e => exact ⟨fun _ ⟨_, h⟩ => (nomatch h), fun _ => rfl⟩
  | ok references =>
    constructor
    · intro h _ m hm
      obtain ⟨_, _, h⟩ := bind_ok h
      obtain ⟨commitments, hcommitments, h⟩ := bind_ok h
      obtain rfl := List.append_cancel_left (congrArg Candidate.claims (Except.ok.inj h))
      have hclaim := mapM_eq_ok_iff.mp hcommitments m hm
      rw [commitmentOf_eq] at hclaim
      obtain ⟨dueAtMs, hdue, hsame⟩ := map_ok hclaim
      rw [hdue, commitmentDue_injective _ m hsame]
    · intro h
      have hclaims : ∀ m ∈ found.commitments, commitmentOf env ownerId record entities m =
          .ok (commitmentDue env ownerId record entities m (due m.due)) := by
        intro m hm
        rw [commitmentOf_eq, h ⟨references, rfl⟩ m hm]
        rfl
      rw [mapM_eq_ok hclaims]
      rfl

theorem dueMs_eq_realDue_iff {due : Option String} :
    dueMs env.calendar due = .ok (realDue due) ↔ ∀ d, due = some d → d ≠ "" → RealDay d := by
  unfold dueMs
  cases due with
  | none => exact ⟨fun _ d hd => (nomatch hd), fun _ => rfl⟩
  | some d =>
    by_cases hempty : d = ""
    · subst hempty
      simp [realDue_of_not_realDay not_realDay_empty]
    · by_cases hreal : RealDay d
      · obtain ⟨ms, hms⟩ := strptimeDay_of_realDay hreal
        simp [Ambient.calendar, hempty, hreal, realDue_of_realDay, hms]
      · cases hread : strptimeDay d with
        | none => simp [Ambient.calendar, hempty, hreal, hread]
        | some ms => simp [Ambient.calendar, hempty, hreal, realDue_of_not_realDay, hread]

theorem onlyDeadlines_iff {find : String → Matches} {records : List RawRecord} :
    OnlyDeadlines env ownerId find records ↔ ∀ record ∈ records, StatesDays record find := by
  have heach : ∀ record, extract env.calendar ownerId record find = extractWith env.calendar ownerId record realDue find ↔
      StatesDays record find := by
    intro record
    rw [extract_eq_extractWith_iff, exists_references_iff]
    simp only [dueMs_eq_realDue_iff]
    rfl
  constructor
  · exact fun h record hrecord => (heach record).mp (h.each record hrecord)
  · intro h
    have hsame := fun record hrecord => (heach record).mpr (h record hrecord)
    exact ⟨hsame, mapM_congr hsame⟩

end Mock

namespace Llm
open Connectors.ChatGpt (Floats truthy)

/-- A commitment of an answer whose deadline is anything JSON has. -/
structure OpenCommitment where
  owedBy : String := ""
  owedTo : Option String := none
  dueAt : Option Json := none

structure OpenClaim where
  statement : String
  subjects : List String := []
  commitment : Option OpenCommitment := none

structure OpenAnswer where
  entities : List RawEntity := []
  claims : List OpenClaim := []

/-- `strptime` takes nothing but a string. -/
inductive Raised where
  | type (date : Json)

section Reading
variable (floats : Floats) (env : Ambient)

/-- What `_due_ms` makes a date of, or raises at. -/
def dueText (date : Option Json) : Except Raised (Option String) :=
  match date with
  | none => .ok none
  | some value =>
    if truthy floats value = false then .ok none
    else
      match value with
      | .str d => .ok (some d)
      | value => .error (.type value)

/-- The deadline is read only where someone owes it. -/
def readCommitment (entities : List Entity) (c : OpenCommitment) : Except Raised RawCommitment :=
  match byName env entities (env.lower c.owedBy) with
  | none => .ok { owedBy := c.owedBy, owedTo := c.owedTo }
  | some _ => (dueText floats c.dueAt).map (fun dueAt => { owedBy := c.owedBy, owedTo := c.owedTo, dueAt := dueAt })

def readClaim (entities : List Entity) (raw : OpenClaim) : Except Raised RawClaim :=
  match raw.commitment with
  | none => .ok { statement := raw.statement, subjects := raw.subjects }
  | some c =>
    (readCommitment floats env entities c).map
      (fun commitment => { statement := raw.statement, subjects := raw.subjects, commitment := some commitment })

variable (ownerId derivedBy : String) (record : RawRecord)

def openClaim (entities : List Entity) (raw : OpenClaim) : Except Raised Claim :=
  (readClaim floats env entities raw).map (claimOf env ownerId record derivedBy entities)

/-- `_to_candidate`, of an answer with any deadlines. -/
def openCandidate (answer : OpenAnswer) : Except Raised Candidate := do
  let entities := answer.entities.map (entityOf env ownerId record derivedBy)
  let claims ← answer.claims.mapM (openClaim floats env ownerId derivedBy record entities)
  .ok
    { entities := entities
      events := [eventOf env ownerId record derivedBy entities]
      claims := claims }

end Reading

section Deadlines

open Classical in
/-- What is left of a deadline: a day of the calendar, or nothing. -/
noncomputable def realDay : Option Json → Option String
  | some (.str d) => if RealDay d then some d else none
  | _ => none

noncomputable def dated (raw : OpenClaim) : RawClaim where
  statement := raw.statement
  subjects := raw.subjects
  commitment := raw.commitment.map (fun c => { owedBy := c.owedBy, owedTo := c.owedTo, dueAt := realDay c.dueAt })

noncomputable def datedAnswer (answer : OpenAnswer) : Answer where
  entities := answer.entities
  claims := answer.claims.map dated

variable (floats : Floats) (env : Ambient) (ownerId derivedBy : String)

/-- Every answer of the batch becomes the candidate it is with its real deadlines alone. -/
def OnlyDeadlines (batch : List (RawRecord × OpenAnswer)) : Prop :=
  batch.mapM (fun (record, answer) => openCandidate floats env.calendar ownerId derivedBy record answer) =
    .ok (batch.map (fun (record, answer) => toCandidate env.calendar ownerId record derivedBy (datedAnswer answer)))

/-- A deadline that is read is a string, and one that `strptime` takes is a day as it is to be written. -/
def StatesDays (record : RawRecord) (answer : OpenAnswer) : Prop :=
  ∀ raw ∈ answer.claims, ∀ c, raw.commitment = some c →
    byName env (answer.entities.map (entityOf env ownerId record derivedBy)) (env.lower c.owedBy) ≠ none →
      ∀ value, c.dueAt = some value → truthy floats value = true →
        ∃ d, value = .str d ∧ (strptimeDay d ≠ none → RealDay d)

end Deadlines

section Dates
variable {floats : Floats} {env : Ambient} {ownerId derivedBy : String} {record : RawRecord}

/-- Claims that differ in a deadline are one if no party owes it, or if it is converted to the same time. -/
theorem claimOf_due_iff (entities : List Entity) (statement : String) (subjects : List String) (owedBy : String)
    (owedTo due due' : Option String) :
    claimOf env ownerId record derivedBy entities
        { statement := statement, subjects := subjects, commitment := some { owedBy := owedBy, owedTo := owedTo, dueAt := due } } =
      claimOf env ownerId record derivedBy entities
        { statement := statement, subjects := subjects, commitment := some { owedBy := owedBy, owedTo := owedTo, dueAt := due' } } ↔
      (byName env entities (env.lower owedBy) ≠ none → dueMs env due = dueMs env due') := by
  cases hby : byName env entities (env.lower owedBy) with
  | none => simp [claimOf, commitmentOf, hby]
  | some e => simp [claimOf, commitmentOf, hby]

theorem realDay_of_realDay {d : String} (h : RealDay d) : realDay (some (.str d)) = some d := if_pos h

theorem realDay_of_not_realDay {d : String} (h : ¬RealDay d) : realDay (some (.str d)) = none := if_neg h

theorem realDay_of_falsy {value : Json} (h : truthy floats value = false) : realDay (some value) = none := by
  cases value with
  | str d =>
    obtain rfl : d = "" := by simpa [truthy] using h
    exact realDay_of_not_realDay not_realDay_empty
  | _ => rfl

theorem dueMs_realDay_iff {d : String} :
    dueMs env.calendar (some d) = dueMs env.calendar (realDay (some (.str d))) ↔ (strptimeDay d ≠ none → RealDay d) := by
  by_cases hreal : RealDay d
  · simp [realDay_of_realDay hreal, hreal]
  · rw [realDay_of_not_realDay hreal]
    by_cases hempty : d = ""
    · subst hempty
      have hnone : strptimeDay "" = none := by decide
      simp [dueMs, hnone]
    · simp [dueMs, Ambient.calendar, hempty, hreal]

theorem dueText_of_falsy {value : Json} (h : truthy floats value = false) : dueText floats (some value) = .ok none := if_pos h

theorem dueText_of_truthy {d : String} (h : truthy floats (.str d) = true) : dueText floats (some (.str d)) = .ok (some d) := by
  simp [dueText, h]

theorem exists_dueText {value : Json} (h : truthy floats value = true) {due : Option String}
    (hdue : dueText floats (some value) = .ok due) : ∃ d, value = .str d := by
  cases value with
  | str d => exact ⟨d, rfl⟩
  | _ => simp [dueText, h] at hdue

theorem openClaim_of_owed {entities : List Entity} {raw : OpenClaim} {c : OpenCommitment} {owedBy : Entity}
    (hc : raw.commitment = some c) (hby : byName env entities (env.lower c.owedBy) = some owedBy) :
    openClaim floats env ownerId derivedBy record entities raw = (dueText floats c.dueAt).map (fun due =>
      claimOf env ownerId record derivedBy entities
        { statement := raw.statement
          subjects := raw.subjects
          commitment := some { owedBy := c.owedBy, owedTo := c.owedTo, dueAt := due } }) := by
  simp only [openClaim, readClaim, readCommitment, hc, hby]
  cases dueText floats c.dueAt with
  | error e => rfl
  | ok due => rfl

theorem openClaim_of_unowed {entities : List Entity} {raw : OpenClaim} {c : OpenCommitment}
    (hc : raw.commitment = some c) (hby : byName env entities (env.lower c.owedBy) = none) :
    openClaim floats env ownerId derivedBy record entities raw =
      .ok (claimOf env ownerId record derivedBy entities
        { statement := raw.statement
          subjects := raw.subjects
          commitment := some { owedBy := c.owedBy, owedTo := c.owedTo } }) := by
  simp only [openClaim, readClaim, readCommitment, hc, hby]
  rfl

/-- Where a deadline is told by its time alone, it is kept as far as it is real exactly if it can be read and is real. -/
theorem map_dueText_iff {make : Option String → Claim}
    (hmake : ∀ due due', make due = make due' ↔ dueMs env.calendar due = dueMs env.calendar due') (date : Option Json) :
    (dueText floats date).map make = .ok (make (realDay date)) ↔ ∀ value, date = some value → truthy floats value = true →
      ∃ d, value = .str d ∧ (strptimeDay d ≠ none → RealDay d) := by
  cases date with
  | none => exact ⟨fun _ value hvalue => (nomatch hvalue), fun _ => rfl⟩
  | some value =>
    cases htruthy : truthy floats value with
    | false => simp [dueText_of_falsy htruthy, realDay_of_falsy htruthy, htruthy, Except.map]
    | true =>
      constructor
      · intro h value' hvalue _
        obtain rfl := Option.some.inj hvalue
        obtain ⟨due, hdue, hsame⟩ := map_ok h
        obtain ⟨d, rfl⟩ := exists_dueText htruthy hdue
        rw [dueText_of_truthy htruthy] at hdue
        obtain rfl := Except.ok.inj hdue
        exact ⟨d, rfl, dueMs_realDay_iff.mp ((hmake _ _).mp hsame)⟩
      · intro h
        obtain ⟨d, rfl, hreal⟩ := h value rfl htruthy
        rw [dueText_of_truthy htruthy]
        exact congrArg Except.ok ((hmake _ _).mpr (dueMs_realDay_iff.mpr hreal))

/-- A claim keeps its real deadline and nothing else of it, exactly if that can be read and is real. -/
theorem openClaim_eq_dated_iff (entities : List Entity) (raw : OpenClaim) :
    openClaim floats env.calendar ownerId derivedBy record entities raw =
        .ok (claimOf env.calendar ownerId record derivedBy entities (dated raw)) ↔
      ∀ c, raw.commitment = some c → byName env entities (env.lower c.owedBy) ≠ none →
        ∀ value, c.dueAt = some value → truthy floats value = true → ∃ d, value = .str d ∧ (strptimeDay d ≠ none → RealDay d) := by
  cases hraw : raw.commitment with
  | none => simp [openClaim, readClaim, dated, hraw, Except.map]
  | some c =>
    have hdated : dated raw =
        { statement := raw.statement
          subjects := raw.subjects
          commitment := some { owedBy := c.owedBy, owedTo := c.owedTo, dueAt := realDay c.dueAt } } := by
      simp [dated, hraw]
    cases hby : byName env.calendar entities (env.calendar.lower c.owedBy) with
    | none =>
      rw [openClaim_of_unowed hraw hby, hdated, Except.ok.injEq, claimOf_due_iff]
      refine ⟨fun _ c' hc' howed => ?_, fun _ howed => absurd hby howed⟩
      obtain rfl := Option.some.inj hc'
      exact absurd hby howed
    | some owedBy =>
      rw [openClaim_of_owed hraw hby, hdated, map_dueText_iff]
      · refine ⟨fun h c' hc' _ => ?_, fun h => h c rfl (Option.ne_none_iff_exists'.mpr ⟨owedBy, hby⟩)⟩
        obtain rfl := Option.some.inj hc'
        exact h
      · intro due due'
        rw [claimOf_due_iff]
        exact forall_prop_of_true (Option.ne_none_iff_exists'.mpr ⟨owedBy, hby⟩)

theorem openCandidate_eq_dated_iff {answer : OpenAnswer} :
    openCandidate floats env.calendar ownerId derivedBy record answer =
        .ok (toCandidate env.calendar ownerId record derivedBy (datedAnswer answer)) ↔
      StatesDays floats env ownerId derivedBy record answer := by
  have hclaims : answer.claims.mapM (openClaim floats env.calendar ownerId derivedBy record
      (answer.entities.map (entityOf env.calendar ownerId record derivedBy))) =
        .ok (answer.claims.map (claimOf env.calendar ownerId record derivedBy
          (answer.entities.map (entityOf env.calendar ownerId record derivedBy)) ∘ dated)) ↔
      StatesDays floats env ownerId derivedBy record answer :=
    mapM_eq_ok_iff.trans (forall₂_congr (fun raw _ => openClaim_eq_dated_iff _ raw))
  simp only [openCandidate, toCandidate, datedAnswer, List.map_map]
  constructor
  · intro h
    obtain ⟨claims, hread, h⟩ := bind_ok h
    obtain rfl : claims = _ := congrArg Candidate.claims (Except.ok.inj h)
    exact hclaims.mp hread
  · intro h
    rw [hclaims.mpr h]
    rfl

theorem onlyDeadlines_iff {batch : List (RawRecord × OpenAnswer)} :
    OnlyDeadlines floats env ownerId derivedBy batch ↔ ∀ p ∈ batch, StatesDays floats env ownerId derivedBy p.1 p.2 := by
  unfold OnlyDeadlines
  rw [mapM_eq_ok_iff]
  exact forall₂_congr (fun p _ => openCandidate_eq_dated_iff)

/-- A claim whose deadline is a string or nothing. -/
def RawClaim.opened (raw : RawClaim) : OpenClaim where
  statement := raw.statement
  subjects := raw.subjects
  commitment := raw.commitment.map (fun c => { owedBy := c.owedBy, owedTo := c.owedTo, dueAt := c.dueAt.map .str })

theorem openClaim_opened (entities : List Entity) (raw : RawClaim) :
    openClaim floats env ownerId derivedBy record entities raw.opened = .ok (claimOf env ownerId record derivedBy entities raw) := by
  obtain ⟨statement, subjects, commitment⟩ := raw
  cases commitment with
  | none => rfl
  | some c =>
    cases hby : byName env entities (env.lower c.owedBy) with
    | none =>
      rw [openClaim_of_unowed rfl hby]
      exact congrArg Except.ok ((claimOf_due_iff entities statement subjects c.owedBy c.owedTo none c.dueAt).mpr
        (absurd hby))
    | some owedBy =>
      rw [openClaim_of_owed rfl hby]
      obtain ⟨_, _, due⟩ := c
      cases due with
      | none => rfl
      | some d =>
        by_cases hempty : d = ""
        · subst hempty
          exact congrArg Except.ok ((claimOf_due_iff ..).mpr (fun _ => rfl))
        · have htruthy : truthy floats (.str d) = true := by simp [truthy, hempty]
          exact congrArg (Except.map _) (dueText_of_truthy htruthy)

/-- An answer with such claims alone is the candidate it is made to be. -/
theorem openCandidate_opened (answer : Answer) :
    openCandidate floats env ownerId derivedBy record
        { entities := answer.entities, claims := answer.claims.map RawClaim.opened } =
      .ok (toCandidate env ownerId record derivedBy answer) := by
  simp only [openCandidate, List.mapM_map, Function.comp_def, openClaim_opened]
  rw [mapM_eq_ok (fun raw _ => rfl)]
  rfl

end Dates
end Llm

/-- A bad deadline costs the deadline alone where the rule-based extractor finds none, and where those the model-backed one
reads are strings that are not taken for days. On no other record or answer does it. -/
theorem only_deadlines_iff (env : Ambient) (floats : Connectors.ChatGpt.Floats) (ownerId derivedBy : String) (find : String → Mock.Matches)
    (records : List RawRecord) (batch : List (RawRecord × Llm.OpenAnswer)) :
    (Mock.OnlyDeadlines env ownerId find records ↔ ∀ record ∈ records, Mock.StatesDays record find) ∧
      (Llm.OnlyDeadlines floats env ownerId derivedBy batch ↔
        ∀ p ∈ batch, Llm.StatesDays floats env ownerId derivedBy p.1 p.2) :=
  ⟨Mock.onlyDeadlines_iff, Llm.onlyDeadlines_iff⟩

/-- A note that promises something by a day that February does not have. -/
def promisingNote : RawRecord where
  externalId := "r1"
  connector := ⟨"mock", checkSourceId_mock⟩
  occurredAtMs := 1
  title := "note"
  body := "Alice committed that project Atlas will ship by 2025-02-30."
  sensitive := false

def februaryMatches : Mock.Matches where
  commitments :=
    [{ whole := "Alice committed that project Atlas will ship by 2025-02-30."
       owedBy := "Alice"
       obligation := "project Atlas will ship"
       due := some "2025-02-30" }]
  projects := ["Atlas"]

/-- An answer that gives the deadline as a number. -/
def numberedAnswer : Llm.OpenAnswer where
  entities := [{ kind := .person, name := "Alice" }]
  claims := [{ statement := "project Atlas will ship.", commitment := some { owedBy := "Alice", dueAt := some (.int 5) } }]

def untimed : Ambient where
  lower s := String.ofList (s.toList.map Char.toLower)
  digest := id
  parseDay := fun _ => none
  nowMs := 1000

/-- Either extractor raises at a deadline, and there is no claim of the commitment. -/
theorem bad_deadlines_raise :
    ¬(∀ env ownerId find records, Mock.OnlyDeadlines env ownerId find records) ∧
      ¬∀ floats env ownerId derivedBy batch, Llm.OnlyDeadlines floats env ownerId derivedBy batch := by
  constructor
  · intro h
    have hsame := (h untimed "alice" (fun _ => februaryMatches) [promisingNote]).each promisingNote List.mem_cons_self
    have hraised : Mock.extract untimed.calendar "alice" promisingNote (fun _ => februaryMatches) = .error (.value "2025-02-30") := by
      rfl
    exact absurd (hraised.symm.trans hsame) nofun
  · intro h
    have hsame := h ⟨fun _ => .ok 0, fun _ => true⟩ untimed "alice" "claude-extractor@v1" [(promisingNote, numberedAnswer)]
    exact absurd hsame nofun

end Memorai.Extraction
