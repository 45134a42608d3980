import Memorai.Extraction.Coverage
import Memorai.Extraction.Deadlines
import Memorai.Resolution.Statements

/-! What a claim says beside its wording, and that its id is of the wording alone. -/
namespace Memorai.Extraction
open Schema Text Results Resolver

/-- A party, as far as its id tells it: what it is, and its lowered name. -/
abbrev Party := EntityKind × String

/-- Who owes it, to whom and by when. A plain claim has none of these. -/
structure Terms where
  owedBy : Option Party := none
  owedTo : Option Party := none
  dueAtMs : Option Int := none
  deriving DecidableEq, Repr

/-- What a record is found to say. -/
structure Told where
  statement : String
  terms : Terms := {}
  deriving DecidableEq, Repr

/-- What was told, by whom and in which record. -/
structure Entry where
  ownerId : String
  record : RawRecord
  told : Told

/-- What resolution compares of a claim. -/
def contents (c : Claim) : String × Option String × Option String × Option Int := (c.statement, obligation c)

section Ids
variable (env : Ambient) (ownerId : String) (record : RawRecord)

/-- The text a party's id is made from. -/
def partyText (party : Party) : String := join "\x1f" [ownerId, party.1.value, party.2]

def partyId (party : Party) : String := "ent_" ++ env.digest (partyText ownerId party)

/-- The terms, with the parties as the texts of their ids. -/
def Terms.texts (terms : Terms) : Option String × Option String × Option Int :=
  (terms.owedBy.map (partyText ownerId), terms.owedTo.map (partyText ownerId), terms.dueAtMs)

/-- What `_obligation` gives of a claim on these terms. -/
def Terms.ids (terms : Terms) : Option String × Option String × Option Int :=
  (terms.owedBy.map (partyId env ownerId), terms.owedTo.map (partyId env ownerId), terms.dueAtMs)

/-- The text a claim's id is made from. -/
def claimText (statement : String) : String := join "\x1f" [ownerId, eventIdOf env ownerId record, statement]

/-- A claim that says this of the record. -/
structure Bears (told : Told) (claim : Claim) : Prop where
  id : claim.id = "clm_" ++ env.digest (claimText env ownerId record told.statement)
  statement : claim.statement = told.statement
  obligation : obligation claim = told.terms.ids env ownerId

end Ids

/-- Claims that differ in statement or obligation have different ids. -/
def IdsTellContents (claims : List Claim) : Prop := ∀ c ∈ claims, ∀ c' ∈ claims,
  c.statement ≠ c'.statement ∨ obligation c ≠ obligation c' → c.id ≠ c'.id

/-- What is told under one id is one statement, on the same terms. -/
def OnOneTerms (env : Ambient) (entries : List Entry) : Prop := ∀ e ∈ entries, ∀ e' ∈ entries,
  claimText env e.ownerId e.record e.told.statement = claimText env e'.ownerId e'.record e'.told.statement →
    e.told.statement = e'.told.statement ∧ e.told.terms.texts e.ownerId = e'.told.terms.texts e'.ownerId

/-- No wording is used on two different terms. -/
def OneObligationEach (told : List Told) : Prop := ∀ t ∈ told, ∀ t' ∈ told, t.statement = t'.statement → t.terms = t'.terms

section Digests
variable {env : Ambient} {ownerId : String} {record : RawRecord}

theorem join_inj {a b c c' : String} (h : join "\x1f" [a, b, c] = join "\x1f" [a, b, c']) : c = c' := by
  have hjoin : ∀ c : String, join "\x1f" [a, b, c] = a ++ "\x1f" ++ b ++ "\x1f" ++ c := fun _ => rfl
  rw [hjoin, hjoin] at h
  exact (String.append_right_inj _).mp h

theorem partyText_injective : Function.Injective (partyText ownerId) := by
  rintro ⟨kind, name⟩ ⟨kind', name'⟩ h
  obtain rfl := kind_of_parts h
  obtain rfl := join_inj h
  rfl

theorem Terms.texts_injective : Function.Injective (Terms.texts ownerId) := by
  rintro ⟨owedBy, owedTo, dueAtMs⟩ ⟨owedBy', owedTo', dueAtMs'⟩ h
  have hparty : Function.Injective (Option.map (partyText ownerId)) := Option.map_injective partyText_injective
  simp only [texts, Prod.mk.injEq] at h
  rw [hparty h.1, hparty h.2.1, h.2.2]

theorem Terms.ids_eq_iff (hdigest : Function.Injective env.digest) {ownerId' : String} {terms terms' : Terms} :
    terms.ids env ownerId = terms'.ids env ownerId' ↔ terms.texts ownerId = terms'.texts ownerId' := by
  have hid : Function.Injective (fun text => "ent_" ++ env.digest text) := fun _ _ h => hdigest ((String.append_right_inj _).mp h)
  have hparty : ∀ party party' : Option Party, party.map (partyId env ownerId) = party'.map (partyId env ownerId') ↔
      party.map (partyText ownerId) = party'.map (partyText ownerId') := by
    intro party party'
    have hsame := (Option.map_injective hid).eq_iff (a := party.map (partyText ownerId)) (b := party'.map (partyText ownerId'))
    rwa [Option.map_map, Option.map_map] at hsame
  simp only [ids, texts, Prod.mk.injEq, hparty]

theorem OnOneTerms.mono {entries entries' : List Entry} (h : OnOneTerms env entries') (hsub : entries ⊆ entries') :
    OnOneTerms env entries := fun e he e' he' => h e (hsub he) e' (hsub he')

/-- Claims that share an id say the same exactly if what is told under one id is on the same terms. -/
theorem contents_of_id_iff (hdigest : Function.Injective env.digest) {entries : List Entry} {claims : List Claim}
    (h : List.Forall₂ (fun (e : Entry) c => Bears env e.ownerId e.record e.told c) entries claims) :
    (∀ c ∈ claims, ∀ c' ∈ claims, c.id = c'.id → contents c = contents c') ↔ OnOneTerms env entries := by
  constructor
  · intro hsame e he e' he' htext
    obtain ⟨c, hc, hbears⟩ := Lists.exists_of_forall₂ h.flip he
    obtain ⟨c', hc', hbears'⟩ := Lists.exists_of_forall₂ h.flip he'
    have hcontents := hsame c hc c' hc' (by rw [hbears.id, hbears'.id, htext])
    rwa [contents, contents, Prod.mk.injEq, hbears.statement, hbears'.statement, hbears.obligation, hbears'.obligation,
      Terms.ids_eq_iff hdigest] at hcontents
  · intro hterms c hc c' hc' hid
    obtain ⟨e, he, hbears⟩ := Lists.exists_of_forall₂ h hc
    obtain ⟨e', he', hbears'⟩ := Lists.exists_of_forall₂ h hc'
    rw [hbears.id, hbears'.id] at hid
    obtain ⟨hstatement, htexts⟩ := hterms e he e' he' (hdigest ((String.append_right_inj _).mp hid))
    rw [contents, contents, hbears.statement, hbears'.statement, hbears.obligation, hbears'.obligation, hstatement,
      (Terms.ids_eq_iff hdigest).mpr htexts]

theorem idsTellContents_iff_contents {claims : List Claim} :
    IdsTellContents claims ↔ ∀ c ∈ claims, ∀ c' ∈ claims, c.id = c'.id → contents c = contents c' := by
  refine forall₂_congr (fun c _ => forall₂_congr (fun c' _ => ?_))
  rw [contents, contents, Prod.mk.injEq, ← not_and_or, ne_eq, not_imp_not]

/-- In one record, what is told under one id is what is told in one wording. -/
theorem onOneTerms_record_iff {told : List Told} :
    OnOneTerms env (told.map (Entry.mk ownerId record)) ↔ OneObligationEach told := by
  simp only [OnOneTerms, OneObligationEach, List.forall_mem_map]
  refine forall₂_congr (fun t _ => forall₂_congr (fun t' _ => ?_))
  constructor
  · intro h hstatement
    exact Terms.texts_injective (h (congrArg (claimText env ownerId record) hstatement)).2
  · intro h htext
    have hstatement := join_inj htext
    exact ⟨hstatement, congrArg (Terms.texts ownerId) (h hstatement)⟩

/-- Claims of one record tell their contents by id exactly if no wording of it is used twice on different terms. -/
theorem idsTellContents_iff (hdigest : Function.Injective env.digest) {told : List Told} {claims : List Claim}
    (h : List.Forall₂ (Bears env ownerId record) told claims) : IdsTellContents claims ↔ OneObligationEach told := by
  have hentries : List.Forall₂ (fun (e : Entry) c => Bears env e.ownerId e.record e.told c) (told.map (Entry.mk ownerId record)) claims :=
    List.forall₂_map_left_iff.mpr h
  rw [idsTellContents_iff_contents, contents_of_id_iff hdigest hentries]
  exact onOneTerms_record_iff

end Digests

namespace Mock
variable {env : Ambient} {ownerId : String} {record : RawRecord}

/-- What the patterns find a record to say. -/
def told (env : Ambient) (found : Matches) : List Told :=
  found.claims.map (fun m => { statement := strip m.statement ++ "." }) ++
    found.commitments.map (fun m =>
      { statement := statementOf m
        terms :=
          { owedBy := some (.person, env.lower m.owedBy)
            owedTo := m.owedTo.map (fun owedTo => (.person, env.lower owedTo))
            dueAtMs := Llm.dueMs env m.due } })

theorem id_addEntity (entities : List Entity) (kind : EntityKind) (name : String) :
    (addEntity env ownerId record entities kind name).2.id = partyId env ownerId (kind, env.lower name) := by
  unfold addEntity
  split
  · rename_i existing hfind
    have hid := List.find?_some hfind
    exact of_decide_eq_true hid
  · rfl

theorem dueMs_ok {due : Option String} {dueAtMs : Option Int} (h : dueMs env due = .ok dueAtMs) : dueAtMs = Llm.dueMs env due := by
  cases due with
  | none => exact (Except.ok.inj h).symm
  | some d =>
    by_cases hempty : d = ""
    · subst hempty
      exact (Except.ok.inj h).symm
    · cases hread : env.parseDay d with
      | none => simp [dueMs, hempty, hread] at h
      | some ms =>
        simp only [dueMs, hempty, hread, if_false, Except.ok.injEq] at h
        simp [Llm.dueMs, hempty, hread, ← h]

theorem bears_claimOf (entities : List Entity) (m : ClaimMatch) :
    Bears env ownerId record { statement := strip m.statement ++ "." } (claimOf env ownerId record entities m) := ⟨rfl, rfl, rfl⟩

theorem bears_commitmentOf {entities : List Entity} {m : CommitmentMatch} {claim : Claim}
    (h : commitmentOf env ownerId record entities m = .ok claim) :
    Bears env ownerId record
      { statement := statementOf m
        terms :=
          { owedBy := some (.person, env.lower m.owedBy)
            owedTo := m.owedTo.map (fun owedTo => (.person, env.lower owedTo))
            dueAtMs := Llm.dueMs env m.due } } claim := by
  rw [commitmentOf_eq] at h
  obtain ⟨dueAtMs, hdue, rfl⟩ := map_ok h
  refine ⟨rfl, rfl, ?_⟩
  have hby : (partiesOf env ownerId record entities m).1.id = partyId env ownerId (.person, env.lower m.owedBy) := id_addEntity ..
  have hto : (partiesOf env ownerId record entities m).2.map Entity.id =
      (m.owedTo.map (fun owedTo => (EntityKind.person, env.lower owedTo))).map (partyId env ownerId) := by
    simp only [partiesOf, Option.map_map]
    exact congrArg (m.owedTo.map ·) (funext (fun owedTo => id_addEntity ..))
  simp only [commitmentDue, obligation, Terms.ids, hby, hto, dueMs_ok hdue, Option.map_some]

theorem bears_extract {find : String → Matches} {candidate : Candidate} (h : extract env ownerId record find = .ok candidate) :
    List.Forall₂ (Bears env ownerId record) (told env (find (record.title ++ ". " ++ record.body))) candidate.claims := by
  obtain ⟨references, _, h⟩ := bind_ok h
  obtain ⟨commitments, hcommitments, h⟩ := bind_ok h
  obtain rfl := Except.ok.inj h
  refine List.rel_append ?_ ?_
  · exact List.forall₂_map_left_iff.mpr (List.forall₂_map_right_iff.mpr (List.forall₂_same.mpr (fun m _ => bears_claimOf _ m)))
  · exact List.forall₂_map_left_iff.mpr ((forall₂_of_mapM hcommitments).imp (fun m claim hclaim => bears_commitmentOf hclaim))

end Mock

namespace Llm
variable {env : Ambient} {ownerId : String} {record : RawRecord} {derivedBy : String}

/-- The party a lowered name stands for: the last entity of the answer that has it. -/
def partyOf (env : Ambient) (entities : List RawEntity) (name : String) : Option Party :=
  (entities.filter (fun raw => env.lower raw.name = name)).getLast?.map (fun raw => (raw.kind, env.lower raw.name))

/-- Without a party who owes it there are no terms. -/
def termsOf (env : Ambient) (entities : List RawEntity) (raw : Option RawCommitment) : Terms :=
  match raw with
  | none => {}
  | some c =>
    match partyOf env entities (env.lower c.owedBy) with
    | none => {}
    | some owedBy =>
      { owedBy := some owedBy
        owedTo := partyOf env entities (env.lower (c.owedTo.getD ""))
        dueAtMs := dueMs env c.dueAt }

/-- What an answer says of a record. -/
def told (env : Ambient) (answer : Answer) : List Told :=
  answer.claims.map (fun raw => { statement := raw.statement, terms := termsOf env answer.entities raw.commitment })

theorem id_byName (entities : List RawEntity) (name : String) :
    (byName env (entities.map (entityOf env ownerId record derivedBy)) name).map Entity.id =
      (partyOf env entities name).map (partyId env ownerId) := by
  unfold byName partyOf
  rw [List.filter_map, List.getLast?_map, Option.map_map, Option.map_map]
  rfl

theorem bears_claimOf (entities : List RawEntity) (raw : RawClaim) :
    Bears env ownerId record { statement := raw.statement, terms := termsOf env entities raw.commitment }
      (claimOf env ownerId record derivedBy (entities.map (entityOf env ownerId record derivedBy)) raw) := by
  refine ⟨rfl, rfl, ?_⟩
  have hid : ∀ name, (byName env (entities.map (entityOf env ownerId record derivedBy)) name).map Entity.id =
      (partyOf env entities name).map (partyId env ownerId) := id_byName entities
  cases hraw : raw.commitment with
  | none => simp [claimOf, commitmentOf, termsOf, obligation, Terms.ids, hraw]
  | some c =>
    have howes := hid (env.lower c.owedBy)
    cases hby : partyOf env entities (env.lower c.owedBy) with
    | none =>
      rw [hby, Option.map_none, Option.map_eq_none_iff] at howes
      simp [claimOf, commitmentOf, termsOf, obligation, Terms.ids, hraw, hby, howes]
    | some owedBy =>
      rw [hby, Option.map_some, Option.map_eq_some_iff] at howes
      obtain ⟨e, he, hsame⟩ := howes
      simp [claimOf, commitmentOf, termsOf, obligation, Terms.ids, hraw, hby, he, hsame, hid]

theorem bears_toCandidate (answer : Answer) :
    List.Forall₂ (Bears env ownerId record) (told env answer) (toCandidate env ownerId record derivedBy answer).claims :=
  List.forall₂_map_left_iff.mpr (List.forall₂_map_right_iff.mpr (List.forall₂_same.mpr (fun raw _ => bears_claimOf _ raw)))

end Llm

/-- What is made into a candidate: the text of the record by patterns, or an answer of the model about it. -/
inductive Reader where
  | patterns (find : String → Mock.Matches)
  | model (derivedBy : String) (answer : Llm.Answer)

namespace Reader
variable (env : Ambient) (ownerId : String) (record : RawRecord)

def extract : Reader → Except Mock.Raised Candidate
  | patterns find => Mock.extract env ownerId record find
  | model derivedBy answer => .ok (Llm.toCandidate env ownerId record derivedBy answer)

def told : Reader → List Told
  | patterns find => Mock.told env (find (record.title ++ ". " ++ record.body))
  | model _ answer => Llm.told env answer

variable {env ownerId record}

theorem bears {reader : Reader} {candidate : Candidate} (h : reader.extract env ownerId record = .ok candidate) :
    List.Forall₂ (Bears env ownerId record) (reader.told env record) candidate.claims := by
  cases reader with
  | patterns find => exact Mock.bears_extract h
  | model derivedBy answer =>
    obtain rfl := Except.ok.inj h
    exact Llm.bears_toCandidate answer

end Reader
end Memorai.Extraction
