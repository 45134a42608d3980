import Memorai.Extraction.ReadBack

/-! What the rule-based extractor quotes stands in the record, and a claim says no more than its quote. -/
namespace Memorai.Extraction.Mock
open Schema Text Regex Results

section Matches
variable {s : List Char} {o : Outcome}

theorem mem_outcomes_seq {r r' : Regex} : o ∈ outcomes (seq r r') s ↔ ∃ o₁ ∈ outcomes r s, ∃ o₂ ∈ outcomes r' o₁.rest, o₁.after o₂ = o := by
  simp only [outcomes, List.mem_flatMap, List.mem_map]

theorem mem_outcomes_group {n : Nat} {r : Regex} (hplain : r.Plain) (h : o ∈ outcomes (group n r) s) :
    o.taken ∈ r.language ∧ o.groups = [(n, o.taken)] := by
  obtain ⟨o', ho', rfl⟩ := List.mem_map.mp h
  refine ⟨(mem_language_of_outcome ho').1, ?_⟩
  rw [Outcome.grouped, groups_of_plain hplain ho', List.nil_append]

/-- A part that may be missing. -/
theorem mem_outcomes_part {text : List Char} {n : Nat} {r : Regex} (hplain : r.Plain)
    (h : o ∈ outcomes (optional (concat [word text, group n r])) s) :
    (o.taken = [] ∧ o.groups = []) ∨ ∃ t ∈ r.language, o.taken = text ++ t ∧ o.groups = [(n, t)] := by
  rcases List.mem_append.mp h with h | h
  · obtain ⟨o₁, h₁, o₂, h₂, rfl⟩ := mem_outcomes_seq.mp h
    obtain ⟨hmem, hgroups⟩ := mem_outcomes_group hplain h₂
    have htaken : o₁.taken = text := (mem_language_of_outcome h₁).1
    have hnone := groups_of_plain (by simp [Plain]) h₁
    exact Or.inr ⟨o₂.taken, hmem, by rw [Outcome.after, htaken], by rw [Outcome.after, hnone, hgroups, List.nil_append]⟩
  · rw [List.mem_singleton.mp h]
    exact Or.inl ⟨rfl, rfl⟩

/-- What is stated stands last in the match. -/
theorem groups_claimRe (h : o ∈ outcomes claimRe s) : ∃ before said, o.taken = before ++ said ∧ said ∈ (intent (many notDot)).language ∧
    o.group? 2 = some said := by
  obtain ⟨o₁, h₁, _, hbehind, rfl⟩ := mem_outcomes_seq.mp h
  obtain ⟨o₂, h₂, _, hrest, rfl⟩ := mem_outcomes_seq.mp hbehind
  obtain ⟨o₃, h₃, _, hmore, rfl⟩ := mem_outcomes_seq.mp hrest
  obtain ⟨o₄, h₄, o₅, h₅, rfl⟩ := mem_outcomes_seq.mp hmore
  obtain ⟨_, hperson⟩ := mem_outcomes_group (by simp [name, concat, Plain]) h₁
  obtain ⟨hsaid, hstated⟩ := mem_outcomes_group (by simp [intent, concat, Plain]) h₅
  have hblank := groups_of_plain (by simp [Plain]) h₂
  have hverb := groups_of_plain (by simp [verb, Plain]) h₃
  have hthat := groups_of_plain (by simp [Plain]) h₄
  refine ⟨o₁.taken ++ o₂.taken ++ o₃.taken ++ o₄.taken, o₅.taken, ?_, hsaid, ?_⟩
  · simp [Outcome.after]
  · simp [Outcome.after, Outcome.group?, List.lookup_cons, hperson, hblank, hverb, hthat, hstated]

/-- What is promised stands before the deadline, if there is one, and the dot. -/
theorem groups_commitmentRe (h : o ∈ outcomes commitmentRe s) : ∃ before said due, said ∈ (intent (few notDot)).language ∧
    o.taken = before ++ (said ++ (dueText due ++ ['.'])) ∧ o.group? 3 = some said ∧ (o.group? 4).map String.ofList = due ∧
      ∀ day ∈ due, day.toList ∈ date.language := by
  obtain ⟨o₁, h₁, _, hbehind, rfl⟩ := mem_outcomes_seq.mp h
  obtain ⟨o₂, h₂, _, hrest, rfl⟩ := mem_outcomes_seq.mp hbehind
  obtain ⟨o₃, h₃, _, hmore, rfl⟩ := mem_outcomes_seq.mp hrest
  obtain ⟨o₄, h₄, _, hlater, rfl⟩ := mem_outcomes_seq.mp hmore
  obtain ⟨o₅, h₅, _, hend, rfl⟩ := mem_outcomes_seq.mp hlater
  obtain ⟨o₆, h₆, o₇, h₇, rfl⟩ := mem_outcomes_seq.mp hend
  obtain ⟨_, howedBy⟩ := mem_outcomes_group (by simp [name, concat, Plain]) h₁
  have hcommitted := groups_of_plain (by simp [Plain]) h₂
  have hthat := groups_of_plain (by simp [Plain]) h₄
  obtain ⟨hsaid, hobligation⟩ := mem_outcomes_group (by simp [intent, concat, Plain]) h₅
  obtain ⟨hdot, hnone⟩ : o₇.taken = ['.'] ∧ o₇.groups = [] :=
    ⟨(mem_language_of_outcome h₇).1, groups_of_plain (by simp [concat, Plain]) h₇⟩
  have howedTo : o₃.groups.lookup 3 = none ∧ o₃.groups.lookup 4 = none := by
    rcases mem_outcomes_part (by simp [name, concat, Plain]) h₃ with ⟨_, hgroups⟩ | ⟨t, _, _, hgroups⟩
    · rw [hgroups]
      exact ⟨rfl, rfl⟩
    · rw [hgroups]
      exact ⟨rfl, rfl⟩
  have hthree : (o₁.after (o₂.after (o₃.after (o₄.after (o₅.after (o₆.after o₇)))))).group? 3 = some o₅.taken := by
    simp [Outcome.after, Outcome.group?, List.lookup_cons, List.lookup_append, howedBy, hcommitted, howedTo, hthat, hobligation]
  have hfour : (o₁.after (o₂.after (o₃.after (o₄.after (o₅.after (o₆.after o₇)))))).group? 4 = o₆.groups.lookup 4 := by
    simp [Outcome.after, Outcome.group?, List.lookup_cons, List.lookup_append, howedBy, hcommitted, howedTo, hthat, hobligation, hnone]
  refine ⟨o₁.taken ++ (o₂.taken ++ (o₃.taken ++ o₄.taken)), o₅.taken, (o₆.groups.lookup 4).map String.ofList, hsaid, ?_,
    hthree, congrArg _ hfour, ?_⟩
  all_goals rcases mem_outcomes_part (by simp [date, concat, Plain]) h₆ with ⟨htaken, hgroups⟩ | ⟨day, hday, htaken, hgroups⟩
  · simp [Outcome.after, htaken, hgroups, hdot, dueText]
  · simp [Outcome.after, htaken, hgroups, hdot, dueText]
  · simp [hgroups]
  · simpa [hgroups] using hday

end Matches

/-- What a claim quotes. -/
def quotes (c : Claim) : List String := c.provenance.citations.filterMap Citation.quote

/-- What was stated is the end of the quote. -/
structure QuotesStated (c : Claim) : Prop where
  plain : c.commitment = none
  said : ∃ before said, quotes c = [before ++ said] ∧ said.toList ∈ (intent (many notDot)).language ∧ c.statement = strip said ++ "."

/-- What was promised is the end of the quote, with the deadline and the dot. -/
structure QuotesPromised (c : Claim) : Prop where
  owed : c.commitment ≠ none
  said : ∃ before said, ∃ due : Option String, quotes c = [before ++ (said ++ due.elim "" (" by " ++ ·) ++ ".")] ∧
    said.toList ∈ (intent (few notDot)).language ∧ c.statement = strip said ++ due.elim "" (" by " ++ ·) ++ "."

section Verbatim
variable {env : Ambient} {ownerId : String} {record : RawRecord} {wordChar : Char → Bool} {s : List Char} {o : Outcome}

theorem quotes_commitmentOf {entities : List Entity} {m : CommitmentMatch} {claim : Claim}
    (h : commitmentOf env ownerId record entities m = .ok claim) : quotes claim = [m.whole] := by
  rw [commitmentOf_eq] at h
  obtain ⟨dueAtMs, _, rfl⟩ := map_ok h
  rfl

theorem quotesStated (h : o ∈ outcomes claimRe s) (entities : List Entity) :
    QuotesStated (claimOf env ownerId record entities (claimMatch o)) := by
  obtain ⟨before, said, htaken, hsaid, hgroup⟩ := groups_claimRe h
  have hquote : quotes (claimOf env ownerId record entities (claimMatch o)) = [String.ofList o.taken] := rfl
  have hstatement : (claimOf env ownerId record entities (claimMatch o)).statement = strip (groupText o 2) ++ "." := rfl
  refine ⟨rfl, String.ofList before, String.ofList said, ?_, by simpa using hsaid, ?_⟩
  · rw [hquote, htaken, String.ofList_append]
  · rw [hstatement, groupText, hgroup, Option.getD_some]

theorem quotesPromised (h : o ∈ outcomes commitmentRe s) {entities : List Entity} {claim : Claim}
    (hclaim : commitmentOf env ownerId record entities (commitmentMatch o) = .ok claim) : QuotesPromised claim := by
  obtain ⟨before, said, due, hsaid, htaken, hgroup, hdue, hdays⟩ := groups_commitmentRe h
  have hquote : quotes claim = [String.ofList o.taken] := quotes_commitmentOf hclaim
  rw [commitmentOf_eq] at hclaim
  obtain ⟨dueAtMs, _, rfl⟩ := map_ok hclaim
  have hstatement : (commitmentDue env ownerId record entities (commitmentMatch o) dueAtMs).statement =
      statementOf (commitmentMatch o) := rfl
  refine ⟨Option.some_ne_none _, String.ofList before, String.ofList said, due, ?_, by simpa using hsaid, ?_⟩
  · rw [hquote, htaken]
    refine congrArg (fun quote : String => [quote]) (String.toList_inj.mp ?_)
    simp [dueText]
  · rw [hstatement]
    simp only [statementOf, commitmentMatch, groupText, hgroup, hdue, Option.getD_some]
    cases due with
    | none => simp
    | some day =>
      have hday : day ≠ "" := by
        rintro rfl
        exact absurd (length_of_date (hdays _ rfl)).1 (by simp)
      simp [hday, String.append_assoc]

/-- What was matched stands in the text, one after the other. -/
theorem inOrder_wholes (r : Regex) {wholes : List String} (h : wholes = (findAll anywhere r s).map (fun o => String.ofList o.taken)) :
    InOrder (wholes.map String.toList) s := by
  have htaken : wholes.map String.toList = (findAll anywhere r s).map Outcome.taken := by
    simp [h, Function.comp_def]
  rw [htaken]
  exact inOrder_findAfter 0

/-- Whatever the text, the quotes stand in it one after the other, and a claim says nothing that is not in its quote. -/
theorem quotes_verbatim {candidate : Candidate} (h : extract env ownerId record (find wordChar) = .ok candidate) :
    ∃ stated promised, candidate.claims = stated ++ promised ∧
      (∀ c ∈ stated, QuotesStated c) ∧ (∀ c ∈ promised, QuotesPromised c) ∧
      InOrder ((stated.flatMap quotes).map String.toList) (record.title ++ ". " ++ record.body).toList ∧
      InOrder ((promised.flatMap quotes).map String.toList) (record.title ++ ". " ++ record.body).toList := by
  obtain ⟨references, _, h⟩ := bind_ok h
  obtain ⟨commitments, hcommitments, h⟩ := bind_ok h
  obtain rfl := Except.ok.inj h
  have hwhole := Lists.flatMap_eq_of_forall₂ (forall₂_of_mapM hcommitments) (fun m c hc => (quotes_commitmentOf hc).symm)
  refine ⟨_, _, rfl, fun c hc => ?_, fun c hc => ?_, ?_, ?_⟩
  · obtain ⟨m, hm, rfl⟩ := List.mem_map.mp hc
    obtain ⟨o, ho, rfl⟩ := List.mem_map.mp hm
    obtain ⟨t, ho⟩ := exists_outcomes_of_mem_findAfter ho
    exact quotesStated ho _
  · obtain ⟨m, hm, hclaim⟩ := exists_of_mapM hcommitments hc
    obtain ⟨o, ho, rfl⟩ := List.mem_map.mp hm
    obtain ⟨t, ho⟩ := exists_outcomes_of_mem_findAfter ho
    exact quotesPromised ho hclaim
  · refine inOrder_wholes claimRe ?_
    rw [find, List.flatMap_map, List.flatMap_map]
    exact List.map_eq_flatMap.symm
  · refine inOrder_wholes commitmentRe ?_
    rw [← hwhole, find, List.flatMap_map]
    exact List.map_eq_flatMap.symm

theorem quotes_verbatim_atlas : ∃ candidate, extract untimed.calendar "alice" atlasRecord (find Char.isAlphanum) = .ok candidate ∧
    ∃ stated promised, candidate.claims = stated ++ promised ∧
      (∀ c ∈ stated, QuotesStated c) ∧ (∀ c ∈ promised, QuotesPromised c) ∧
      InOrder ((stated.flatMap quotes).map String.toList) (atlasRecord.title ++ ". " ++ atlasRecord.body).toList ∧
      InOrder ((promised.flatMap quotes).map String.toList) (atlasRecord.title ++ ". " ++ atlasRecord.body).toList := by
  have hextracted : ∃ candidate, extract untimed.calendar "alice" atlasRecord (find Char.isAlphanum) = .ok candidate := by
    refine exists_extract_iff.mpr ⟨by decide, fun m hm => ?_⟩
    rw [writtenIn_atlas.promised] at hm
    obtain rfl : m = _ := List.mem_singleton.mp hm
    exact ⟨_, rfl⟩
  obtain ⟨candidate, h⟩ := hextracted
  exact ⟨candidate, h, quotes_verbatim h⟩

end Verbatim

end Memorai.Extraction.Mock
