import Memorai.Collections.Lists
import Memorai.Extraction.Notes

/-! A record written in notes is read back: every sentence is one claim, with its wording, its parties and its deadline. -/
namespace Memorai.Extraction.Mock
open Schema Text Regex Results

namespace Note

def stated? : Note → Option ClaimMatch
  | stated person verb project what =>
    some { whole := (stated person verb project what).clause, person := person, statement := intention project what }
  | promised _ _ _ _ _ => none

def promised? : Note → Option CommitmentMatch
  | stated _ _ _ _ => none
  | promised owedBy owedTo project what due =>
    some
      { whole := (promised owedBy owedTo project what due).text
        owedBy := owedBy
        owedTo := owedTo
        obligation := intention project what
        due := due }

def due? : Note → Option String
  | stated _ _ _ _ => none
  | promised _ _ _ _ due => due

def project : Note → String
  | stated _ _ project _ => project
  | promised _ _ project _ _ => project

/-- Who and what is named. -/
def names : Note → List (EntityKind × String)
  | stated person _ project _ => [(.person, person), (.project, project)]
  | promised owedBy owedTo project _ _ => (.person, owedBy) :: owedTo.toList.map ((.person, ·)) ++ [(.project, project)]

def quote : Note → String
  | stated person verb project what => (stated person verb project what).clause
  | promised owedBy owedTo project what due => (promised owedBy owedTo project what due).text

/-- What a note tells: its wording and, of a promise, who owes it, to whom and by when. -/
def told (env : Ambient) : Note → Told
  | stated _ _ project what => { statement := strip (intention project what) ++ "." }
  | promised owedBy owedTo project what due =>
    { statement := strip (intention project what) ++ due.elim "" (" by " ++ ·) ++ "."
      terms :=
        { owedBy := some (.person, env.lower owedBy)
          owedTo := owedTo.map (fun owedTo => (.person, env.lower owedTo))
          dueAtMs := due.bind env.parseDay } }

end Note

/-- The claim tells what the note does, in the note's own words. -/
structure Tells (env : Ambient) (ownerId : String) (record : RawRecord) (n : Note) (claim : Claim) : Prop where
  bears : Bears env ownerId record (n.told env) claim
  quote : claim.provenance.citations.map Citation.quote = [some n.quote]

/-- What was stated, and then what was promised, each in the order it is written. -/
def spoken (notes : List Note) : List Note :=
  notes.filter (fun n => n.stated?.isSome) ++ notes.filter (fun n => n.promised?.isSome)

section Silence
variable {r : Regex} {openings : List (List Char)} {w : List Char} {n : Note}

/-- Nothing begins in a clause about a project but in what the project will do. -/
theorem OpensWith.quiet_intention (h : OpensWith r openings) (hno : ∀ p ∈ openings, p.take 2 ≠ [' ', 'w']) {project : String}
    (hid : ∀ c ∈ project.toList, isIdChar c = true) (hq : Quiet r w) :
    Quiet r ("project ".toList ++ (project.toList ++ (" will ".toList ++ w))) := by
  have hblank : ∀ c ∈ project.toList, c ≠ ' ' := by
    rintro c hc rfl
    exact absurd (hid _ hc) (by decide)
  have hwill : Quiet r (" will ".toList ++ w) := h.quiet_small (by decide) hq
  exact h.quiet_small (by decide) (h.quiet_word hblank hwill rfl (by simp) hno)

theorem quiet_stated {person verb project what : String} (h : (Note.stated person verb project what).Clear) :
    Quiet commitmentRe (Note.stated person verb project what).clause.toList := by
  obtain ⟨hperson, hverb, hintends, hq⟩ := h
  have hintention := opensWith_commitmentRe.quiet_intention (by decide) hintends.id hq
  have hsmall : ∀ v ∈ verbs, small (" ".toList ++ v.toList ++ " that ".toList) = true := by decide
  have hrest := opensWith_commitmentRe.quiet_small (hsmall verb hverb) hintention
  have hother : ∀ v ∈ verbs, ∀ s : List Char, (" ".toList ++ v.toList ++ " that ".toList ++ s).take 2 ≠ [' ', 'c'] := by
    intro v hv s
    simp only [verbs, List.mem_cons, List.not_mem_nil, or_false] at hv
    obtain rfl | rfl | rfl | rfl := hv <;> simp
  have hlong : 2 ≤ (" ".toList ++ verb.toList ++ " that ".toList ++
      ("project ".toList ++ (project.toList ++ (" will ".toList ++ what.toList)))).length := by
    simp
    omega
  have hclause := opensWith_commitmentRe.quiet_word (not_blank_of_name hperson) hrest rfl hlong
    (fun p hp => (List.mem_singleton.mp hp) ▸ (hother verb hverb _).symm)
  simpa [Note.clause, Note.intention] using hclause

theorem quiet_owedTo {owedTo : Option String} (howedTo : ∀ person ∈ owedTo, IsName person) (hq : Quiet claimRe (" that ".toList ++ w)) :
    Quiet claimRe (toText owedTo ++ (" that ".toList ++ w)) := by
  cases owedTo with
  | none => exact hq
  | some person =>
    have hno : ∀ p ∈ claimOpenings, p.take 2 ≠ [' ', 't'] := by decide
    have hperson := opensWith_claimRe.quiet_word (not_blank_of_name (howedTo person rfl)) hq rfl (by simp) hno
    have hsmall : small " to ".toList = true := by decide
    have hto := opensWith_claimRe.quiet_small hsmall hperson
    simpa [toText] using hto

theorem quiet_promised {owedBy project what : String} {owedTo due : Option String}
    (h : (Note.promised owedBy owedTo project what due).Clear) :
    Quiet claimRe (Note.promised owedBy owedTo project what due).clause.toList := by
  obtain ⟨howedBy, howedTo, hintends, hq, _⟩ := h
  have hintention := opensWith_claimRe.quiet_intention (by decide) hintends.id hq
  have hthat := quiet_owedTo howedTo (opensWith_claimRe.quiet_small (by decide) hintention)
  have hcommitted := opensWith_claimRe.quiet_small (by decide : small " committed".toList = true) hthat
  have hno : ∀ p ∈ claimOpenings, p.take 2 ≠ [' ', 'c'] := by decide
  have hclause := opensWith_claimRe.quiet_word (not_blank_of_name howedBy) hcommitted rfl (by simp) hno
  simpa [Note.clause, Note.intention, toText] using hclause

end Silence

section Search
variable {r : Regex} {w rest : List Char} {title : String}

/-- Words in which nothing begins are passed over, and so is the dot behind them. -/
theorem Quiet.findAll (h : Quiet r w) : findAll anywhere r (w ++ '.' :: rest) = Regex.findAll anywhere r rest := by
  have hwords : Regex.findAll anywhere r (w ++ '.' :: rest) = Regex.findAll anywhere r ('.' :: rest) :=
    findAll_append (fun y c z hw => h (c :: z) (hw ▸ List.suffix_append y (c :: z)) rest)
  have hdot : outcomes r ('.' :: rest) = [] := h [] List.nil_suffix rest
  rw [hwords, findAll_cons hdot]

theorem findAll_stated {n : Note} (h : n.Clear) :
    (findAll anywhere claimRe (n.text.toList ++ rest)).map claimMatch =
      n.stated?.toList ++ (findAll anywhere claimRe rest).map claimMatch := by
  have htext : n.text.toList ++ rest = n.clause.toList ++ '.' :: rest := by simp [Note.text]
  rw [htext]
  cases n with
  | stated person verb project what =>
    have hfirst := @first_stated person verb project what rest h.1 h.2.1 h.2.2.1
    have hquiet : Quiet claimRe [] := opensWith_claimRe.quiet_nil
    rw [findAll_of_first hfirst (by simp [Note.clause]), List.map_cons]
    refine congrArg₂ List.cons ?_ (congrArg (List.map claimMatch) hquiet.findAll)
    simp [claimMatch, groupText, Outcome.group?, List.lookup_cons]
  | promised owedBy owedTo project what due =>
    rw [(quiet_promised h).findAll]
    rfl

theorem findAll_promised {n : Note} (h : n.Clear) :
    (findAll anywhere commitmentRe (n.text.toList ++ rest)).map commitmentMatch =
      n.promised?.toList ++ (findAll anywhere commitmentRe rest).map commitmentMatch := by
  have htext : n.text.toList ++ rest = n.clause.toList ++ '.' :: rest := by simp [Note.text]
  rw [htext]
  cases n with
  | stated person verb project what =>
    rw [(quiet_stated h).findAll]
    rfl
  | promised owedBy owedTo project what due =>
    obtain ⟨howedBy, howedTo, hintends, _, hdue, hnone⟩ := h
    have hfirst := @first_promised owedBy project what owedTo due rest howedBy howedTo hintends hdue hnone
    rw [findAll_of_first hfirst (by simp), List.map_cons]
    refine congrArg (· :: _) ?_
    cases owedTo <;> cases due <;> simp [commitmentMatch, groupText, Outcome.group?, Note.text, List.lookup_cons]

end Search

section Written
variable {r : Regex} {openings : List (List Char)} {β : Type} {f : Outcome → β} {part : Note → Option β} {notes : List Note}

/-- Notes as they stand in a record. -/
def written (notes : List Note) : String := join " " (notes.map Note.text)

theorem OpensWith.findAll_blank (h : OpensWith r openings) (s : List Char) : findAll anywhere r (' ' :: s) = findAll anywhere r s :=
  findAll_cons (h.outcomes_of_head (fun _ hc => Option.some.inj hc ▸ by decide))

/-- What is found in every note is found in all of them, in their order. -/
theorem findAll_written (hopens : OpensWith r openings) (h : ∀ n ∈ notes, ∀ rest,
      (findAll anywhere r (n.text.toList ++ rest)).map f = (part n).toList ++ (findAll anywhere r rest).map f) :
    (findAll anywhere r (written notes).toList).map f = notes.filterMap part := by
  induction notes with
  | nil => rfl
  | cons n notes ih =>
    have hrest := ih (fun m hm => h m (List.mem_cons_of_mem _ hm))
    have hcons : (n :: notes).filterMap part = (part n).toList ++ notes.filterMap part := by
      rw [List.filterMap_cons]
      cases part n <;> rfl
    rw [hcons, ← hrest]
    cases notes with
    | nil => simpa [written, join] using h n List.mem_cons_self []
    | cons m notes =>
      have hwritten : written (n :: m :: notes) = n.text ++ (" " ++ written (m :: notes)) := by
        simp [written, join, String.append_assoc]
      rw [hwritten, String.toList_append, h n List.mem_cons_self, String.toList_append]
      exact congrArg (fun found => (part n).toList ++ found.map f) (hopens.findAll_blank _)

/-- The title, which says nothing itself, is passed over. -/
theorem findAll_title (hopens : OpensWith r openings) {title body : String} (h : Quiet r title.toList) :
    findAll anywhere r (title ++ ". " ++ body).toList = findAll anywhere r body.toList := by
  have htext : (title ++ ". " ++ body).toList = title.toList ++ '.' :: ' ' :: body.toList := by simp
  rw [htext, h.findAll, hopens.findAll_blank]

end Written

section Projects
variable {s x more : List Char} {wordChar : Char → Bool}

/-- A project that is written with a capital. -/
def IsProject (project : String) : Prop := ∃ c u, project.toList = c :: u ∧ isUpper c = true ∧ ∀ d ∈ u, isIdChar d = true

theorem mem_projectRe_iff {t : List Char} : t ∈ projectRe.language ↔
    ∃ c u, t = "project ".toList ++ c :: u ∧ isUpper c = true ∧ ∀ d ∈ u, isIdChar d = true := by
  have hproject : projectRe.language = (word "project ".toList).language * ((one isUpper).language * (many isIdChar).language) := rfl
  rw [hproject, Language.mem_mul]
  constructor
  · rintro ⟨_, rfl, _, hrest, rfl⟩
    obtain ⟨_, ⟨c, hc, rfl⟩, u, hu, rfl⟩ := Language.mem_mul.mp hrest
    exact ⟨c, u, rfl, hc, hu⟩
  · rintro ⟨c, u, rfl, hc, hu⟩
    exact ⟨_, rfl, c :: u, Language.mem_mul.mpr ⟨[c], ⟨c, hc, rfl⟩, u, hu, rfl⟩, rfl⟩

/-- Behind a blank in a match there is a capital. -/
theorem isUpper_after_blank {y z : List Char} (h : z ++ y ∈ projectRe.language) (hz : z.getLast? = some ' ') :
    ∃ c ∈ y.head?, isUpper c = true := by
  obtain ⟨c, u, hsplit, hc, hu⟩ := mem_projectRe_iff.mp h
  have hid : ∀ d ∈ c :: u, d ≠ ' ' := by
    rintro d hd rfl
    rcases List.mem_cons.mp hd with rfl | hd
    · exact absurd hc (by decide)
    · exact absurd (hu _ hd) (by decide)
  rcases List.append_eq_append_iff.mp hsplit with ⟨a, ha, rfl⟩ | ⟨a, rfl, ha⟩
  · have hinits : ∀ z ∈ "project ".toList.inits, z.getLast? = some ' ' → z = "project ".toList := by decide
    obtain rfl : a = [] := by
      have hwhole := hinits z ((List.mem_inits _ _).mpr ⟨a, ha.symm⟩) hz
      rw [hwhole] at ha
      exact List.append_right_eq_self.mp ha.symm
    exact ⟨c, rfl, hc⟩
  · cases a with
    | nil => exact ⟨c, congrArg List.head? ha.symm, hc⟩
    | cons d a =>
      rw [List.getLast?_append_of_ne_nil _ (List.cons_ne_nil d a)] at hz
      have hblank : ' ' ∈ c :: u := ha ▸ List.mem_append_left y (List.mem_of_getLast? hz)
      exact absurd rfl (hid ' ' hblank)

theorem mem_projects (hblank : wordChar ' ' = false) (hletter : wordChar 'p' = true) {project : String} (h : IsProject project)
    (hx : x.getLast? = some ' ') (hmore : more.head? = some ' ') :
    project ∈ (findAll (boundary wordChar) projectRe (x ++ ("project ".toList ++ (project.toList ++ more)))).map (groupText · 1) := by
  obtain ⟨c, u, hproject, hc, hu⟩ := h
  have hmany : Leads (many isIdChar) (u ++ more) ⟨u, more, []⟩ (fun t => ∃ c ∈ u, t.head? = some c) := by
    refine leads_many hu (fun d hd => ?_)
    obtain rfl : ' ' = d := Option.some.inj (hmore.symm.trans hd)
    decide
  have hfirst := (leads_word "project ".toList _).first_seq (fun _ h => h.elim)
    (((leads_one hc).seq (fun _ h => h.elim) hmany).group (n := 1)).first
  rw [hproject]
  refine List.mem_map.mpr ⟨_, mem_findAfter ?_ hfirst (by simp) (Nat.zero_le _) (fun y z hyz hz o ho => ?_), ?_⟩
  · rw [hx, Option.some_or]
    exact congrArg₂ bne hblank hletter
  · -- An earlier match that reaches in would go on with a small letter behind the blank.
    by_contra hlong
    obtain ⟨later, houtcomes⟩ : ∃ later, outcomes projectRe _ = o :: later := List.head?_eq_some_iff.mp ho
    obtain ⟨hmem, htext⟩ := mem_language_of_outcome (houtcomes ▸ List.mem_cons_self : o ∈ outcomes projectRe _)
    have hlast : z.getLast? = some ' ' := by
      rw [← hx, hyz, List.getLast?_append_of_ne_nil _ hz]
    rcases List.append_eq_append_iff.mp htext with ⟨w, hw, _⟩ | ⟨w, hw, hrest⟩
    · rw [hw, List.length_append] at hlong
      omega
    · obtain ⟨d, hd, hupper⟩ := isUpper_after_blank (hw ▸ hmem) hlast
      obtain ⟨w, rfl⟩ := List.head?_eq_some_iff.mp hd
      obtain rfl : 'p' = d := (List.cons.inj hrest).1
      exact absurd hupper (by decide)
  · rw [← String.ofList_toList (s := project), hproject]
    simp [groupText, Outcome.group?, Outcome.after, Outcome.grouped]

end Projects

section Candidates
variable {env : Ambient} {ownerId : String} {record : RawRecord} {wordChar : Char → Bool} {notes : List Note}

/-- The record is written in notes, and its title says nothing. -/
structure WrittenIn (record : RawRecord) (notes : List Note) : Prop where
  body : record.body = written notes
  clear : ∀ n ∈ notes, n.Clear
  title : Quiet claimRe record.title.toList ∧ Quiet commitmentRe record.title.toList

theorem WrittenIn.stated (h : WrittenIn record notes) :
    (find wordChar (record.title ++ ". " ++ record.body)).claims = notes.filterMap Note.stated? := by
  rw [find, findAll_title opensWith_claimRe h.title.1, h.body]
  exact findAll_written opensWith_claimRe (fun n hn rest => findAll_stated (h.clear n hn))

theorem WrittenIn.promised (h : WrittenIn record notes) :
    (find wordChar (record.title ++ ". " ++ record.body)).commitments = notes.filterMap Note.promised? := by
  rw [find, findAll_title opensWith_commitmentRe h.title.2, h.body]
  exact findAll_written opensWith_commitmentRe (fun n hn rest => findAll_promised (h.clear n hn))

theorem tells_stated {entities : List Entity} {n : Note} {m : ClaimMatch} (h : n.stated? = some m) :
    Tells env ownerId record n (claimOf env ownerId record entities m) := by
  cases n with
  | stated person verb project what =>
    rw [Note.stated?, Option.some.injEq] at h
    subst h
    exact ⟨bears_claimOf entities ⟨(Note.stated person verb project what).clause, person, Note.intention project what⟩, rfl⟩
  | promised owedBy owedTo project what due => exact absurd h (by simp [Note.stated?])

theorem tells_promised {entities : List Entity} {n : Note} {m : CommitmentMatch} {claim : Claim} (hclear : n.Clear)
    (h : n.promised? = some m) (hclaim : commitmentOf env ownerId record entities m = .ok claim) :
    Tells env ownerId record n claim := by
  cases n with
  | stated person verb project what => exact absurd h (by simp [Note.promised?])
  | promised owedBy owedTo project what due =>
    rw [Note.promised?, Option.some.injEq] at h
    subst h
    have hdue : ∀ day ∈ due, day ≠ "" := by
      rintro day hday rfl
      exact absurd (length_of_date (hclear.2.2.2.2.1 _ hday)).1 (by simp)
    have htold : (Note.promised owedBy owedTo project what due).told env =
        { statement := statementOf ⟨(Note.promised owedBy owedTo project what due).text, owedBy, owedTo, Note.intention project what, due⟩
          terms :=
            { owedBy := some (.person, env.lower owedBy)
              owedTo := owedTo.map (fun owedTo => (.person, env.lower owedTo))
              dueAtMs := Llm.dueMs env due } } := by
      cases due with
      | none => simp [Note.told, statementOf, Llm.dueMs]
      | some day => simp [Note.told, statementOf, Llm.dueMs, hdue day rfl, String.append_assoc]
    have hquote := hclaim
    rw [commitmentOf_eq] at hquote
    obtain ⟨dueAtMs, _, rfl⟩ := map_ok hquote
    exact ⟨htold ▸ bears_commitmentOf hclaim, rfl⟩

private theorem forall₂_of_parts {β γ : Type} {part : Note → Option β} {R : β → γ → Prop} {S : Note → γ → Prop} {cs : List γ}
    (h : List.Forall₂ R (notes.filterMap part) cs) (hS : ∀ n ∈ notes, ∀ m c, part n = some m → R m c → S n c) :
    List.Forall₂ S (notes.filter (fun n => (part n).isSome)) cs := by
  induction notes generalizing cs with
  | nil => exact (List.forall₂_nil_left_iff.mp h) ▸ .nil
  | cons n notes ih =>
    have hrest : ∀ m ∈ notes, ∀ b c, part m = some b → R b c → S m c := fun m hm => hS m (List.mem_cons_of_mem _ hm)
    cases hpart : part n with
    | none =>
      rw [List.filterMap_cons_none hpart] at h
      rw [List.filter_cons_of_neg (by simp [hpart])]
      exact ih h hrest
    | some m =>
      rw [List.filterMap_cons_some hpart] at h
      rw [List.filter_cons_of_pos (by simp [hpart])]
      obtain ⟨c, cs, hmc, hcs, rfl⟩ := List.forall₂_cons_left_iff.mp h
      exact .cons (hS n List.mem_cons_self m c hpart hmc) (ih hcs hrest)

/-- The claims of a candidate, against the notes its matches come from. -/
theorem tells_extract {found : String → Matches} {candidate : Candidate} (h : extract env ownerId record found = .ok candidate)
    (hclear : ∀ n ∈ notes, n.Clear) (hstated : (found (record.title ++ ". " ++ record.body)).claims = notes.filterMap Note.stated?)
    (hpromised : (found (record.title ++ ". " ++ record.body)).commitments = notes.filterMap Note.promised?) :
    List.Forall₂ (Tells env ownerId record) (spoken notes) candidate.claims := by
  obtain ⟨references, _, h⟩ := bind_ok h
  obtain ⟨commitments, hcommitments, h⟩ := bind_ok h
  obtain rfl := Except.ok.inj h
  refine List.rel_append ?_ ?_
  · rw [hstated]
    have hclaims : ∀ (entities : List Entity) (found : List ClaimMatch), List.Forall₂
        (fun m c => claimOf env ownerId record entities m = c) found (found.map (claimOf env ownerId record entities)) :=
      fun entities found => List.forall₂_map_right_iff.mpr (List.forall₂_same.mpr (fun _ _ => rfl))
    refine forall₂_of_parts (hclaims _ _) (fun n _ m c hm hc => ?_)
    exact hc ▸ tells_stated hm
  · rw [hpromised] at hcommitments
    exact forall₂_of_parts (forall₂_of_mapM hcommitments) (fun n hn m c hm hc => tells_promised (hclear n hn) hm hc)

theorem exists_dueMs_iff {due : Option String} (hdue : ∀ day ∈ due, day ≠ "") :
    (∃ dueAtMs, dueMs env due = .ok dueAtMs) ↔ ∀ day ∈ due, ∃ ms, env.parseDay day = some ms := by
  cases due with
  | none => exact ⟨fun _ _ h => absurd h (by simp), fun _ => ⟨none, rfl⟩⟩
  | some day =>
    simp only [dueMs, hdue day rfl, if_false, Option.mem_some_iff, forall_eq']
    cases env.parseDay day <;> simp

theorem exists_extract_iff {found : String → Matches} :
    (∃ candidate, extract env ownerId record found = .ok candidate) ↔
      (∀ reference ∈ record.metadata.cites, checkSourceId (partition ':' reference).1 = true) ∧
        ∀ m ∈ (found (record.title ++ ". " ++ record.body)).commitments, ∃ dueAtMs, dueMs env m.due = .ok dueAtMs := by
  simp only [extract]
  rw [exists_bind_ok_iff, ← @exists_references_iff env ownerId record, ← exists_and_right]
  refine exists_congr (fun references => and_congr_right (fun _ => ?_))
  have hmade : ∀ commitments : List Claim, ∃ candidate : Candidate, (Except.ok
      { entities := entitiesOf env ownerId record (mentions record (found (record.title ++ ". " ++ record.body)))
        events := [eventOf env ownerId record (entitiesOf env ownerId record (mentions record (found (record.title ++ ". " ++ record.body)))) references]
        claims := (found (record.title ++ ". " ++ record.body)).claims.map (claimOf env ownerId record
          (entitiesOf env ownerId record (mentions record (found (record.title ++ ". " ++ record.body))))) ++ commitments } :
            Except Raised Candidate) = .ok candidate := fun _ => ⟨_, rfl⟩
  rw [exists_bind_ok_iff]
  simp only [hmade, and_true, exists_mapM_iff, commitmentOf_eq, exists_map_ok_iff]

theorem infix_written {n : Note} (h : n ∈ notes) : n.text.toList <:+: (written notes).toList := by
  induction notes with
  | nil => exact absurd h List.not_mem_nil
  | cons m notes ih =>
    cases notes with
    | nil =>
      obtain rfl := List.mem_singleton.mp h
      simp [written, join]
    | cons k notes =>
      have hwritten : (written (m :: k :: notes)).toList = m.text.toList ++ (' ' :: (written (k :: notes)).toList) := by
        simp [written, join, String.append_assoc]
      rw [hwritten]
      rcases List.mem_cons.mp h with rfl | h
      · exact (List.prefix_append _ _).isInfix
      · exact (ih h).trans ((List.suffix_cons ' ' _).trans (List.suffix_append _ _)).isInfix

theorem Note.text_project (n : Note) : ∃ x more, n.text.toList = x ++ ' ' :: ("project ".toList ++ (n.project.toList ++ ' ' :: more)) := by
  cases n with
  | stated person verb project what =>
    exact ⟨(person ++ " " ++ verb ++ " that").toList, ("will " ++ what ++ ".").toList, by simp [text, clause, intention, Note.project]⟩
  | promised owedBy owedTo project what due =>
    exact ⟨(owedBy ++ " committed" ++ owedTo.elim "" (" to " ++ ·) ++ " that").toList,
      ("will " ++ what ++ due.elim "" (" by " ++ ·) ++ ".").toList, by simp [text, clause, intention, Note.project]⟩

theorem WrittenIn.project (h : WrittenIn record notes) (hblank : wordChar ' ' = false) (hletter : wordChar 'p' = true) {n : Note}
    (hn : n ∈ notes) (hproject : IsProject n.project) :
    n.project ∈ (find wordChar (record.title ++ ". " ++ record.body)).projects := by
  obtain ⟨pre, post, hbody⟩ := infix_written hn
  obtain ⟨x, more, htext⟩ := n.text_project
  have hsplit : (record.title ++ ". " ++ record.body).toList = ((record.title ++ ". ").toList ++ pre ++ x ++ [' ']) ++
      ("project ".toList ++ (n.project.toList ++ (' ' :: more ++ post))) := by
    rw [String.toList_append, h.body, ← hbody, htext]
    simp
  rw [find, hsplit]
  exact mem_projects hblank hletter hproject List.getLast?_concat rfl

/-- Whoever is named in a note is mentioned, and so is its project if it has a capital. -/
theorem WrittenIn.mentioned (h : WrittenIn record notes) (hblank : wordChar ' ' = false) (hletter : wordChar 'p' = true) {n : Note}
    (hn : n ∈ notes) {name : EntityKind × String} (hname : name ∈ n.names) (hproject : name.1 = .project → IsProject name.2) :
    name ∈ mentions record (find wordChar (record.title ++ ". " ++ record.body)) := by
  have hown : IsProject n.project → (EntityKind.project, n.project) ∈ mentions record (find wordChar (record.title ++ ". " ++ record.body)) := by
    intro hcapital
    simp only [mentions, List.mem_append, List.mem_map]
    exact Or.inl (Or.inr ⟨_, h.project hblank hletter hn hcapital, rfl⟩)
  cases n with
  | stated person verb project what =>
    rcases List.mem_cons.mp hname with rfl | hname
    · simp only [mentions, List.mem_append, List.mem_map, h.stated, List.mem_filterMap]
      exact Or.inl (Or.inl (Or.inl (Or.inr ⟨_, ⟨_, hn, rfl⟩, rfl⟩)))
    · obtain rfl := List.mem_singleton.mp hname
      exact hown (hproject rfl)
  | promised owedBy owedTo project what due =>
    rcases List.mem_append.mp hname with hname | hname
    · simp only [mentions, List.mem_append, List.mem_flatMap, h.promised, List.mem_filterMap]
      exact Or.inl (Or.inl (Or.inr ⟨_, ⟨_, hn, rfl⟩, hname⟩))
    · obtain rfl := List.mem_singleton.mp hname
      exact hown (hproject rfl)

/-- A record written in clear notes is read back. It is refused only where it refers to no source or a deadline is no day; else every
note is one claim, in the note's words and on its terms, and whoever is named is an entity. -/
theorem notes_read_back (env : Ambient) (ownerId : String) {record : RawRecord} {notes : List Note} (h : WrittenIn record notes)
    (hblank : wordChar ' ' = false) (hletter : wordChar 'p' = true) :
    ((∃ candidate, extract env.calendar ownerId record (find wordChar) = .ok candidate) ↔
        (∀ reference ∈ record.metadata.cites, checkSourceId (partition ':' reference).1 = true) ∧
          ∀ n ∈ notes, ∀ day ∈ n.due?, ∃ ms, strptimeDay day = some ms) ∧
      ∀ candidate, extract env.calendar ownerId record (find wordChar) = .ok candidate →
        List.Forall₂ (Tells env.calendar ownerId record) (spoken notes) candidate.claims ∧
          ∀ n ∈ notes, ∀ name ∈ n.names, (name.1 = .project → IsProject name.2) →
            ∃ e ∈ candidate.entities, e.id = stableId env "ent" [ownerId, name.1.value, env.lower name.2] := by
  have hparse : env.calendar.parseDay = strptimeDay := rfl
  have hdays : ∀ n ∈ notes, (∀ m, n.promised? = some m → ∃ dueAtMs, dueMs env.calendar m.due = .ok dueAtMs) ↔
      ∀ day ∈ n.due?, ∃ ms, strptimeDay day = some ms := by
    intro n hn
    cases n with
    | stated person verb project what => simp [Note.promised?, Note.due?]
    | promised owedBy owedTo project what due =>
      have hdue : ∀ day ∈ due, day ≠ "" := by
        rintro day hday rfl
        exact absurd (length_of_date ((h.clear _ hn).2.2.2.2.1 _ hday)).1 (by simp)
      rw [← hparse, Note.due?, ← exists_dueMs_iff hdue]
      simp [Note.promised?]
  refine ⟨?_, fun candidate hcandidate => ⟨tells_extract hcandidate h.clear h.stated h.promised, fun n hn name hname hproject => ?_⟩⟩
  · rw [exists_extract_iff, h.promised]
    refine and_congr_right (fun _ => ?_)
    rw [← forall₂_congr hdays]
    simp only [List.mem_filterMap, forall_exists_index, and_imp]
    exact ⟨fun hall n hn m hm => hall m n hn hm, fun hall m n hn hm => hall n hn m hm⟩
  · obtain ⟨references, _, hcandidate⟩ := bind_ok hcandidate
    obtain ⟨commitments, _, hcandidate⟩ := bind_ok hcandidate
    obtain rfl := Except.ok.inj hcandidate
    exact known_entitiesOf (h.mentioned hblank hletter hn hname hproject)

/-- One sentence of each kind. -/
def atlasNotes : List Note :=
  [.stated "Alice" "agreed" "Atlas" "use queues", .promised "Bob" (some "Carol") "Atlas" "ship" (some "2025-02-14")]

def atlasRecord : RawRecord where
  externalId := "r1"
  connector := ⟨"mock", checkSourceId_mock⟩
  occurredAtMs := 1
  title := "minutes"
  body := "Alice agreed that project Atlas will use queues. Bob committed to Carol that project Atlas will ship by 2025-02-14."
  sensitive := false

theorem writtenIn_atlas : WrittenIn atlasRecord atlasNotes where
  body := by rfl
  clear n hn := by
    simp only [atlasNotes, List.mem_cons, List.not_mem_nil, or_false] at hn
    obtain rfl | rfl := hn
    · refine ⟨by decide, by decide, ⟨by decide, ?_, by decide, ?_⟩, opensWith_commitmentRe.quiet_of_small (by decide)⟩
      · exact List.all_eq_true.mp (by decide)
      · exact List.all_eq_true.mp (by decide)
    · refine ⟨by decide, by decide, ⟨by decide, ?_, by decide, ?_⟩, opensWith_claimRe.quiet_of_small (by decide), by decide, by simp⟩
      · exact List.all_eq_true.mp (by decide)
      · exact List.all_eq_true.mp (by decide)
  title := ⟨opensWith_claimRe.quiet_of_small (by decide), opensWith_commitmentRe.quiet_of_small (by decide)⟩

theorem notes_read_back_atlas : ∃ candidate, extract untimed.calendar "alice" atlasRecord (find Char.isAlphanum) = .ok candidate ∧
    List.Forall₂ (Tells untimed.calendar "alice" atlasRecord) (spoken atlasNotes) candidate.claims := by
  have h := notes_read_back untimed "alice" writtenIn_atlas (by decide : Char.isAlphanum ' ' = false) (by decide)
  have hdays : ∀ n ∈ atlasNotes, ∀ day ∈ n.due?, ∃ ms, strptimeDay day = some ms := by
    intro n hn day hday
    simp only [atlasNotes, List.mem_cons, List.not_mem_nil, or_false] at hn
    obtain rfl | rfl := hn
    · exact absurd hday (by simp [Note.due?])
    · obtain rfl : "2025-02-14" = day := Option.some.inj hday
      exact ⟨1739491200000, by decide⟩
  obtain ⟨candidate, hcandidate⟩ := h.1.mpr ⟨by decide, hdays⟩
  exact ⟨candidate, hcandidate, (h.2 candidate hcandidate).1⟩

end Candidates

end Memorai.Extraction.Mock
