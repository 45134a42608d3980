import Memorai.Extraction.Patterns
import Memorai.Extraction.Wordings

/-! Notes as they are written, and that the patterns read them back: each note once, in order, with all its parts. -/
namespace Memorai.Extraction.Mock
open Schema Text Regex

section Parts
variable {a w s t : List Char} {r r' : Regex} {o : Outcome}

theorem outcomes_seq_eq_nil (h : outcomes r s = []) : outcomes (seq r r') s = [] := by
  rw [outcomes, h, List.flatMap_nil]

theorem outcomes_word_eq_nil {text : List Char} (h : ¬ text <+: s) : outcomes (word text) s = [] := by
  rw [outcomes, if_neg (fun hprefix => h (List.isPrefixOf_iff_prefix.mp hprefix))]

theorem outcomes_word_eq_nil_of_head {c : Char} {text : List Char} (h : s.head? ≠ some c) : outcomes (word (c :: text)) s = [] := by
  refine outcomes_word_eq_nil ?_
  rintro ⟨rest, rfl⟩
  exact h rfl

theorem mem_name_iff : a ∈ name.language ↔ ∃ c d u, a = c :: d :: u ∧ isUpper c = true ∧ isLower d = true ∧ ∀ e ∈ u, isLower e = true := by
  have hname : name.language = (one isUpper).language * ((one isLower).language * (many isLower).language) := rfl
  rw [hname, Language.mem_mul]
  constructor
  · rintro ⟨_, ⟨c, hc, rfl⟩, _, hrest, rfl⟩
    obtain ⟨_, ⟨d, hd, rfl⟩, u, hu, rfl⟩ := Language.mem_mul.mp hrest
    exact ⟨c, d, u, rfl, hc, hd, hu⟩
  · rintro ⟨c, d, u, rfl, hc, hd, hu⟩
    exact ⟨[c], ⟨c, hc, rfl⟩, d :: u, Language.mem_mul.mpr ⟨[d], ⟨d, hd, rfl⟩, u, hu, rfl⟩, rfl⟩

theorem not_blank_of_name (ha : a ∈ name.language) : ∀ c ∈ a, c ≠ ' ' := by
  obtain ⟨c, d, u, rfl, hc, hd, hu⟩ := mem_name_iff.mp ha
  rintro e he rfl
  simp only [List.mem_cons] at he
  rcases he with rfl | rfl | he
  · exact absurd hc (by decide)
  · exact absurd hd (by decide)
  · exact absurd (hu _ he) (by decide)

theorem not_lower_space : isLower ' ' = false := by decide

/-- A name is taken as a whole first, and less of it only where a small letter follows. -/
theorem leads_name (ha : a ∈ name.language) (hs : s.head? = some ' ') :
    Leads name (a ++ s) ⟨a, s, []⟩ (fun t => ∃ c, isLower c = true ∧ t.head? = some c) := by
  obtain ⟨c, d, u, rfl, hc, hd, hu⟩ := mem_name_iff.mp ha
  have hmany : Leads (many isLower) (u ++ s) ⟨u, s, []⟩ (fun t => ∃ c, isLower c = true ∧ t.head? = some c) := by
    refine (leads_many hu (fun e he => ?_)).mono (fun t ht => ?_)
    · obtain rfl : ' ' = e := Option.some.inj (hs.symm.trans he)
      exact not_lower_space
    · obtain ⟨e, he, hhead⟩ := ht
      exact ⟨e, hu e he, hhead⟩
  exact (leads_one hc).seq (fun _ h => h.elim) ((leads_one hd).seq (fun _ h => h.elim) hmany)

/-- What begins with a blank does not go on from within a name. -/
theorem outcomes_within_name {text : List Char} (htext : text.head? = some ' ') (h : ∃ c, isLower c = true ∧ t.head? = some c) :
    outcomes (seq (word text) r') t = [] := by
  obtain ⟨c, hc, hhead⟩ := h
  obtain ⟨more, rfl⟩ := List.head?_eq_some_iff.mp htext
  refine outcomes_seq_eq_nil (outcomes_word_eq_nil_of_head ?_)
  rw [hhead]
  intro heq
  rw [Option.some.inj heq, not_lower_space] at hc
  exact absurd hc (by simp)

theorem leads_verb {v : String} (hv : v ∈ verbs) (s : List Char) : Leads verb (v.toList ++ s) ⟨v.toList, s, []⟩ (fun _ => False) := by
  simp only [verbs, List.mem_cons, List.not_mem_nil, or_false] at hv
  obtain rfl | rfl | rfl | rfl := hv
  · exact (leads_word _ s).either rfl
  · exact ((leads_word _ s).either rfl).either_right rfl
  · exact (((leads_word _ s).either rfl).either_right rfl).either_right rfl
  · exact (((leads_word _ s).either_right rfl).either_right rfl).either_right rfl

theorem outcomes_id {p : List Char} (hp : p ≠ []) (hall : ∀ c ∈ p, isIdChar c = true)
    (hr : ∀ t, t.head? ≠ some ' ' → outcomes r t = []) (s : List Char) :
    outcomes (seq (one isIdChar) (seq (many isIdChar) r)) (p ++ ' ' :: s) =
      (outcomes r (' ' :: s)).map (Outcome.after ⟨p, ' ' :: s, []⟩) := by
  obtain ⟨c, p, rfl⟩ := List.exists_cons_of_ne_nil hp
  have hmany : Leads (many isIdChar) (p ++ ' ' :: s) ⟨p, ' ' :: s, []⟩ (fun t => ∃ c ∈ p, t.head? = some c) := by
    refine leads_many (fun e he => hall e (List.mem_cons_of_mem _ he)) (fun e he => ?_)
    obtain rfl : ' ' = e := Option.some.inj he
    decide
  have hstop : ∀ t, (∃ c ∈ p, t.head? = some c) → outcomes r t = [] := by
    rintro t ⟨e, he, hhead⟩
    refine hr t (fun heq => ?_)
    have hid := hall e (List.mem_cons_of_mem _ he)
    rw [Option.some.inj (hhead.symm.trans heq)] at hid
    exact absurd hid (by decide)
  rw [List.cons_append, (leads_one (hall c List.mem_cons_self)).outcomes_seq (fun _ h => h.elim), hmany.outcomes_seq hstop, List.map_map]
  rfl

/-- Up to the first character of what is intended, there is one way to match. -/
theorem outcomes_intent {p : List Char} (hp : p ≠ []) (hall : ∀ c ∈ p, isIdChar c = true) {c : Char} (hc : notDot c = true)
    (said : Regex) (s : List Char) :
    outcomes (intent said) ("project ".toList ++ (p ++ (" will ".toList ++ c :: s))) =
      (outcomes said s).map (Outcome.after ⟨"project ".toList ++ (p ++ (" will ".toList ++ [c])), s, []⟩) := by
  have htail : outcomes (seq (word " will ".toList) (seq (one notDot) said)) (" will ".toList ++ c :: s) =
      (outcomes said s).map (Outcome.after ⟨" will ".toList ++ [c], s, []⟩) := by
    rw [(leads_word _ _).outcomes_seq (fun _ h => h.elim), (leads_one hc).outcomes_seq (fun _ h => h.elim), List.map_map]
    rfl
  have hstop : ∀ t : List Char, t.head? ≠ some ' ' → outcomes (seq (word " will ".toList) (seq (one notDot) said)) t = [] :=
    fun t ht => outcomes_seq_eq_nil (outcomes_word_eq_nil_of_head ht)
  have hid := outcomes_id hp hall hstop ("will ".toList ++ c :: s)
  have hintent : intent said = seq (word "project ".toList) (seq (one isIdChar) (seq (many isIdChar)
      (seq (word " will ".toList) (seq (one notDot) said)))) := rfl
  rw [hintent, (leads_word _ _).outcomes_seq (fun _ h => h.elim)]
  refine (congrArg (List.map _) (hid.trans (congrArg (List.map _) htail))).trans ?_
  rw [List.map_map, List.map_map]
  refine List.map_congr_left (fun o _ => ?_)
  simp [Outcome.after]

end Parts

/-- One sentence of a note. -/
inductive Note where
  | stated (person verb project what : String)
  | promised (owedBy : String) (owedTo : Option String) (project what : String) (due : Option String)
  deriving DecidableEq, Repr

namespace Note

def intention (project what : String) : String := "project " ++ project ++ " will " ++ what

/-- The sentence up to its dot. -/
def clause : Note → String
  | stated person verb project what => person ++ " " ++ verb ++ " that " ++ intention project what
  | promised owedBy owedTo project what due =>
    owedBy ++ " committed" ++ owedTo.elim "" (" to " ++ ·) ++ " that " ++ intention project what ++ due.elim "" (" by " ++ ·)

def text (note : Note) : String := note.clause ++ "."

end Note

/-- No match begins in these words, with a dot behind them. -/
def Quiet (r : Regex) (w : List Char) : Prop := ∀ t, t <:+ w → ∀ rest, outcomes r (t ++ '.' :: rest) = []

def IsName (a : String) : Prop := a.toList ∈ name.language

instance (a : String) : Decidable (IsName a) := inferInstanceAs (Decidable (a.toList ∈ name.language))

/-- A project and what it will do, in one clause. -/
structure Intends (project what : String) : Prop where
  named : project ≠ ""
  id : ∀ c ∈ project.toList, isIdChar c = true
  something : what ≠ ""
  clause : ∀ c ∈ what.toList, notDot c = true

/-- A sentence that says one thing: what it is about is not itself a sentence of the other kind, and no day is taken
for the deadline but the deadline. -/
def Note.Clear : Note → Prop
  | .stated person verb project what => IsName person ∧ verb ∈ verbs ∧ Intends project what ∧ Quiet commitmentRe what.toList
  | .promised owedBy owedTo project what due => IsName owedBy ∧ (∀ person ∈ owedTo, IsName person) ∧ Intends project what ∧
      Quiet claimRe (what ++ due.elim "" (" by " ++ ·)).toList ∧ (∀ day ∈ due, day.toList ∈ date.language) ∧
      (due = none → ∀ more day, what.toList = more ++ " by ".toList ++ day → more ≠ [] → day ∉ date.language)

section Stated
variable {person verb project what : String} {rest : List Char}

theorem first_stated (hperson : IsName person) (hverb : verb ∈ verbs) (h : Intends project what) :
    claimRe.first ((Note.stated person verb project what).clause.toList ++ '.' :: rest) =
      some ⟨(Note.stated person verb project what).clause.toList, '.' :: rest,
        [(1, person.toList), (2, (Note.intention project what).toList)]⟩ := by
  obtain ⟨c, w, hwhat⟩ := List.exists_cons_of_ne_nil (fun hnil => h.something (String.toList_eq_nil_iff.mp hnil))
  have hproject : project.toList ≠ [] := fun hnil => h.named (String.toList_eq_nil_iff.mp hnil)
  have hdots : ∀ d ∈ c :: w, notDot d = true := hwhat ▸ h.clause
  have hsaid : Leads (many notDot) (w ++ '.' :: rest) ⟨w, '.' :: rest, []⟩ (fun t => ∃ c ∈ w, t.head? = some c) := by
    refine leads_many (fun d hd => hdots d (List.mem_cons_of_mem _ hd)) (fun d hd => ?_)
    obtain rfl : '.' = d := Option.some.inj hd
    decide
  have hintent := (hsaid.of_map (outcomes_intent hproject h.id (hdots c List.mem_cons_self) (many notDot) _)).group (n := 2)
  have hthat := (leads_word " that ".toList _).first_seq (fun _ h => h.elim) hintent.first
  have hverb := (leads_verb hverb _).first_seq (fun _ h => h.elim) hthat
  have hblank := (leads_word [' '] _).first_seq (fun _ h => h.elim) hverb
  have hfirst := ((leads_name hperson rfl).group (n := 1)).first_seq (fun _ ht => outcomes_within_name rfl ht) hblank
  refine Eq.trans (congrArg (Regex.first claimRe) ?_) (hfirst.trans (congrArg some ?_))
  · simp [Note.clause, Note.intention, hwhat]
  · simp [Note.clause, Note.intention, hwhat, Outcome.after, Outcome.grouped]

end Stated

section Deadline
variable {d u v rest : List Char}

theorem length_of_date (h : d ∈ date.language) : d.length = 10 ∧ ∀ c ∈ d, notDot c = true := by
  have hdigit : ∀ c, isDigit c = true → notDot c = true := by
    intro c hc
    refine decide_eq_true (fun hdot => ?_)
    rw [hdot] at hc
    exact absurd hc (by decide)
  obtain ⟨_, ⟨c₁, h₁, rfl⟩, _, ⟨_, ⟨c₂, h₂, rfl⟩, _, ⟨_, ⟨c₃, h₃, rfl⟩, _, ⟨_, ⟨c₄, h₄, rfl⟩, _, ⟨_, rfl, _, ⟨_, ⟨c₅, h₅, rfl⟩, _,
    ⟨_, ⟨c₆, h₆, rfl⟩, _, ⟨_, rfl, _, ⟨_, ⟨c₇, h₇, rfl⟩, _, ⟨c₈, h₈, rfl⟩, rfl⟩, rfl⟩, rfl⟩, rfl⟩, rfl⟩, rfl⟩, rfl⟩, rfl⟩, rfl⟩ := h
  refine ⟨rfl, fun c hc => ?_⟩
  simp only [List.singleton_append, List.mem_cons, List.not_mem_nil, or_false] at hc
  rcases hc with rfl | rfl | rfl | rfl | rfl | rfl | rfl | rfl | rfl | rfl
  all_goals first | exact hdigit _ ‹_› | decide

/-- The parts up to the first dot are the same. -/
theorem eq_of_dots (hu : ∀ c ∈ u, notDot c = true) (hv : ∀ c ∈ v, notDot c = true) (h : u ++ ['.'] <+: v ++ '.' :: rest) : u = v := by
  obtain ⟨more, h⟩ := h
  have hfront : ∀ w : List Char, (∀ c ∈ w, notDot c = true) → ∀ x, (w ++ '.' :: x).takeWhile notDot = w := by
    intro w hw x
    rw [List.takeWhile_append_of_pos hw, List.takeWhile_cons_of_neg (by decide), List.append_nil]
  have htake := congrArg (List.takeWhile notDot) h
  rwa [List.append_assoc, List.singleton_append, hfront u hu, hfront v hv] at htake

/-- The deadline, if there is one, and the dot. -/
def ending : Regex := seq (optional (concat [word " by ".toList, group 4 date])) (word ['.'])

def dueText (due : Option String) : List Char := (due.elim "" (" by " ++ ·)).toList

theorem first_ending {due : Option String} (hdue : ∀ day ∈ due, day.toList ∈ date.language) :
    ending.first (dueText due ++ '.' :: rest) = some ⟨dueText due ++ ['.'], rest, due.elim [] (fun day => [(4, day.toList)])⟩ := by
  cases due with
  | none => exact (leads_optional_none rfl).first_seq (fun _ h => h.elim) (leads_word ['.'] rest).first
  | some day =>
    have hday := (leads_of_rigid (by simp [date, concat, Rigid]) (hdue day rfl) ('.' :: rest)).group (n := 4)
    have hby := ((leads_word " by ".toList _).seq (fun _ h => h.elim) hday).optional
    have hdot : ∀ t, False ∨ t = " by ".toList ++ (day.toList ++ '.' :: rest) → outcomes (word ['.']) t = [] := by
      rintro t (h | rfl)
      · exact h.elim
      · rfl
    have hfirst := hby.first_seq hdot (leads_word ['.'] rest).first
    refine Eq.trans (congrArg (Regex.first ending) ?_) (hfirst.trans (congrArg some ?_))
    · simp [dueText]
    · simp [dueText, Outcome.after, Outcome.grouped]

theorem mem_ending {t : List Char} (h : t ∈ ending.language) :
    ∃ u, t = u ++ ['.'] ∧ (u = [] ∨ ∃ day ∈ date.language, u = " by ".toList ++ day) := by
  obtain ⟨u, hu, _, rfl, rfl⟩ := Language.mem_mul.mp h
  refine ⟨u, rfl, ?_⟩
  rcases hu with hu | hu
  · obtain ⟨_, rfl, day, hday, rfl⟩ := Language.mem_mul.mp hu
    exact Or.inr ⟨day, hday, rfl⟩
  · exact Or.inl hu

/-- Before the end of what was promised, neither the deadline nor the dot begins. -/
theorem outcomes_ending {due : Option String} (hdue : ∀ day ∈ due, day.toList ∈ date.language) {y : List Char} (hy : y ≠ [])
    (hdots : ∀ c ∈ y, notDot c = true) (hnone : due = none → ∀ day, y = " by ".toList ++ day → day ∉ date.language) :
    outcomes ending (y ++ (dueText due ++ '.' :: rest)) = [] := by
  have hby : ∀ day ∈ date.language, ∀ c ∈ " by ".toList ++ day, notDot c = true := by
    intro day hday c hc
    rcases List.mem_append.mp hc with hc | hc
    · simp only [String.reduceToList, List.mem_cons, List.not_mem_nil, or_false] at hc
      rcases hc with rfl | rfl | rfl | rfl <;> decide
    · exact (length_of_date hday).2 c hc
  have hduedots : ∀ c ∈ dueText due, notDot c = true := by
    cases due with
    | none => simp [dueText]
    | some day =>
      intro c hc
      rw [dueText, Option.elim_some, String.toList_append] at hc
      exact hby _ (hdue day rfl) c hc
  have hall : ∀ c ∈ y ++ dueText due, notDot c = true := fun c hc => (List.mem_append.mp hc).elim (hdots c) (hduedots c)
  refine outcomes_eq_nil_iff.mpr (fun t ht hprefix => ?_)
  obtain ⟨u, rfl, hu⟩ := mem_ending ht
  rw [← List.append_assoc] at hprefix
  rcases hu with rfl | ⟨day, hday, rfl⟩
  · exact hy (List.append_eq_nil_iff.mp (eq_of_dots (by simp) hall hprefix).symm).1
  · have hsame := eq_of_dots (hby day hday) hall hprefix
    cases due with
    | none => exact hnone rfl day (by simpa [dueText] using hsame.symm) hday
    | some own =>
      have hlength := congrArg List.length hsame
      have hown := (length_of_date (hdue own rfl)).1
      simp only [dueText, Option.elim_some, List.length_append, String.toList_append, (length_of_date hday).1, hown] at hlength
      exact hy (List.length_eq_zero_iff.mp (by omega))

end Deadline

section Promised
variable {owedBy project what : String} {owedTo due : Option String} {rest : List Char}

/-- The party it is owed to, if there is one. -/
def toText (owedTo : Option String) : List Char := (owedTo.elim "" (" to " ++ ·)).toList

theorem leads_owedTo (h : ∀ person ∈ owedTo, IsName person) {r : Regex} (s : List Char) {o : Outcome}
    (hfirst : (seq (word " that ".toList) r).first (" that ".toList ++ s) = some o) :
    (seq (optional (concat [word " to ".toList, group 2 name])) (seq (word " that ".toList) r)).first
        (toText owedTo ++ (" that ".toList ++ s)) =
      some (Outcome.after ⟨toText owedTo, " that ".toList ++ s, owedTo.elim [] (fun person => [(2, person.toList)])⟩ o) := by
  cases owedTo with
  | none => exact (leads_optional_none rfl).first_seq (fun _ h => h.elim) hfirst
  | some person =>
    have hname := (leads_name (h person rfl) (rfl : (" that ".toList ++ s).head? = _)).group (n := 2)
    have hto := ((leads_word " to ".toList _).seq (fun _ h => h.elim) hname).optional
    have hstop : ∀ t, (∃ c, isLower c = true ∧ t.head? = some c) ∨ t = " to ".toList ++ (person.toList ++ (" that ".toList ++ s)) →
        outcomes (seq (word " that ".toList) r) t = [] := by
      rintro t (ht | rfl)
      · exact outcomes_within_name rfl ht
      · exact outcomes_seq_eq_nil rfl
    have hfirst' := hto.first_seq hstop hfirst
    refine Eq.trans (congrArg (Regex.first _) ?_) (hfirst'.trans (congrArg some ?_))
    · simp [toText]
    · simp [toText, Outcome.after, Outcome.grouped]

theorem first_promise (h : Intends project what) (hdue : ∀ day ∈ due, day.toList ∈ date.language)
    (hnone : due = none → ∀ more day, what.toList = more ++ " by ".toList ++ day → more ≠ [] → day ∉ date.language) :
    (seq (group 3 (intent (few notDot))) ending).first ((Note.intention project what).toList ++ (dueText due ++ '.' :: rest)) =
      some ⟨(Note.intention project what).toList ++ (dueText due ++ ['.']), rest,
        (3, (Note.intention project what).toList) :: due.elim [] (fun day => [(4, day.toList)])⟩ := by
  obtain ⟨c, w, hwhat⟩ := List.exists_cons_of_ne_nil (fun hnil => h.something (String.toList_eq_nil_iff.mp hnil))
  have hproject : project.toList ≠ [] := fun hnil => h.named (String.toList_eq_nil_iff.mp hnil)
  have hdots : ∀ d ∈ c :: w, notDot d = true := hwhat ▸ h.clause
  have hintent := outcomes_intent hproject h.id (hdots c List.mem_cons_self) (few notDot) (w ++ (dueText due ++ '.' :: rest))
  have htext : (Note.intention project what).toList ++ (dueText due ++ '.' :: rest) =
      "project ".toList ++ (project.toList ++ (" will ".toList ++ c :: (w ++ (dueText due ++ '.' :: rest)))) := by
    simp [Note.intention, hwhat]
  -- The shortest text that is followed by the deadline and the dot is all of what is intended.
  have hwhole := @findSome?_runs notDot w (dueText due ++ '.' :: rest) Outcome
    (fun o => ((outcomes ending o.rest).map (Outcome.after (Outcome.grouped 3 (Outcome.after
      ⟨"project ".toList ++ (project.toList ++ (" will ".toList ++ [c])), w ++ (dueText due ++ '.' :: rest), []⟩ o)))).head?)
    ⟨(Note.intention project what).toList ++ (dueText due ++ ['.']), rest,
      (3, (Note.intention project what).toList) :: due.elim [] (fun day => [(4, day.toList)])⟩
    (fun d hd => hdots d (List.mem_cons_of_mem _ hd)) (fun x y hxy hy => ?_) ?_
  · rw [Regex.first, outcomes, List.head?_flatMap, outcomes, htext, hintent, List.findSome?_map, List.findSome?_map]
    exact hwhole
  · have hnone' : due = none → ∀ day, y = " by ".toList ++ day → day ∉ date.language := by
      intro hdue day hday
      refine hnone hdue (c :: x) day ?_ (List.cons_ne_nil _ _)
      simp [hwhat, hxy, hday]
    have hydots : ∀ d ∈ y, notDot d = true := fun d hd => hdots d (by simp [hxy, hd])
    dsimp only
    rw [outcomes_ending hdue hy hydots hnone', List.map_nil, List.head?_nil]
  · have hending : ending.first (dueText due ++ '.' :: rest) = _ := first_ending hdue
    rw [List.head?_map]
    refine (congrArg (Option.map _) hending).trans (congrArg some ?_)
    simp [Note.intention, hwhat, Outcome.after, Outcome.grouped]

/-- A promise is read with all its parts, up to its dot. -/
theorem first_promised (howedBy : IsName owedBy) (howedTo : ∀ person ∈ owedTo, IsName person) (h : Intends project what)
    (hdue : ∀ day ∈ due, day.toList ∈ date.language)
    (hnone : due = none → ∀ more day, what.toList = more ++ " by ".toList ++ day → more ≠ [] → day ∉ date.language) :
    commitmentRe.first ((Note.promised owedBy owedTo project what due).clause.toList ++ '.' :: rest) =
      some ⟨(Note.promised owedBy owedTo project what due).clause.toList ++ ['.'], rest,
        (1, owedBy.toList) :: (owedTo.elim [] (fun person => [(2, person.toList)]) ++
          (3, (Note.intention project what).toList) :: due.elim [] (fun day => [(4, day.toList)]))⟩ := by
  have hthat := (leads_word " that ".toList _).first_seq (fun _ h => h.elim) (@first_promise _ _ _ rest h hdue hnone)
  have hcommitted := (leads_word " committed".toList _).first_seq (fun _ h => h.elim) (leads_owedTo howedTo _ hthat)
  have hfirst := ((leads_name howedBy rfl).group (n := 1)).first_seq (fun _ ht => outcomes_within_name rfl ht) hcommitted
  refine Eq.trans (congrArg (Regex.first commitmentRe) ?_) (hfirst.trans (congrArg some ?_))
  · simp [Note.clause, Note.intention, toText, dueText]
  · simp [Note.clause, Note.intention, toText, dueText, Outcome.after, Outcome.grouped]

end Promised

section Openings
variable {r : Regex} {openings : List (List Char)} {x w rest : List Char}

/-- Every match begins with a name and one of these openings. -/
structure OpensWith (r : Regex) (openings : List (List Char)) : Prop where
  opens : ∀ s, outcomes r s ≠ [] → ∃ a ∈ name.language, ∃ p ∈ openings, a ++ p <+: s
  blank : ∀ p ∈ openings, p.head? = some ' ' ∧ 2 ≤ p.length

def claimOpenings : List (List Char) := verbs.map (fun v => ' ' :: v.toList)

def commitmentOpenings : List (List Char) := [" committed".toList]

theorem opensWith_claimRe : OpensWith claimRe claimOpenings where
  opens s hs := by
    obtain ⟨o, ho⟩ := List.exists_mem_of_ne_nil _ hs
    obtain ⟨hmem, htext⟩ := mem_language_of_outcome ho
    obtain ⟨a, ha, _, hmore, hsplit⟩ := Language.mem_mul.mp hmem
    obtain ⟨_, rfl, _, hverb, rfl⟩ := Language.mem_mul.mp hmore
    obtain ⟨v, hv, more, _, rfl⟩ := Language.mem_mul.mp hverb
    have hverbs : ∃ u ∈ verbs, v = u.toList := by
      rcases hv with rfl | rfl | rfl | rfl
      · exact ⟨_, by simp [verbs], rfl⟩
      · exact ⟨_, by simp [verbs], rfl⟩
      · exact ⟨_, by simp [verbs], rfl⟩
      · exact ⟨_, by simp [verbs], rfl⟩
    obtain ⟨u, hu, rfl⟩ := hverbs
    refine ⟨a, ha, ' ' :: u.toList, List.mem_map.mpr ⟨u, hu, rfl⟩, more ++ o.rest, ?_⟩
    rw [← htext, ← hsplit]
    simp
  blank p hp := by
    obtain ⟨v, hv, rfl⟩ := List.mem_map.mp hp
    refine ⟨rfl, ?_⟩
    simp only [verbs, List.mem_cons, List.not_mem_nil, or_false] at hv
    obtain rfl | rfl | rfl | rfl := hv <;> decide

theorem opensWith_commitmentRe : OpensWith commitmentRe commitmentOpenings where
  opens s hs := by
    obtain ⟨o, ho⟩ := List.exists_mem_of_ne_nil _ hs
    obtain ⟨hmem, htext⟩ := mem_language_of_outcome ho
    obtain ⟨a, ha, _, hmore, hsplit⟩ := Language.mem_mul.mp hmem
    obtain ⟨_, rfl, more, _, rfl⟩ := Language.mem_mul.mp hmore
    refine ⟨a, ha, _, List.mem_singleton_self _, more ++ o.rest, ?_⟩
    rw [← htext, ← hsplit]
    simp
  blank p hp := by
    obtain rfl := List.mem_singleton.mp hp
    exact ⟨rfl, by decide⟩

theorem OpensWith.outcomes_of_head (h : OpensWith r openings) {s : List Char} (hs : ∀ c ∈ s.head?, isUpper c = false) :
    outcomes r s = [] := by
  by_contra hne
  obtain ⟨a, ha, p, _, more, rfl⟩ := h.opens s hne
  obtain ⟨c, d, u, rfl, hc, _⟩ := mem_name_iff.mp ha
  rw [hs c rfl] at hc
  exact absurd hc (by simp)

/-- Without capitals. -/
def small (w : List Char) : Bool := w.all (fun c => !isUpper c)

theorem OpensWith.quiet_nil (h : OpensWith r openings) : Quiet r [] := by
  intro t ht rest
  rw [List.suffix_nil.mp ht]
  exact h.outcomes_of_head (fun c hc => Option.some.inj hc ▸ by decide)

theorem quiet_cons {c : Char} (h : ∀ rest, outcomes r (c :: (w ++ '.' :: rest)) = []) (hq : Quiet r w) : Quiet r (c :: w) := by
  intro t ht rest
  rcases List.suffix_cons_iff.mp ht with rfl | ht
  · exact h rest
  · exact hq t ht rest

/-- No match begins with a character that is no capital. -/
theorem OpensWith.quiet_small (h : OpensWith r openings) (hx : small x = true) (hq : Quiet r w) : Quiet r (x ++ w) := by
  induction x with
  | nil => exact hq
  | cons c x ih =>
    obtain ⟨hc, hx⟩ : isUpper c = false ∧ small x = true := by simpa [small] using hx
    refine quiet_cons (fun rest => h.outcomes_of_head (fun d hd => ?_)) (ih hx)
    exact Option.some.inj hd ▸ hc

theorem OpensWith.quiet_of_small (h : OpensWith r openings) (hw : small w = true) : Quiet r w := by
  simpa using h.quiet_small hw h.quiet_nil

/-- No match begins within a word that is not followed by an opening. -/
theorem OpensWith.quiet_word (h : OpensWith r openings) (hx : ∀ c ∈ x, c ≠ ' ') (hq : Quiet r w) (hw : w.head? = some ' ')
    (hlength : 2 ≤ w.length) (hno : ∀ p ∈ openings, p.take 2 ≠ w.take 2) : Quiet r (x ++ w) := by
  induction x with
  | nil => exact hq
  | cons c x ih =>
    have hsmaller : ∀ d ∈ x, d ≠ ' ' := fun d hd => hx d (List.mem_cons_of_mem _ hd)
    refine quiet_cons (fun rest => ?_) (ih hsmaller)
    by_contra hne
    obtain ⟨a, ha, p, hp, more, hsplit⟩ := h.opens _ hne
    obtain ⟨hblank, hlong⟩ := h.blank p hp
    have hfront : ∀ u v : List Char, (∀ d ∈ u, d ≠ ' ') → v.head? = some ' ' → (u ++ v).dropWhile (· ≠ ' ') = v := by
      intro u v hu hv
      obtain ⟨v, rfl⟩ := List.head?_eq_some_iff.mp hv
      rw [List.dropWhile_append_of_pos (fun d hd => decide_eq_true (hu d hd)), List.dropWhile_cons_of_neg (by simp)]
    have hhead : ∀ u v : List Char, u.head? = some ' ' → (u ++ v).head? = some ' ' := by
      intro u v hu
      rw [List.head?_append, hu, Option.some_or]
    have hrest : p ++ more = w ++ '.' :: rest := calc
      p ++ more = (a ++ (p ++ more)).dropWhile (· ≠ ' ') := (hfront a _ (not_blank_of_name ha) (hhead p more hblank)).symm
      _ = (c :: x ++ (w ++ '.' :: rest)).dropWhile (· ≠ ' ') := by
        rw [← List.append_assoc, hsplit]
        simp
      _ = w ++ '.' :: rest := hfront _ _ hx (hhead w _ hw)
    have htake := congrArg (List.take 2) hrest
    rw [List.take_append_of_le_length hlong, List.take_append_of_le_length hlength] at htake
    exact hno p hp htake

end Openings

end Memorai.Extraction.Mock
