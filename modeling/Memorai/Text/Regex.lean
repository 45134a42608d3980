import Mathlib.Computability.Language
import Mathlib.Data.List.Infix

/-! Regular expressions that match as a backtracking matcher does: there are many ways to match, and the first one counts.
Repetitions are of single characters. -/
namespace Memorai.Text

inductive Regex where
  | word (text : List Char)
  | one (allowed : Char → Bool)
  /-- `*` -/
  | many (allowed : Char → Bool)
  /-- `*?` -/
  | few (allowed : Char → Bool)
  | seq (r r' : Regex)
  | either (r r' : Regex)
  /-- `?` -/
  | optional (r : Regex)
  | group (n : Nat) (r : Regex)

/-- What was matched at the front of a text, what is left of it, and what the groups hold. -/
structure Outcome where
  taken : List Char
  rest : List Char
  groups : List (Nat × List Char) := []
  deriving DecidableEq, Repr

namespace Outcome

def push (c : Char) (o : Outcome) : Outcome := { o with taken := c :: o.taken }

/-- One match and another one after it. -/
def after (o o' : Outcome) : Outcome := ⟨o.taken ++ o'.taken, o'.rest, o.groups ++ o'.groups⟩

def grouped (n : Nat) (o : Outcome) : Outcome := { o with groups := o.groups ++ [(n, o.taken)] }

/-- `match.group(n)` -/
def group? (o : Outcome) (n : Nat) : Option (List Char) := o.groups.lookup n

end Outcome

namespace Regex

/-- The runs of allowed characters at the front, from the empty one on. -/
def runs (allowed : Char → Bool) : List Char → List Outcome
  | [] => [⟨[], [], []⟩]
  | c :: s => ⟨[], c :: s, []⟩ :: if allowed c then (runs allowed s).map (Outcome.push c) else []

/-- All ways to match at the front of a text, in the order they are tried. -/
def outcomes : Regex → List Char → List Outcome
  | word text, s => if text.isPrefixOf s then [⟨text, s.drop text.length, []⟩] else []
  | one _, [] => []
  | one allowed, c :: s => if allowed c then [⟨[c], s, []⟩] else []
  | many allowed, s => (runs allowed s).reverse
  | few allowed, s => runs allowed s
  | seq r r', s => (outcomes r s).flatMap (fun o => (outcomes r' o.rest).map o.after)
  | either r r', s => outcomes r s ++ outcomes r' s
  | optional r, s => outcomes r s ++ [⟨[], s, []⟩]
  | group n r, s => (outcomes r s).map (Outcome.grouped n)

/-- One after the other. -/
def concat : List Regex → Regex
  | [] => word []
  | [r] => r
  | r :: rs => seq r (concat rs)

def first (r : Regex) (s : List Char) : Option Outcome := (outcomes r s).head?

/-- The texts that are matched, however. -/
def language : Regex → Language Char
  | word text => {text}
  | one allowed => {t | ∃ c, allowed c = true ∧ t = [c]}
  | many allowed => {t | ∀ c ∈ t, allowed c = true}
  | few allowed => {t | ∀ c ∈ t, allowed c = true}
  | seq r r' => language r * language r'
  | either r r' => language r + language r'
  | optional r => language r + 1
  | group _ r => language r

section Search
variable (here : Option Char → List Char → Bool) (r : Regex)

/-- `finditer` of an expression that matches no empty text, in the places where `here` holds of the character before and
the text after. The first characters may still belong to a match. -/
def findAfter : Nat → Option Char → List Char → List Outcome
  | _, _, [] => []
  | skip + 1, _, c :: s => findAfter skip (some c) s
  | 0, before, c :: s =>
    match if here before (c :: s) then r.first (c :: s) else none with
    | some o => o :: findAfter (o.taken.length - 1) (some c) s
    | none => findAfter 0 (some c) s

def findAll (s : List Char) : List Outcome := findAfter here r 0 none s

end Search

/-- Any place. -/
def anywhere : Option Char → List Char → Bool := fun _ _ => true

/-- `\b` -/
def boundary (wordChar : Char → Bool) (before : Option Char) (s : List Char) : Bool := before.any wordChar != s.head?.any wordChar

section Runs
variable {allowed : Char → Bool} {w s : List Char} {c : Char} {o : Outcome}

theorem mem_runs : o ∈ runs allowed s ↔ o.taken ++ o.rest = s ∧ (∀ c ∈ o.taken, allowed c = true) ∧ o.groups = [] := by
  induction s generalizing o with
  | nil =>
    rw [runs, List.mem_singleton]
    constructor
    · rintro rfl
      exact ⟨rfl, by simp, rfl⟩
    · rintro ⟨h, _, hgroups⟩
      obtain ⟨htaken, hrest⟩ := List.append_eq_nil_iff.mp h
      cases o
      simp_all
  | cons c s ih =>
    rw [runs, List.mem_cons]
    constructor
    · rintro (rfl | h)
      · exact ⟨rfl, by simp, rfl⟩
      · split at h
        · rename_i hc
          obtain ⟨o', ho', rfl⟩ := List.mem_map.mp h
          obtain ⟨htext, hall, hgroups⟩ := ih.mp ho'
          refine ⟨congrArg (c :: ·) htext, fun d hd => ?_, hgroups⟩
          rcases List.mem_cons.mp hd with rfl | hd
          · exact hc
          · exact hall d hd
        · exact absurd h List.not_mem_nil
    · rintro ⟨htext, hall, hgroups⟩
      obtain ⟨taken, rest, groups⟩ := o
      cases taken with
      | nil => exact Or.inl (by simp_all)
      | cons d taken =>
        have hsplit : d :: (taken ++ rest) = c :: s := htext
        obtain ⟨rfl, hrest⟩ := List.cons.inj hsplit
        right
        rw [if_pos (hall d List.mem_cons_self)]
        refine List.mem_map.mpr ⟨⟨taken, rest, groups⟩, ih.mpr ⟨hrest, fun e he => hall e (List.mem_cons_of_mem _ he), hgroups⟩, rfl⟩

/-- Up to a character that is not allowed, and everything before. -/
theorem runs_append (hw : ∀ c ∈ w, allowed c = true) (hs : ∀ c ∈ s.head?, allowed c = false) :
    ∃ shorter, runs allowed (w ++ s) = shorter ++ [⟨w, s, []⟩] ∧ ∀ o ∈ shorter, ∃ c t, c ∈ w ∧ o.rest = c :: t := by
  induction w with
  | nil =>
    refine ⟨[], ?_, by simp⟩
    cases s with
    | nil => rfl
    | cons c s => rw [List.nil_append, runs, if_neg (by simpa using hs c rfl), List.nil_append]
  | cons c w ih =>
    obtain ⟨shorter, hruns, hshorter⟩ := ih (fun d hd => hw d (List.mem_cons_of_mem _ hd))
    refine ⟨⟨[], c :: (w ++ s), []⟩ :: shorter.map (Outcome.push c), ?_, fun o ho => ?_⟩
    · rw [List.cons_append, runs, if_pos (hw c List.mem_cons_self), hruns, List.map_append]
      rfl
    · rcases List.mem_cons.mp ho with rfl | ho
      · exact ⟨c, w ++ s, List.mem_cons_self, rfl⟩
      · obtain ⟨o', ho', rfl⟩ := List.mem_map.mp ho
        obtain ⟨d, t, hd, hrest⟩ := hshorter o' ho'
        exact ⟨d, t, List.mem_cons_of_mem _ hd, hrest⟩

/-- The first run that goes on as it should. -/
theorem findSome?_runs {β : Type} {g : Outcome → Option β} {v : β} (hw : ∀ c ∈ w, allowed c = true)
    (hshorter : ∀ x y, w = x ++ y → y ≠ [] → g ⟨x, y ++ s, []⟩ = none) (hfound : g ⟨w, s, []⟩ = some v) :
    (runs allowed (w ++ s)).findSome? g = some v := by
  induction w generalizing g with
  | nil => cases s <;> simp [runs, hfound]
  | cons c w ih =>
    have hnone : g ⟨[], c :: (w ++ s), []⟩ = none := hshorter [] (c :: w) rfl (List.cons_ne_nil _ _)
    rw [List.cons_append, runs, if_pos (hw c List.mem_cons_self), List.findSome?_cons, hnone, List.findSome?_map]
    refine ih (fun d hd => hw d (List.mem_cons_of_mem _ hd)) (fun x y hxy hy => ?_) hfound
    exact hshorter (c :: x) y (congrArg (c :: ·) hxy) hy

end Runs

section Meaning
variable {r r' : Regex} {s t : List Char} {o : Outcome}

/-- What is matched is a word of the language, at the front of the text. -/
theorem mem_language_of_outcome (h : o ∈ outcomes r s) : o.taken ∈ r.language ∧ o.taken ++ o.rest = s := by
  induction r generalizing s o with
  | word text =>
    rw [outcomes] at h
    split at h
    · rename_i hprefix
      obtain ⟨rest, rfl⟩ := List.isPrefixOf_iff_prefix.mp hprefix
      obtain rfl := List.mem_singleton.mp h
      exact ⟨rfl, by rw [List.drop_left]⟩
    · exact absurd h List.not_mem_nil
  | one allowed =>
    cases s with
    | nil => exact absurd h List.not_mem_nil
    | cons c s =>
      rw [outcomes] at h
      split at h
      · obtain rfl := List.mem_singleton.mp h
        exact ⟨⟨c, ‹_›, rfl⟩, rfl⟩
      · exact absurd h List.not_mem_nil
  | many allowed =>
    obtain ⟨htext, hall, _⟩ := mem_runs.mp (List.mem_reverse.mp h)
    exact ⟨hall, htext⟩
  | few allowed =>
    obtain ⟨htext, hall, _⟩ := mem_runs.mp h
    exact ⟨hall, htext⟩
  | seq r r' ih ih' =>
    obtain ⟨o₁, h₁, h⟩ := List.mem_flatMap.mp h
    obtain ⟨o₂, h₂, rfl⟩ := List.mem_map.mp h
    obtain ⟨hmem₁, htext₁⟩ := ih h₁
    obtain ⟨hmem₂, htext₂⟩ := ih' h₂
    refine ⟨Language.mem_mul.mpr ⟨_, hmem₁, _, hmem₂, rfl⟩, ?_⟩
    rw [Outcome.after, List.append_assoc, htext₂, htext₁]
  | either r r' ih ih' =>
    rcases List.mem_append.mp h with h | h
    · exact ⟨Or.inl (ih h).1, (ih h).2⟩
    · exact ⟨Or.inr (ih' h).1, (ih' h).2⟩
  | optional r ih =>
    rcases List.mem_append.mp h with h | h
    · exact ⟨Or.inl (ih h).1, (ih h).2⟩
    · obtain rfl := List.mem_singleton.mp h
      exact ⟨Or.inr rfl, rfl⟩
  | group n r ih =>
    obtain ⟨o', h', rfl⟩ := List.mem_map.mp h
    have hown := ih h'
    exact hown

/-- Every word of the language is matched in some way, whatever follows it. -/
theorem exists_outcome (h : t ∈ r.language) (s : List Char) : ∃ o ∈ outcomes r (t ++ s), o.taken = t ∧ o.rest = s := by
  induction r generalizing t s with
  | word text =>
    obtain rfl : t = text := h
    refine ⟨⟨t, s, []⟩, ?_, rfl, rfl⟩
    rw [outcomes, if_pos (List.isPrefixOf_iff_prefix.mpr (List.prefix_append t s)), List.drop_left]
    exact List.mem_singleton_self _
  | one allowed =>
    obtain ⟨c, hc, rfl⟩ := h
    refine ⟨⟨[c], s, []⟩, ?_, rfl, rfl⟩
    rw [List.singleton_append, outcomes, if_pos hc]
    exact List.mem_singleton_self _
  | many allowed => exact ⟨⟨t, s, []⟩, List.mem_reverse.mpr (mem_runs.mpr ⟨rfl, h, rfl⟩), rfl, rfl⟩
  | few allowed => exact ⟨⟨t, s, []⟩, mem_runs.mpr ⟨rfl, h, rfl⟩, rfl, rfl⟩
  | seq r r' ih ih' =>
    obtain ⟨t₁, h₁, t₂, h₂, rfl⟩ := Language.mem_mul.mp h
    obtain ⟨o₁, ho₁, rfl, hrest₁⟩ := ih h₁ (t₂ ++ s)
    obtain ⟨o₂, ho₂, rfl, rfl⟩ := ih' h₂ s
    refine ⟨o₁.after o₂, List.mem_flatMap.mpr ⟨o₁, ?_, ?_⟩, rfl, rfl⟩
    · rwa [List.append_assoc]
    · exact List.mem_map_of_mem (hrest₁ ▸ ho₂)
  | either r r' ih ih' =>
    rcases h with h | h
    · obtain ⟨o, ho, htaken⟩ := ih h s
      exact ⟨o, List.mem_append_left _ ho, htaken⟩
    · obtain ⟨o, ho, htaken⟩ := ih' h s
      exact ⟨o, List.mem_append_right _ ho, htaken⟩
  | optional r ih =>
    rcases h with h | h
    · obtain ⟨o, ho, htaken⟩ := ih h s
      exact ⟨o, List.mem_append_left _ ho, htaken⟩
    · obtain rfl : t = [] := h
      exact ⟨⟨[], s, []⟩, List.mem_append_right _ List.mem_cons_self, rfl, rfl⟩
  | group n r ih =>
    obtain ⟨o, ho, htaken⟩ := ih h s
    exact ⟨o.grouped n, List.mem_map_of_mem ho, htaken⟩

/-- Nothing is matched where no word of the language begins. -/
theorem outcomes_eq_nil_iff : outcomes r s = [] ↔ ∀ t ∈ r.language, ¬ t <+: s := by
  rw [List.eq_nil_iff_forall_not_mem]
  constructor
  · rintro h t ht ⟨rest, rfl⟩
    obtain ⟨o, ho, _⟩ := exists_outcome ht rest
    exact h o ho
  · intro h o ho
    obtain ⟨hmem, htext⟩ := mem_language_of_outcome ho
    exact h _ hmem ⟨_, htext⟩

theorem mem_language_iff : t ∈ r.language ↔ ∃ o ∈ outcomes r t, o.rest = [] := by
  constructor
  · intro h
    obtain ⟨o, ho, _, hrest⟩ := exists_outcome h []
    rw [List.append_nil] at ho
    exact ⟨o, ho, hrest⟩
  · rintro ⟨o, ho, hrest⟩
    obtain ⟨hmem, htext⟩ := mem_language_of_outcome ho
    rw [hrest, List.append_nil] at htext
    exact htext ▸ hmem

instance : Decidable (t ∈ r.language) := decidable_of_iff _ mem_language_iff.symm

/-- Without groups of its own. -/
def Plain : Regex → Prop
  | seq r r' => r.Plain ∧ r'.Plain
  | either r r' => r.Plain ∧ r'.Plain
  | optional r => r.Plain
  | group _ _ => False
  | _ => True

theorem groups_of_plain (hplain : r.Plain) (h : o ∈ outcomes r s) : o.groups = [] := by
  induction r generalizing s o with
  | word text =>
    rw [outcomes] at h
    split at h
    · rw [List.mem_singleton.mp h]
    · exact absurd h List.not_mem_nil
  | one allowed =>
    cases s with
    | nil => exact absurd h List.not_mem_nil
    | cons c s =>
      rw [outcomes] at h
      split at h
      · rw [List.mem_singleton.mp h]
      · exact absurd h List.not_mem_nil
  | many allowed => exact (mem_runs.mp (List.mem_reverse.mp h)).2.2
  | few allowed => exact (mem_runs.mp h).2.2
  | seq r r' ih ih' =>
    obtain ⟨o₁, h₁, h⟩ := List.mem_flatMap.mp h
    obtain ⟨o₂, h₂, rfl⟩ := List.mem_map.mp h
    rw [Outcome.after, ih hplain.1 h₁, ih' hplain.2 h₂, List.append_nil]
  | either r r' ih ih' => exact (List.mem_append.mp h).elim (ih hplain.1) (ih' hplain.2)
  | optional r ih =>
    rcases List.mem_append.mp h with h | h
    · exact ih hplain h
    · rw [List.mem_singleton.mp h]
  | group n r => exact hplain.elim

end Meaning

section Leads
variable {r r' : Regex} {s : List Char} {o o' : Outcome} {P Q : List Char → Prop} {n : Nat}

/-- What is tried first, and how all that may be tried later goes on. -/
def Leads (r : Regex) (s : List Char) (o : Outcome) (P : List Char → Prop) : Prop :=
  ∃ later, outcomes r s = o :: later ∧ ∀ o' ∈ later, P o'.rest

theorem Leads.first (h : Leads r s o P) : r.first s = some o := by
  obtain ⟨later, h, _⟩ := h
  rw [Regex.first, h, List.head?_cons]

theorem Leads.mono (h : Leads r s o P) (hPQ : ∀ t, P t → Q t) : Leads r s o Q := by
  obtain ⟨later, h, hlater⟩ := h
  exact ⟨later, h, fun o' ho' => hPQ _ (hlater o' ho')⟩

theorem leads_word (text s : List Char) : Leads (word text) (text ++ s) ⟨text, s, []⟩ (fun _ => False) := by
  refine ⟨[], ?_, by simp⟩
  rw [outcomes, if_pos (List.isPrefixOf_iff_prefix.mpr (List.prefix_append text s)), List.drop_left]

theorem leads_one {allowed : Char → Bool} {c : Char} (hc : allowed c = true) :
    Leads (one allowed) (c :: s) ⟨[c], s, []⟩ (fun _ => False) :=
  ⟨[], by rw [outcomes, if_pos hc], by simp⟩

theorem leads_many {allowed : Char → Bool} {w : List Char} (hw : ∀ c ∈ w, allowed c = true) (hs : ∀ c ∈ s.head?, allowed c = false) :
    Leads (many allowed) (w ++ s) ⟨w, s, []⟩ (fun t => ∃ c ∈ w, t.head? = some c) := by
  obtain ⟨shorter, hruns, hshorter⟩ := runs_append hw hs
  refine ⟨shorter.reverse, ?_, fun o ho => ?_⟩
  · rw [outcomes, hruns, List.reverse_append]
    rfl
  · obtain ⟨c, t, hc, hrest⟩ := hshorter o (List.mem_reverse.mp ho)
    exact ⟨c, hc, by rw [hrest, List.head?_cons]⟩

/-- The second part goes on from the first one only, where nothing goes on from what is tried later. -/
theorem Leads.outcomes_seq (h : Leads r s o P) (hstop : ∀ t, P t → outcomes r' t = []) :
    outcomes (seq r r') s = (outcomes r' o.rest).map o.after := by
  obtain ⟨later, h, hlater⟩ := h
  have hnone : later.flatMap (fun o => (outcomes r' o.rest).map o.after) = [] := by
    refine List.flatMap_eq_nil_iff.mpr (fun o₁ ho₁ => ?_)
    rw [hstop _ (hlater o₁ ho₁), List.map_nil]
  rw [outcomes, h, List.flatMap_cons, hnone, List.append_nil]

theorem Leads.of_map {s' : List Char} (h : Leads r' s' o' Q) (hmap : outcomes r s = (outcomes r' s').map o.after) :
    Leads r s (o.after o') Q := by
  obtain ⟨later, h, hlater⟩ := h
  refine ⟨later.map o.after, by rw [hmap, h, List.map_cons], fun o₁ ho₁ => ?_⟩
  obtain ⟨o₂, ho₂, rfl⟩ := List.mem_map.mp ho₁
  exact hlater o₂ ho₂

theorem Leads.seq (h : Leads r s o P) (hstop : ∀ t, P t → outcomes r' t = []) (h' : Leads r' o.rest o' Q) :
    Leads (seq r r') s (o.after o') Q := h'.of_map (h.outcomes_seq hstop)

/-- The first match of both parts, where the second one is not tried on anything else. -/
theorem Leads.first_seq (h : Leads r s o P) (hstop : ∀ t, P t → outcomes r' t = []) (h' : r'.first o.rest = some o') :
    (Regex.seq r r').first s = some (o.after o') := by
  rw [Regex.first, h.outcomes_seq hstop, List.head?_map]
  exact congrArg (Option.map o.after) h'

theorem Leads.either (h : Leads r s o P) (hother : outcomes r' s = []) : Leads (either r r') s o P := by
  obtain ⟨later, h, hlater⟩ := h
  refine ⟨later, ?_, hlater⟩
  rw [outcomes, h, hother, List.append_nil]

theorem Leads.either_right (h : Leads r' s o P) (hother : outcomes r s = []) : Leads (Regex.either r r') s o P := by
  obtain ⟨later, h, hlater⟩ := h
  refine ⟨later, ?_, hlater⟩
  rw [outcomes, h, hother, List.nil_append]

theorem Leads.optional (h : Leads r s o P) : Leads (optional r) s o (fun t => P t ∨ t = s) := by
  obtain ⟨later, h, hlater⟩ := h
  refine ⟨later ++ [⟨[], s, []⟩], ?_, fun o' ho' => ?_⟩
  · rw [outcomes, h, List.cons_append]
  · rcases List.mem_append.mp ho' with ho' | ho'
    · exact Or.inl (hlater o' ho')
    · obtain rfl := List.mem_singleton.mp ho'
      exact Or.inr rfl

theorem leads_optional_none (h : outcomes r s = []) : Leads (Regex.optional r) s ⟨[], s, []⟩ (fun _ => False) :=
  ⟨[], by rw [outcomes, h, List.nil_append], by simp⟩

theorem Leads.group (h : Leads r s o P) : Leads (group n r) s (o.grouped n) P := by
  obtain ⟨later, h, hlater⟩ := h
  refine ⟨later.map (Outcome.grouped n), ?_, fun o' ho' => ?_⟩
  · rw [outcomes, h, List.map_cons]
  · obtain ⟨o₁, ho₁, rfl⟩ := List.mem_map.mp ho'
    exact hlater o₁ ho₁

/-- With nothing left to choose. -/
def Rigid : Regex → Prop
  | word _ => True
  | one _ => True
  | seq r r' => r.Rigid ∧ r'.Rigid
  | _ => False

theorem leads_of_rigid {t : List Char} (h : r.Rigid) (ht : t ∈ r.language) (s : List Char) :
    Leads r (t ++ s) ⟨t, s, []⟩ (fun _ => False) := by
  induction r generalizing t s with
  | word text =>
    obtain rfl : t = text := ht
    exact leads_word t s
  | one allowed =>
    obtain ⟨c, hc, rfl⟩ := ht
    exact leads_one hc
  | seq r r' ih ih' =>
    obtain ⟨t₁, h₁, t₂, h₂, rfl⟩ := Language.mem_mul.mp ht
    have hseq := (ih h.1 h₁ (t₂ ++ s)).seq (fun _ h => h.elim) (ih' h.2 h₂ s)
    rwa [← List.append_assoc] at hseq
  | many allowed => exact h.elim
  | few allowed => exact h.elim
  | either r r' => exact h.elim
  | optional r => exact h.elim
  | group n r => exact h.elim

end Leads

/-- These pieces stand in the text one after the other, each as a whole. -/
def InOrder : List (List Char) → List Char → Prop
  | [], _ => True
  | piece :: pieces, s => ∃ gap rest, s = gap ++ (piece ++ rest) ∧ InOrder pieces rest

theorem InOrder.gap {pieces : List (List Char)} {s : List Char} (h : InOrder pieces s) (gap : List Char) : InOrder pieces (gap ++ s) := by
  cases pieces with
  | nil => trivial
  | cons piece pieces =>
    obtain ⟨more, rest, rfl, hrest⟩ := h
    exact ⟨gap ++ more, rest, (List.append_assoc _ _ _).symm, hrest⟩

section Search
variable {here : Option Char → List Char → Bool} {r : Regex} {s x : List Char} {o : Outcome} {before : Option Char}

private theorem last_cons (c : Char) (x : List Char) (before : Option Char) :
    ((c :: x).getLast?.or before) = x.getLast?.or (some c) := by
  cases x with
  | nil => rfl
  | cons d x => simp [List.getLast?_cons]

theorem findAfter_length : findAfter here r x.length before (x ++ s) = findAfter here r 0 (x.getLast?.or before) s := by
  induction x generalizing before with
  | nil => rfl
  | cons c x ih =>
    rw [List.cons_append, List.length_cons, findAfter, ih, last_cons]

theorem findAfter_of_first (hhere : here before s = true) (h : r.first s = some o) (htaken : o.taken ≠ []) :
    findAfter here r 0 before s = o :: findAfter here r 0 (o.taken.getLast?.or before) o.rest := by
  obtain ⟨later, houtcomes⟩ : ∃ later, outcomes r s = o :: later := List.head?_eq_some_iff.mp h
  have htext := (mem_language_of_outcome (houtcomes ▸ List.mem_cons_self : o ∈ outcomes r s)).2
  obtain ⟨taken, rest, groups⟩ := o
  cases taken with
  | nil => exact absurd rfl htaken
  | cons c taken =>
    obtain rfl : c :: (taken ++ rest) = s := htext
    rw [findAfter, if_pos hhere, h, last_cons]
    exact congrArg (_ :: ·) findAfter_length

theorem findAfter_cons {c : Char} (h : here before (c :: s) = true → outcomes r (c :: s) = []) :
    findAfter here r 0 before (c :: s) = findAfter here r 0 (some c) s := by
  rw [findAfter]
  split
  · rename_i o ho
    split at ho
    · rename_i hhere
      rw [Regex.first, h hhere] at ho
      exact absurd ho (by simp)
    · exact absurd ho (by simp)
  · rfl

/-- No match begins in the first part. -/
theorem findAfter_append (h : ∀ y c z, x = y ++ c :: z → here (y.getLast?.or before) (c :: (z ++ s)) = true →
    outcomes r (c :: (z ++ s)) = []) : findAfter here r 0 before (x ++ s) = findAfter here r 0 (x.getLast?.or before) s := by
  induction x generalizing before with
  | nil => rfl
  | cons c x ih =>
    have hhere : here before (c :: (x ++ s)) = true → outcomes r (c :: (x ++ s)) = [] := h [] c x rfl
    rw [List.cons_append, findAfter_cons hhere, last_cons]
    refine ih (fun y d z hx hhere => h (c :: y) d z (congrArg (c :: ·) hx) ?_)
    rwa [last_cons]

/-- A match is found where no earlier one reaches into it. -/
theorem mem_findAfter {skip : Nat} (hhere : here (x.getLast?.or before) s = true) (h : r.first s = some o) (hs : s ≠ [])
    (hskip : skip ≤ x.length) (hbefore : ∀ y z, x = y ++ z → z ≠ [] → ∀ o', r.first (z ++ s) = some o' → o'.taken.length ≤ z.length) :
    o ∈ findAfter here r skip before (x ++ s) := by
  induction x generalizing skip before with
  | nil =>
    obtain ⟨c, s, rfl⟩ := List.exists_cons_of_ne_nil hs
    obtain rfl := Nat.le_zero.mp hskip
    have hhere' : here before (c :: s) = true := hhere
    rw [List.nil_append, findAfter, if_pos hhere', h]
    exact List.mem_cons_self
  | cons c x ih =>
    have hhere' : here (x.getLast?.or (some c)) s = true := by
      cases x with
      | nil => exact hhere
      | cons d x => simpa [List.getLast?_cons] using hhere
    have hlater : ∀ skip ≤ x.length, o ∈ findAfter here r skip (some c) (x ++ s) := by
      refine fun skip hskip => ih hhere' hskip (fun y z hx hz o' ho' => ?_)
      exact hbefore (c :: y) z (congrArg (c :: ·) hx) hz o' ho'
    rw [List.cons_append]
    cases skip with
    | succ skip => exact hlater skip (Nat.le_of_succ_le_succ hskip)
    | zero =>
      rw [findAfter]
      split
      · rename_i o' ho'
        have hfirst : r.first (c :: (x ++ s)) = some o' := (Option.ite_none_right_eq_some.mp ho').2
        have hlength := hbefore [] (c :: x) rfl (List.cons_ne_nil c x) o' hfirst
        refine List.mem_cons_of_mem _ (hlater _ ?_)
        rw [List.length_cons] at hlength
        omega
      · exact hlater 0 (Nat.zero_le _)

/-- Where any place will do, what came before does not matter. -/
theorem findAfter_anywhere (skip : Nat) : findAfter anywhere r skip before s = findAfter anywhere r skip none s := by
  cases s with
  | nil => cases skip <;> rfl
  | cons c s => cases skip <;> rfl

theorem findAll_of_first (h : r.first s = some o) (htaken : o.taken ≠ []) :
    findAll anywhere r s = o :: findAll anywhere r o.rest := by
  rw [findAll, findAfter_of_first rfl h htaken, findAfter_anywhere, findAll]

theorem findAll_cons {c : Char} (h : outcomes r (c :: s) = []) : findAll anywhere r (c :: s) = findAll anywhere r s := by
  rw [findAll, findAfter_cons (fun _ => h), findAfter_anywhere, findAll]

theorem findAll_append (h : ∀ y c z, x = y ++ c :: z → outcomes r (c :: (z ++ s)) = []) :
    findAll anywhere r (x ++ s) = findAll anywhere r s := by
  rw [findAll, findAfter_append (fun y c z hx _ => h y c z hx), findAfter_anywhere, findAll]

/-- Every match is one of the expression, somewhere. -/
theorem exists_outcomes_of_mem_findAfter {skip : Nat} (h : o ∈ findAfter here r skip before s) : ∃ t, o ∈ outcomes r t := by
  induction s generalizing skip before with
  | nil => cases skip <;> exact absurd h List.not_mem_nil
  | cons c s ih =>
    cases skip with
    | succ skip => exact ih h
    | zero =>
      rw [findAfter] at h
      split at h
      · rename_i o' ho'
        rcases List.mem_cons.mp h with rfl | h
        · exact ⟨c :: s, List.mem_of_head? (Option.ite_none_right_eq_some.mp ho').2⟩
        · exact ih h
      · exact ih h

/-- The matches stand in the text one after the other. -/
theorem inOrder_findAfter (skip : Nat) : InOrder ((findAfter here r skip before s).map Outcome.taken) (s.drop skip) := by
  induction s generalizing skip before with
  | nil => cases skip <;> trivial
  | cons c s ih =>
    cases skip with
    | succ skip => exact ih skip
    | zero =>
      rw [findAfter]
      split
      · rename_i o ho
        have hfirst : o ∈ outcomes r (c :: s) := List.mem_of_head? (Option.ite_none_right_eq_some.mp ho).2
        have htext := (mem_language_of_outcome hfirst).2
        refine ⟨[], o.rest, htext.symm, ?_⟩
        obtain ⟨taken, rest, groups⟩ := o
        cases taken with
        | nil =>
          obtain rfl : rest = c :: s := htext
          exact (ih 0).gap [c]
        | cons d taken =>
          obtain ⟨rfl, rfl⟩ : d = c ∧ taken ++ rest = s := List.cons.inj htext
          have hlater := @ih (some d) taken.length
          rwa [List.drop_left] at hlater
      · exact (ih 0).gap [c]

end Search

end Regex
end Memorai.Text
