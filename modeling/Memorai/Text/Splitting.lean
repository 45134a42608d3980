import Mathlib.Data.List.Basic
import Mathlib.Data.List.Infix

/-! A list cut at a separator, wherever it stands in front of what it has to. -/
namespace Memorai.Text

variable {α : Type} [DecidableEq α]

section Cuts
variable (sep : List α) (follows : List α → Bool)

/-- The separator begins here. -/
def cutsHere (l : List α) : Bool := sep.isPrefixOf l && follows (l.drop sep.length)

/-- The pieces of a list, the first elements of which still belong to a separator. -/
def cutAfter : Nat → List α → List (List α)
  | _, [] => [[]]
  | skip + 1, _ :: l => cutAfter skip l
  | 0, a :: l =>
    if cutsHere sep follows (a :: l) then [] :: cutAfter (sep.length - 1) l
    else (cutAfter 0 l).modifyHead (a :: ·)

/-- The pieces between the separators, from the left. -/
def cut (l : List α) : List (List α) := cutAfter sep follows 0 l

end Cuts

section Pieces
variable {sep : List α} {follows : List α → Bool} {a : α} {l rest : List α}

theorem cutsHere_iff : cutsHere sep follows l = true ↔ ∃ rest, l = sep ++ rest ∧ follows rest = true := by
  rw [cutsHere, Bool.and_eq_true, List.isPrefixOf_iff_prefix]
  constructor
  · rintro ⟨⟨rest, rfl⟩, hrest⟩
    rw [List.drop_left] at hrest
    exact ⟨rest, rfl, hrest⟩
  · rintro ⟨rest, rfl, hrest⟩
    rw [List.drop_left]
    exact ⟨List.prefix_append sep rest, hrest⟩

theorem cutAfter_eq (skip : Nat) (l : List α) : cutAfter sep follows skip l = cut sep follows (l.drop skip) := by
  induction l generalizing skip with
  | nil => cases skip <;> rfl
  | cons a l ih =>
    cases skip with
    | zero => rfl
    | succ skip => exact ih skip

theorem cut_sep (hsep : sep ≠ []) (h : follows rest = true) : cut sep follows (sep ++ rest) = [] :: cut sep follows rest := by
  have hhere : cutsHere sep follows (sep ++ rest) = true := cutsHere_iff.mpr ⟨rest, rfl, h⟩
  obtain ⟨b, sep, rfl⟩ := List.exists_cons_of_ne_nil hsep
  rw [cut, List.cons_append, cutAfter, ← List.cons_append, if_pos hhere, cutAfter_eq, List.length_cons, Nat.add_sub_cancel,
    List.drop_left]

theorem cut_cons (h : ¬ cutsHere sep follows (a :: l) = true) :
    cut sep follows (a :: l) = (cut sep follows l).modifyHead (a :: ·) := by
  rw [cut, cutAfter, if_neg h]
  rfl

variable (follows) in
/-- A list is empty, begins with a separator, or does not. -/
theorem cut_induction {P : List α → Prop} (hsep : sep ≠ []) (nil : P [])
    (cuts : ∀ rest, follows rest = true → P rest → P (sep ++ rest))
    (cons : ∀ a l, ¬ cutsHere sep follows (a :: l) = true → P l → P (a :: l)) (l : List α) : P l := by
  induction hn : l.length using Nat.strong_induction_on generalizing l with
  | _ n ih =>
    subst hn
    cases l with
    | nil => exact nil
    | cons a l =>
      by_cases hhere : cutsHere sep follows (a :: l) = true
      · obtain ⟨rest, hl, hrest⟩ := cutsHere_iff.mp hhere
        have hpos : 0 < sep.length := List.length_pos_iff.mpr hsep
        rw [hl]
        exact cuts rest hrest (ih rest.length (by rw [hl, List.length_append]; omega) rest rfl)
      · exact cons a l hhere (ih l.length (by rw [List.length_cons]; omega) l rfl)

variable (follows l) in
theorem cut_ne_nil (hsep : sep ≠ []) : cut sep follows l ≠ [] := by
  induction l using cut_induction follows hsep with
  | nil => exact List.cons_ne_nil _ _
  | cuts rest hrest _ =>
    rw [cut_sep hsep hrest]
    exact List.cons_ne_nil _ _
  | cons a l h ih => rwa [cut_cons h, ne_eq, List.modifyHead_eq_nil_iff]

variable (follows l) in
/-- Put together again with the separator, the pieces are the list. -/
theorem intercalate_cut (hsep : sep ≠ []) : sep.intercalate (cut sep follows l) = l := by
  induction l using cut_induction follows hsep with
  | nil => rfl
  | cuts rest hrest ih =>
    rw [cut_sep hsep hrest, List.intercalate_cons_of_ne_nil (cut_ne_nil follows rest hsep), ih, List.nil_append]
  | cons a l h ih =>
    obtain ⟨piece, pieces, hpieces⟩ := List.exists_cons_of_ne_nil (cut_ne_nil follows l hsep)
    rw [hpieces] at ih
    rw [cut_cons h, hpieces, List.modifyHead_cons, List.intercalate_cons_cons_left, ih]

theorem head_prefix_of_cut {piece : List α} {pieces : List (List α)} (hsep : sep ≠ [])
    (h : cut sep follows l = piece :: pieces) : piece <+: l := by
  have hjoin := intercalate_cut follows l hsep
  rw [h] at hjoin
  cases pieces with
  | nil =>
    rw [List.intercalate_singleton] at hjoin
    exact hjoin ▸ List.prefix_rfl
  | cons second pieces =>
    rw [List.intercalate_cons_cons, List.append_assoc] at hjoin
    exact ⟨_, hjoin⟩

/-- No piece has a separator in it that is in front of what it has to be. -/
theorem follows_of_mem_cut (hsep : sep ≠ []) (hmono : ∀ l m, follows l = true → follows (l ++ m) = true) {piece : List α}
    (h : piece ∈ cut sep follows l) (before after : List α) (hsplit : piece = before ++ (sep ++ after)) :
    ¬ follows after = true := by
  induction l using cut_induction follows hsep generalizing piece before after with
  | nil =>
    obtain rfl := List.mem_singleton.mp h
    rw [eq_comm, List.append_eq_nil_iff, List.append_eq_nil_iff] at hsplit
    exact absurd hsplit.2.1 hsep
  | cuts rest hrest ih =>
    rw [cut_sep hsep hrest] at h
    rcases List.mem_cons.mp h with rfl | h
    · rw [eq_comm, List.append_eq_nil_iff, List.append_eq_nil_iff] at hsplit
      exact absurd hsplit.2.1 hsep
    · exact ih h before after hsplit
  | cons a l hnot ih =>
    obtain ⟨first, pieces, hpieces⟩ := List.exists_cons_of_ne_nil (cut_ne_nil follows l hsep)
    rw [cut_cons hnot, hpieces, List.modifyHead_cons] at h
    rcases List.mem_cons.mp h with rfl | h
    · cases before with
      | nil =>
        intro hafter
        obtain ⟨m, rfl⟩ := head_prefix_of_cut hsep hpieces
        rw [List.nil_append] at hsplit
        refine hnot (cutsHere_iff.mpr ⟨after ++ m, ?_, hmono _ _ hafter⟩)
        rw [← List.cons_append, hsplit, List.append_assoc]
      | cons b before =>
        obtain ⟨-, hfirst⟩ := List.cons.inj hsplit
        exact ih (hpieces ▸ List.mem_cons_self) before after hfirst
    · exact ih (hpieces ▸ List.mem_cons_of_mem _ h) before after hsplit

end Pieces

section Lines
variable {sep : List α} {follows : List α → Bool} {line rest : List α}

variable (sep follows) in
/-- No separator begins within the line, whether it is the last one or not. -/
def Whole (line : List α) : Prop :=
  ∀ tail, tail <:+ line → tail ≠ [] → ∀ rest, rest = [] ∨ sep <+: rest → ¬ cutsHere sep follows (tail ++ rest) = true

theorem Whole.of_cons {a : α} (h : Whole sep follows (a :: line)) : Whole sep follows line :=
  fun tail htail => h tail (htail.trans (List.suffix_cons a line))

theorem cut_whole (h : Whole sep follows line) : cut sep follows line = [line] := by
  induction line with
  | nil => rfl
  | cons a line ih =>
    have hnot := h (a :: line) List.suffix_rfl (List.cons_ne_nil _ _) [] (.inl rfl)
    rw [List.append_nil] at hnot
    rw [cut_cons hnot, ih h.of_cons, List.modifyHead_cons]

theorem cut_whole_append (hsep : sep ≠ []) (h : Whole sep follows line) (hrest : follows rest = true) :
    cut sep follows (line ++ (sep ++ rest)) = line :: cut sep follows rest := by
  induction line with
  | nil => rw [List.nil_append, cut_sep hsep hrest]
  | cons a line ih =>
    have hnot := h (a :: line) List.suffix_rfl (List.cons_ne_nil _ _) (sep ++ rest) (.inr (List.prefix_append _ _))
    rw [List.cons_append] at hnot ⊢
    rw [cut_cons hnot, ih h.of_cons, List.modifyHead_cons]

/-- Lines that are whole, each of them the like of what the separator stands in front of, come apart as they were. -/
theorem cut_intercalate (hsep : sep ≠ []) {lines : List (List α)} (hne : lines ≠ [])
    (hwhole : ∀ line ∈ lines, Whole sep follows line) (hstart : ∀ line ∈ lines, ∀ rest, follows (line ++ rest) = true) :
    cut sep follows (sep.intercalate lines) = lines := by
  induction lines with
  | nil => exact absurd rfl hne
  | cons line lines ih =>
    cases lines with
    | nil =>
      rw [List.intercalate_singleton]
      exact cut_whole (hwhole line List.mem_cons_self)
    | cons second lines =>
      have hsecond : follows (sep.intercalate (second :: lines)) = true := by
        cases lines with
        | nil =>
          have h := hstart second (by simp) []
          rw [List.append_nil] at h
          rwa [List.intercalate_singleton]
        | cons third lines =>
          rw [List.intercalate_cons_cons, List.append_assoc]
          exact hstart second (by simp) _
      rw [List.intercalate_cons_cons, List.append_assoc,
        cut_whole_append hsep (hwhole line List.mem_cons_self) hsecond,
        ih (List.cons_ne_nil _ _) (fun l hl => hwhole l (List.mem_cons_of_mem _ hl))
          (fun l hl => hstart l (List.mem_cons_of_mem _ hl))]

end Lines

section Markers
variable {sep : List α} {markers : List (List α)} {line : List α}

/-- One of the markers comes next. -/
def followedBy (markers : List (List α)) (l : List α) : Bool := markers.any (fun marker => marker.isPrefixOf l)

theorem followedBy_iff {l : List α} : followedBy markers l = true ↔ ∃ marker ∈ markers, marker <+: l := by
  simp only [followedBy, List.any_eq_true, List.isPrefixOf_iff_prefix]

theorem followedBy_append (l m : List α) (h : followedBy markers l = true) : followedBy markers (l ++ m) = true := by
  obtain ⟨marker, hmem, hprefix⟩ := followedBy_iff.mp h
  exact followedBy_iff.mpr ⟨marker, hmem, hprefix.trans (List.prefix_append l m)⟩

omit [DecidableEq α] in
/-- What a list begins with it begins with before the first element that is not in it. -/
theorem prefix_of_prefix_append_cons {m l rest : List α} {a : α} (ha : a ∉ m) (h : m <+: l ++ a :: rest) : m <+: l := by
  rcases Nat.lt_or_ge l.length m.length with hlt | hle
  · have hl : l ++ [a] <+: m := by
      refine List.prefix_of_prefix_length_le ?_ h (by rw [List.length_append, List.length_singleton]; omega)
      exact ⟨rest, by rw [List.append_assoc, List.singleton_append]⟩
    exact absurd (hl.subset (by simp)) ha
  · exact List.prefix_of_prefix_length_le h (List.prefix_append l _) hle

omit [DecidableEq α] in
/-- A list that stands in two others, and begins with what the first does not have, stands in the second. -/
theorem infix_append_iff_of_not_mem {a : α} {l m l' : List α} (ha : a ∉ l) : a :: m <:+: l ++ l' ↔ a :: m <:+: l' := by
  induction l with
  | nil => rw [List.nil_append]
  | cons b l ih =>
    obtain ⟨hab, hal⟩ := not_or.mp (mt List.mem_cons.mpr ha)
    rw [List.cons_append, List.infix_cons_iff, ih hal, List.cons_prefix_cons]
    exact or_iff_right (fun hprefix => hab hprefix.1)

omit [DecidableEq α] in
/-- Where a separator has begun in the line, what comes after the line leaves no room for a marker: it is empty, or
begins with a separator itself. -/
theorem not_prefix_of_overlap {marker s after rest : List α} (hsome : marker ≠ []) (hclear : ∀ a ∈ sep, a ∉ marker)
    (hlen : s.length < sep.length) (hrests : rest = s ++ after) (hrest : rest = [] ∨ sep <+: rest) : ¬ marker <+: after := by
  intro hmarker
  obtain ⟨m, marker, rfl⟩ := List.exists_cons_of_ne_nil hsome
  rcases hrest with rfl | ⟨r, rfl⟩
  · rw [eq_comm, List.append_eq_nil_iff] at hrests
    exact absurd (hrests.2 ▸ hmarker) (by simp)
  · rcases List.append_eq_append_iff.mp hrests with ⟨x, hx, -⟩ | ⟨x, hx, hafter⟩
    · rw [hx, List.length_append] at hlen
      omega
    · cases x with
      | nil =>
        rw [hx, List.length_append] at hlen
        exact absurd hlen (by simp)
      | cons b x =>
        rw [hafter, List.cons_append, List.cons_prefix_cons] at hmarker
        exact hclear b (by simp [hx]) (hmarker.1 ▸ List.mem_cons_self)

/-- A line is whole if there is no marker in it with a separator in front. -/
theorem whole_iff (hsep : sep ≠ []) (hmarkers : ∀ marker ∈ markers, marker ≠ [] ∧ ∀ a ∈ sep, a ∉ marker) :
    Whole sep (followedBy markers) line ↔ ∀ marker ∈ markers, ¬ sep ++ marker <:+: line := by
  constructor
  · rintro h marker hmem ⟨before, after, rfl⟩
    refine h (sep ++ marker ++ after) ?_ (by simp [hsep]) [] (.inl rfl) ?_
    · exact ⟨before, by rw [← List.append_assoc, ← List.append_assoc]⟩
    · rw [List.append_nil, List.append_assoc]
      exact cutsHere_iff.mpr ⟨_, rfl, followedBy_iff.mpr ⟨marker, hmem, List.prefix_append _ _⟩⟩
  · intro h tail htail hne rest hrest hhere
    obtain ⟨after, hsplit, hafter⟩ := cutsHere_iff.mp hhere
    obtain ⟨marker, hmem, hmarker⟩ := followedBy_iff.mp hafter
    obtain ⟨hsome, hclear⟩ := hmarkers marker hmem
    rcases List.append_eq_append_iff.mp hsplit with ⟨s, hs, hrests⟩ | ⟨tail', rfl, hafters⟩
    · refine not_prefix_of_overlap hsome hclear ?_ hrests hrest hmarker
      have hpos := List.length_pos_iff.mpr hne
      rw [hs, List.length_append]
      omega
    · have hin : marker <+: tail' := by
        rw [hafters] at hmarker
        rcases hrest with rfl | ⟨r, rfl⟩
        · rwa [List.append_nil] at hmarker
        · obtain ⟨b, sep, rfl⟩ := List.exists_cons_of_ne_nil hsep
          exact prefix_of_prefix_append_cons (hclear b List.mem_cons_self) hmarker
      obtain ⟨post, rfl⟩ := hin
      refine h marker hmem (List.IsInfix.trans ⟨[], post, ?_⟩ htail.isInfix)
      rw [List.nil_append, List.append_assoc]

end Markers
end Memorai.Text
