import Mathlib.Data.List.DropRight
import Memorai.Text.Strings

/-! What stands at the two ends of a text, taken off. -/
namespace Memorai.Text

section Ends
variable {α : Type} {p : α → Bool} {l : List α}

/-- A list without the elements at either end that satisfy `p`. -/
def trimEnds (p : α → Bool) (l : List α) : List α := (l.dropWhile p).rdropWhile p

theorem exists_trimEnds (p : α → Bool) (l : List α) :
    ∃ before after, l = before ++ trimEnds p l ++ after ∧ (∀ a ∈ before, p a = true) ∧ ∀ a ∈ after, p a = true := by
  refine ⟨l.takeWhile p, (l.dropWhile p).rtakeWhile p, ?_, ?_, ?_⟩
  · rw [trimEnds, List.append_assoc, List.rdropWhile_append_rtakeWhile, List.takeWhile_append_dropWhile]
  · intro a ha
    exact List.mem_takeWhile_imp ha
  · intro a ha
    exact List.mem_rtakeWhile_imp ha

theorem filter_trimEnds : (trimEnds p l).filter (fun a => !p a) = l.filter (fun a => !p a) := by
  obtain ⟨before, after, hl, hbefore, hafter⟩ := exists_trimEnds p l
  have hnone : ∀ {m : List α}, (∀ a ∈ m, p a = true) → m.filter (fun a => !p a) = [] := by
    intro m hm
    rw [List.filter_eq_nil_iff]
    intro a ha
    simp [hm a ha]
  conv_rhs => rw [hl]
  rw [List.filter_append, List.filter_append, hnone hbefore, hnone hafter, List.nil_append, List.append_nil]

theorem trimEnds_eq_nil_iff : trimEnds p l = [] ↔ ∀ a ∈ l, p a = true := by
  rw [trimEnds, List.rdropWhile_eq_nil_iff]
  constructor
  · intro h a ha
    rw [← l.takeWhile_append_dropWhile (p := p), List.mem_append] at ha
    rcases ha with ha | ha
    · exact List.mem_takeWhile_imp ha
    · exact h a ha
  · intro h a ha
    exact h a ((List.dropWhile_suffix p).subset ha)

theorem trimEnds_of_forall (h : ∀ a ∈ l, p a = false) : trimEnds p l = l := by
  have hdrop : l.dropWhile p = l := by
    rw [List.dropWhile_eq_self_iff]
    intro hl
    simp [h _ (List.getElem_mem hl)]
  rw [trimEnds, hdrop, List.rdropWhile_eq_self_iff]
  intro hl
  simp [h _ (List.getLast_mem hl)]

theorem trimEnds_trimEnds : trimEnds p (trimEnds p l) = trimEnds p l := by
  have hdrop : (trimEnds p l).dropWhile p = trimEnds p l := by
    rw [List.dropWhile_eq_self_iff]
    intro hl
    have hstart : trimEnds p l <+: l.dropWhile p := List.rdropWhile_prefix p _
    rw [hstart.getElem hl]
    exact List.dropWhile_get_zero_not p l (hl.trans_le hstart.length_le)
  rw [trimEnds, hdrop, trimEnds, List.rdropWhile_idempotent]

end Ends

/-- `str::trim` -/
def trim (s : String) : String := String.ofList (trimEnds isWhitespace s.toList)

theorem stripChars_eq (cs : List Char) : stripChars cs = trimEnds isSpace cs := rfl

theorem strip_eq_empty_iff {s : String} : strip s = "" ↔ ∀ c ∈ s.toList, isSpace c = true := by
  rw [strip, stripChars_eq, ← trimEnds_eq_nil_iff, String.ofList_eq_empty_iff]

theorem strip_strip (s : String) : strip (strip s) = strip s := by
  rw [strip, strip, String.toList_ofList, stripChars_eq, stripChars_eq, trimEnds_trimEnds]

end Memorai.Text
