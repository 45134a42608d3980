import Mathlib.Data.List.Basic

/-! Histories, the newest event first. Each event has its reasons in what was there before it. -/
namespace Memorai.Histories
variable {E : Type} {Justified : List E → E → Prop} {e : E} {log pre before : List E}

def Grounded (Justified : List E → E → Prop) : List E → Prop
  | [] => True
  | e :: before => Justified before e ∧ Grounded Justified before

theorem Grounded.of_append (h : Grounded Justified (pre ++ before)) : Grounded Justified before := by
  induction pre with
  | nil => exact h
  | cons _ pre ih => exact ih h.2

theorem Grounded.of_split (h : Grounded Justified (pre ++ e :: before)) : Justified before e := h.of_append.1

/-- An event of the history happened at a time when it was justified. -/
theorem Grounded.exists_split (h : Grounded Justified log) (he : e ∈ log) :
    ∃ pre before, log = pre ++ e :: before ∧ Justified before e := by
  obtain ⟨pre, before, rfl⟩ := List.append_of_mem he
  exact ⟨pre, before, rfl, h.of_split⟩

end Memorai.Histories
