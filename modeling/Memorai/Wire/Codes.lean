import Mathlib.Data.List.Basic

/-! Codes whose end can be told from whatever follows them. -/
namespace Memorai.Wire
variable {α β γ : Type}

def SelfDelimiting (code : α → List β) : Prop :=
  ∀ ⦃a a' rest rest'⦄, code a ++ rest = code a' ++ rest' → a = a' ∧ rest = rest'

namespace SelfDelimiting
variable {code : α → List β} {code' : γ → List β}

theorem injective (h : SelfDelimiting code) : Function.Injective code := by
  intro a a' hcode
  have happend : code a ++ [] = code a' ++ [] := by rw [hcode]
  exact (h happend).1

/-- What can be read back, with the rest, ends where it was written to end. -/
theorem of_read {read : List β → Option (α × List β)} (h : ∀ a rest, read (code a ++ rest) = some (a, rest)) :
    SelfDelimiting code := by
  intro a a' rest rest' hcode
  have hread := congrArg read hcode
  rw [h, h] at hread
  exact Prod.mk.inj (Option.some.inj hread)

theorem behind (start : List β) (h : SelfDelimiting code) : SelfDelimiting (fun a => start ++ code a) := by
  intro a a' rest rest' hcode
  rw [List.append_assoc, List.append_assoc] at hcode
  exact h (List.append_cancel_left hcode)

theorem pair (h : SelfDelimiting code) (h' : SelfDelimiting code') :
    SelfDelimiting (fun p : α × γ => code p.1 ++ code' p.2) := by
  intro p p' rest rest' hcode
  rw [List.append_assoc, List.append_assoc] at hcode
  obtain ⟨hfirst, hcode⟩ := h hcode
  obtain ⟨hsecond, hrest⟩ := h' hcode
  exact ⟨Prod.ext hfirst hsecond, hrest⟩

theorem comp (h : SelfDelimiting code) {f : γ → α} (hf : Function.Injective f) : SelfDelimiting (fun c => code (f c)) := by
  intro c c' rest rest' hcode
  obtain ⟨hvalue, hrest⟩ := h hcode
  exact ⟨hf hvalue, hrest⟩

end SelfDelimiting

/-- Any number of codes, up to a stop. -/
def terminated (stop : β) (code : α → List β) : List α → List β
  | [] => [stop]
  | a :: l => code a ++ terminated stop code l

/-- Codes with something between them, up to a stop. -/
def separated (sep stop : β) (code : α → List β) : List α → List β
  | [] => [stop]
  | a :: l => code a ++ terminated stop (fun b => sep :: code b) l

namespace SelfDelimiting
variable {code : α → List β} {sep stop : β}

theorem terminated (h : SelfDelimiting code) (hstop : ∀ a rest rest', code a ++ rest ≠ stop :: rest') :
    SelfDelimiting (terminated stop code) := by
  intro l
  induction l with
  | nil =>
    intro l' rest rest' hcode
    cases l' with
    | nil => exact ⟨rfl, (List.cons.inj hcode).2⟩
    | cons a' l' =>
      rw [Wire.terminated, Wire.terminated, List.append_assoc] at hcode
      exact absurd hcode.symm (hstop _ _ _)
  | cons a l ih =>
    intro l' rest rest' hcode
    cases l' with
    | nil =>
      rw [Wire.terminated, Wire.terminated, List.append_assoc] at hcode
      exact absurd hcode (hstop _ _ _)
    | cons a' l' =>
      rw [Wire.terminated, Wire.terminated, List.append_assoc, List.append_assoc] at hcode
      obtain ⟨rfl, htail⟩ := h hcode
      obtain ⟨rfl, hrest⟩ := ih htail
      exact ⟨rfl, hrest⟩

theorem separated (h : SelfDelimiting code) (hne : sep ≠ stop) (hstop : ∀ a rest rest', code a ++ rest ≠ stop :: rest') :
    SelfDelimiting (separated sep stop code) := by
  have htail : SelfDelimiting (Wire.terminated stop (fun b => sep :: code b)) :=
    (h.behind [sep]).terminated (fun a rest rest' hcode => hne (List.cons.inj hcode).1)
  intro l l' rest rest' hcode
  cases l with
  | nil =>
    cases l' with
    | nil => exact ⟨rfl, (List.cons.inj hcode).2⟩
    | cons a' l' =>
      rw [Wire.separated, Wire.separated, List.append_assoc] at hcode
      exact absurd hcode.symm (hstop _ _ _)
  | cons a l =>
    cases l' with
    | nil =>
      rw [Wire.separated, Wire.separated, List.append_assoc] at hcode
      exact absurd hcode (hstop _ _ _)
    | cons a' l' =>
      rw [Wire.separated, Wire.separated, List.append_assoc, List.append_assoc] at hcode
      obtain ⟨rfl, hothers⟩ := h hcode
      obtain ⟨rfl, hrest⟩ := htail hothers
      exact ⟨rfl, hrest⟩

end SelfDelimiting

/-- Text of one alphabet ends at the first letter outside it. -/
theorem append_inj_of_outside {p : β → Prop} {l l' : List β} {b b' : β} {rest rest' : List β} (hl : ∀ x ∈ l, p x) (hb : ¬ p b)
    (hl' : ∀ x ∈ l', p x) (hb' : ¬ p b') (h : l ++ b :: rest = l' ++ b' :: rest') : l = l' ∧ b :: rest = b' :: rest' := by
  induction l generalizing l' with
  | nil =>
    cases l' with
    | nil => exact ⟨rfl, h⟩
    | cons x l' => exact absurd (hl' x List.mem_cons_self) ((List.cons.inj h).1 ▸ hb)
  | cons y l ih =>
    cases l' with
    | nil => exact absurd (hl y List.mem_cons_self) ((List.cons.inj h).1 ▸ hb')
    | cons x l' =>
      obtain ⟨rfl, htail⟩ := List.cons.inj h
      obtain ⟨rfl, hrest⟩ := ih (fun z hz => hl z (List.mem_cons_of_mem _ hz)) (fun z hz => hl' z (List.mem_cons_of_mem _ hz)) htail
      exact ⟨rfl, hrest⟩

end Memorai.Wire
