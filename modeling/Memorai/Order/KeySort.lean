import Mathlib.Data.List.Sort

/-! Sorting by a key. Which order the elements came in does not show, as long as the key tells them apart,
and neither does anything else the comparisons do not look at. -/
namespace Memorai.Order
variable {α β κ : Type} [LinearOrder κ] {r : α → α → Prop} [DecidableRel r] (key : α → κ)

theorem pairwise_sort (hr : ∀ a b, r a b ↔ key a ≤ key b) (l : List α) : (l.insertionSort r).Pairwise r := by
  have : Std.Total r := ⟨fun a b => by rw [hr, hr]; exact le_total _ _⟩
  have : IsTrans α r := ⟨fun a b c hab hbc => (hr a c).mpr (((hr a b).mp hab).trans ((hr b c).mp hbc))⟩
  exact List.pairwise_insertionSort r l

/-- The same elements sort to the same list. -/
theorem sort_eq_of_perm (hr : ∀ a b, r a b ↔ key a ≤ key b) {l l' : List α} (h : l.Perm l')
    (hkey : ∀ a ∈ l, ∀ b ∈ l, key a = key b → a = b) : l.insertionSort r = l'.insertionSort r := by
  refine List.Perm.eq_of_pairwise (fun a b ha hb hab hba => ?_) (pairwise_sort key hr l) (pairwise_sort key hr l')
    ((List.perm_insertionSort r l).trans (h.trans (List.perm_insertionSort r l').symm))
  refine hkey a ((List.mem_insertionSort r).mp ha) b (h.mem_iff.mpr ((List.mem_insertionSort r).mp hb)) ?_
  exact le_antisymm ((hr a b).mp hab) ((hr b a).mp hba)

/-- What is kept of the sorted elements is what is kept, sorted. -/
theorem sort_filter (hr : ∀ a b, r a b ↔ key a ≤ key b) (p : α → Bool) {l : List α}
    (hkey : ∀ a ∈ l, ∀ b ∈ l, key a = key b → a = b) : (l.filter p).insertionSort r = (l.insertionSort r).filter p := by
  refine List.Perm.eq_of_pairwise (fun a b ha hb hab hba => ?_) (pairwise_sort key hr _)
    ((pairwise_sort key hr l).sublist List.filter_sublist)
    ((List.perm_insertionSort r _).trans ((List.perm_insertionSort r l).filter p).symm)
  have hmem : ∀ c ∈ (l.insertionSort r).filter p, c ∈ l := fun c hc => (List.mem_insertionSort r).mp (List.mem_filter.mp hc).1
  refine hkey a (List.mem_filter.mp ((List.mem_insertionSort r).mp ha)).1 b (hmem b hb) ?_
  exact le_antisymm ((hr a b).mp hab) ((hr b a).mp hba)

section Forall₂
variable {s : β → β → Prop} [DecidableRel s] {R : α → β → Prop}

private theorem forall₂_orderedInsert {a : α} {b : β} (hab : R a b) {l : List α} {l' : List β} (h : List.Forall₂ R l l')
    (hs : ∀ c d, R c d → (r a c ↔ s b d)) : List.Forall₂ R (l.orderedInsert r a) (l'.orderedInsert s b) := by
  induction h with
  | nil => exact .cons hab .nil
  | @cons c d l l' hcd hrest ih =>
    by_cases hac : r a c
    · rw [List.orderedInsert_cons_of_le r l hac, List.orderedInsert_cons_of_le s l' ((hs c d hcd).mp hac)]
      exact .cons hab (.cons hcd hrest)
    · rw [List.orderedInsert_of_not_le r l hac, List.orderedInsert_of_not_le s l' (fun h => hac ((hs c d hcd).mpr h))]
      exact .cons hcd ih

/-- Elements that compare alike sort alike. -/
theorem forall₂_sort {l : List α} {l' : List β} (h : List.Forall₂ R l l')
    (hs : ∀ a b c d, R a b → R c d → (r a c ↔ s b d)) : List.Forall₂ R (l.insertionSort r) (l'.insertionSort s) := by
  induction h with
  | nil => exact .nil
  | @cons a b l l' hab _ ih => exact forall₂_orderedInsert hab ih (fun c d hcd => hs a b c d hab hcd)

end Forall₂
end Memorai.Order
