import Mathlib.Data.List.Forall2
import Mathlib.Data.List.Nodup

/-! Lists related element by element, and the places of elements in a list. -/
namespace Memorai.Lists

/-- What holds of the elements of one list may be used for the pairs. -/
theorem forall₂_of_mem {α β : Type} {R S : α → β → Prop} {as : List α} {bs : List β} (h : List.Forall₂ R as bs)
    (hS : ∀ a ∈ as, ∀ b, R a b → S a b) : List.Forall₂ S as bs := by
  induction h with
  | nil => exact .nil
  | @cons a b as bs hab _ ih =>
    exact .cons (hS a List.mem_cons_self b hab) (ih (fun c hc => hS c (List.mem_cons_of_mem _ hc)))

theorem exists_of_forall₂ {α β : Type} {R : α → β → Prop} {as : List α} {bs : List β} (h : List.Forall₂ R as bs) {b : β}
    (hb : b ∈ bs) : ∃ a ∈ as, R a b := by
  induction h with
  | nil => exact absurd hb List.not_mem_nil
  | @cons a c as bs hac _ ih =>
    rcases List.mem_cons.mp hb with rfl | hb
    · exact ⟨a, List.mem_cons_self, hac⟩
    · obtain ⟨d, hd, hdb⟩ := ih hb
      exact ⟨d, List.mem_cons_of_mem _ hd, hdb⟩

section Images
variable {α β γ : Type} {R : α → β → Prop} {as : List α} {bs : List β}

theorem map_eq_of_forall₂ {f : α → γ} {g : β → γ} (h : List.Forall₂ R as bs) (hfg : ∀ a b, R a b → f a = g b) :
    as.map f = bs.map g := by
  induction h with
  | nil => rfl
  | cons hab _ ih => rw [List.map_cons, List.map_cons, hfg _ _ hab, ih]

theorem map_eq_of_rel {f : α → γ} {g : β → γ} {o : Option α} {o' : Option β} (h : Option.Rel R o o')
    (hfg : ∀ a b, R a b → f a = g b) : o.map f = o'.map g := by
  cases h with
  | none => rfl
  | some hab => exact congrArg some (hfg _ _ hab)

theorem filterMap_eq_of_forall₂ {f : α → Option γ} {g : β → Option γ} (h : List.Forall₂ R as bs)
    (hfg : ∀ a b, R a b → f a = g b) : as.filterMap f = bs.filterMap g := by
  induction h with
  | nil => rfl
  | cons hab _ ih => rw [List.filterMap_cons, List.filterMap_cons, hfg _ _ hab, ih]

theorem flatMap_eq_of_forall₂ {f : α → List γ} {g : β → List γ} (h : List.Forall₂ R as bs)
    (hfg : ∀ a b, R a b → f a = g b) : as.flatMap f = bs.flatMap g := by
  induction h with
  | nil => rfl
  | cons hab _ ih => rw [List.flatMap_cons, List.flatMap_cons, hfg _ _ hab, ih]

theorem forall₂_filter {p : α → Bool} {q : β → Bool} (h : List.Forall₂ R as bs) (hpq : ∀ a b, R a b → p a = q b) :
    List.Forall₂ R (as.filter p) (bs.filter q) := by
  induction h with
  | nil => exact .nil
  | @cons a b as bs hab _ ih =>
    have heq := hpq a b hab
    by_cases hp : p a
    · rw [List.filter_cons_of_pos hp, List.filter_cons_of_pos (heq ▸ hp)]
      exact .cons hab ih
    · rw [List.filter_cons_of_neg hp, List.filter_cons_of_neg (heq ▸ hp)]
      exact ih

end Images

/-- Lists that agree on what is kept. -/
theorem filter_eq_of_forall₂ {α : Type} {R : α → α → Prop} {p q : α → Bool} {as bs : List α} (h : List.Forall₂ R as bs)
    (hpq : ∀ a b, R a b → p a = q b) (heq : ∀ a b, R a b → p a = true → b = a) : bs.filter q = as.filter p := by
  induction h with
  | nil => rfl
  | @cons a b as bs hab _ ih =>
    have hcond := hpq a b hab
    by_cases hp : p a = true
    · rw [List.filter_cons_of_pos hp, List.filter_cons_of_pos (hcond ▸ hp), ih, heq a b hab hp]
    · rw [List.filter_cons_of_neg hp, List.filter_cons_of_neg (hcond ▸ hp), ih]

/-- Lists with the same images match element by element. -/
theorem forall₂_of_map_eq {α β : Type} {f : α → β} {R : α → α → Prop} {as bs : List α} (h : as.map f = bs.map f)
    (hR : ∀ a ∈ as, ∀ b ∈ bs, f a = f b → R a b) : List.Forall₂ R as bs := by
  induction as generalizing bs with
  | nil =>
    rw [List.map_nil, eq_comm, List.map_eq_nil_iff] at h
    subst h
    exact .nil
  | cons a as ih =>
    obtain ⟨b, bs, rfl, hab, htail⟩ := List.map_eq_cons_iff.mp h.symm
    refine .cons (hR a List.mem_cons_self b List.mem_cons_self hab.symm) (ih htail.symm (fun c hc d hd => ?_))
    exact hR c (List.mem_cons_of_mem _ hc) d (List.mem_cons_of_mem _ hd)

/-- Splitting a concatenation at one element splits the list and the part it comes from. -/
theorem exists_split_of_flatMap {α β : Type} {f : α → List β} {l : List α} {p q : List β} {b : β}
    (h : l.flatMap f = p ++ b :: q) :
    ∃ l₁ a l₂ p' q', l = l₁ ++ a :: l₂ ∧ f a = p' ++ b :: q' ∧ p = l₁.flatMap f ++ p' ∧
      q = q' ++ l₂.flatMap f := by
  induction l generalizing p with
  | nil => simp at h
  | cons a l ih =>
    rw [List.flatMap_cons, List.append_eq_append_iff] at h
    rcases h with ⟨p', rfl, h⟩ | ⟨q', ha, h⟩
    · obtain ⟨l₁, a', l₂, p'', q'', rfl, ha, rfl, rfl⟩ := ih h
      exact ⟨a :: l₁, a', l₂, p'', q'', rfl, ha, by simp, rfl⟩
    · cases q' with
      | nil =>
        obtain ⟨l₁, a', l₂, p'', q'', rfl, ha', hp, rfl⟩ := ih (p := []) (by simpa using h.symm)
        refine ⟨a :: l₁, a', l₂, p'', q'', rfl, ha', ?_, rfl⟩
        simp only [List.append_nil] at ha
        rw [← ha, List.flatMap_cons, List.append_assoc, ← hp, List.append_nil]
      | cons b' q' =>
        rw [List.cons_append] at h
        obtain ⟨rfl, rfl⟩ := List.cons.inj h
        exact ⟨[], a, l, p, q', rfl, ha, rfl, rfl⟩

/-- A place in a list is at its head or further on. -/
theorem exists_split_cons {α : Type} {P : List α → α → List α → Prop} {a : α} {l : List α} :
    (∃ pre b post, a :: l = pre ++ b :: post ∧ P pre b post) ↔
      P [] a l ∨ ∃ pre b post, l = pre ++ b :: post ∧ P (a :: pre) b post := by
  constructor
  · rintro ⟨pre, b, post, hsplit, h⟩
    cases pre with
    | nil =>
      obtain ⟨rfl, rfl⟩ := List.cons.inj hsplit
      exact Or.inl h
    | cons c pre =>
      obtain ⟨rfl, rfl⟩ := List.cons.inj hsplit
      exact Or.inr ⟨pre, b, post, rfl, h⟩
  · rintro (h | ⟨pre, b, post, rfl, h⟩)
    · exact ⟨[], a, l, rfl, h⟩
    · exact ⟨a :: pre, b, post, rfl, h⟩

section Occurrences
variable {α : Type} {p : α → Bool} {l : List α} {a : α}

/-- The last element of a kind, and what comes after it. -/
theorem split_of_getLast?_filter (h : (l.filter p).getLast? = some a) :
    ∃ pre post, l = pre ++ a :: post ∧ p a = true ∧ ∀ b ∈ post, p b = false := by
  induction l with
  | nil => exact absurd h (by simp)
  | cons b l ih =>
    by_cases hl : l.filter p = []
    · by_cases hb : p b = true
      · rw [List.filter_cons_of_pos hb, hl] at h
        obtain rfl := Option.some.inj h
        exact ⟨[], l, rfl, hb, fun c hc => by simpa using List.filter_eq_nil_iff.mp hl c hc⟩
      · rw [List.filter_cons_of_neg hb, hl] at h
        exact absurd h (by simp)
    · have hlast : (l.filter p).getLast? = some a := by
        by_cases hb : p b = true
        · rw [List.filter_cons_of_pos hb, List.getLast?_cons_of_ne_nil hl] at h
          exact h
        · rw [List.filter_cons_of_neg hb] at h
          exact h
      obtain ⟨pre, post, rfl, ha, hpost⟩ := ih hlast
      exact ⟨b :: pre, post, rfl, ha, hpost⟩

/-- An element ahead of the last of a kind is ahead of every place where none of that kind follows. -/
theorem mem_of_splits_last {pre post pre' post' : List α} {b c d : α} (h : pre ++ b :: post = pre' ++ c :: post')
    (hd : d ∈ post) (hnot : d ∉ post') : b ∈ pre' := by
  rcases List.append_eq_append_iff.mp h with ⟨l, rfl, hl⟩ | ⟨l, rfl, hl⟩
  · cases l with
    | nil =>
      obtain ⟨rfl, rfl⟩ := List.cons.inj hl
      exact absurd hd hnot
    | cons x l =>
      obtain ⟨rfl, rfl⟩ := List.cons.inj hl
      simp
  · cases l with
    | nil =>
      obtain ⟨rfl, rfl⟩ := List.cons.inj hl
      exact absurd hd hnot
    | cons x l =>
      obtain ⟨rfl, rfl⟩ := List.cons.inj hl
      exact absurd (by simp [hd]) hnot

end Occurrences

section Ahead
variable {α : Type} (p : α → Bool)

variable {p} {as bs : List α} {a : α} {m : Nat}

end Ahead
end Memorai.Lists
