import Mathlib.Data.List.Induction

/-! A value that is written over and over, in passing along a list: the last write stays. -/
namespace Memorai.Order
variable {α β : Type}

def lastWrite (write : α → Option β) (l : List α) (b : β) : β := l.foldl (fun b a => (write a).getD b) b

section
variable {write : α → Option β} {l : List α} {a : α} {v : β}

theorem lastWrite_append (l r : List α) (b : β) : lastWrite write (l ++ r) b = lastWrite write r (lastWrite write l b) :=
  List.foldl_append

theorem lastWrite_cons (b : β) : lastWrite write (a :: l) b = lastWrite write l ((write a).getD b) := rfl

theorem lastWrite_concat (b : β) : lastWrite write (l ++ [a]) b = (write a).getD (lastWrite write l b) :=
  lastWrite_append l [a] b

theorem lastWrite_of_silent (h : ∀ a ∈ l, write a = none) (b : β) : lastWrite write l b = b := by
  induction l with
  | nil => rfl
  | cons a l ih =>
    rw [lastWrite_cons, h a List.mem_cons_self, Option.getD_none]
    exact ih (fun c hc => h c (List.mem_cons_of_mem _ hc))

/-- Where there is a write, what was there before does not matter. -/
theorem lastWrite_of_mem (ha : a ∈ l) (hv : write a = some v) (b b' : β) : lastWrite write l b = lastWrite write l b' := by
  obtain ⟨s, t, rfl⟩ := List.append_of_mem ha
  rw [lastWrite_append, lastWrite_append, lastWrite_cons, lastWrite_cons, hv, Option.getD_some, Option.getD_some]

/-- Writes of one value leave that value. -/
theorem lastWrite_of_agree (h : ∀ c ∈ l, ∀ u, write c = some u → u = v) (ha : a ∈ l) (hv : write a = some v) (b : β) :
    lastWrite write l b = v := by
  induction l using List.reverseRecOn with
  | nil => exact absurd ha List.not_mem_nil
  | append_singleton l c ih =>
    rw [lastWrite_concat]
    cases hc : write c with
    | some u => exact h c (List.mem_append_right _ (List.mem_singleton_self c)) u hc
    | none =>
      rcases List.mem_append.mp ha with ha | ha
      · exact ih (fun d hd => h d (List.mem_append_left _ hd)) ha
      · rw [List.mem_singleton.mp ha, hc] at hv
        cases hv

/-- Any write can be the last one. -/
theorem exists_perm_lastWrite (ha : a ∈ l) (hv : write a = some v) (b : β) :
    ∃ l' : List α, l'.Perm l ∧ lastWrite write l' b = v := by
  obtain ⟨s, t, rfl⟩ := List.append_of_mem ha
  refine ⟨s ++ t ++ [a], ?_, ?_⟩
  · rw [List.append_assoc]
    exact List.Perm.append_left s (List.perm_append_singleton a t)
  · rw [lastWrite_concat, hv]
    rfl

/-- Of some writes in any order, with others behind them: the order shows exactly if nothing is written behind them
and two of them write different values. -/
theorem lastWrite_perm_iff (l r : List α) (b : β) :
    (∀ l' l'' : List α, l'.Perm l → l''.Perm l → lastWrite write (l' ++ r) b = lastWrite write (l'' ++ r) b) ↔
      (∃ a ∈ r, write a ≠ none) ∨ ∀ a ∈ l, ∀ a' ∈ l, ∀ u u', write a = some u → write a' = some u' → u = u' := by
  simp only [lastWrite_append]
  constructor
  · intro h
    by_contra hn
    rw [not_or] at hn
    obtain ⟨hbehind, hagree⟩ := hn
    have hsilent : ∀ a ∈ r, write a = none := by simpa using hbehind
    refine hagree fun a ha a' ha' u u' hu hu' => ?_
    obtain ⟨l', hl', hw'⟩ := exists_perm_lastWrite ha hu b
    obtain ⟨l'', hl'', hw''⟩ := exists_perm_lastWrite ha' hu' b
    have hsame := h l' l'' hl' hl''
    rwa [lastWrite_of_silent hsilent, lastWrite_of_silent hsilent, hw', hw''] at hsame
  · rintro (⟨a, ha, hne⟩ | hagree) l' l'' hl' hl''
    · obtain ⟨v, hv⟩ := Option.ne_none_iff_exists'.mp hne
      exact lastWrite_of_mem ha hv _ _
    · suffices hsame : lastWrite write l' b = lastWrite write l'' b by rw [hsame]
      by_cases hwrites : ∃ a ∈ l, ∃ v, write a = some v
      · obtain ⟨a, ha, v, hv⟩ := hwrites
        have hleaves : ∀ k : List α, k.Perm l → lastWrite write k b = v := fun k hk =>
          lastWrite_of_agree (fun c hc u hu => hagree c (hk.mem_iff.mp hc) a ha u v hu hv) (hk.mem_iff.mpr ha) hv b
        rw [hleaves l' hl', hleaves l'' hl'']
      · have hsilent : ∀ k : List α, k.Perm l → ∀ c ∈ k, write c = none := fun k hk c hc =>
          Option.eq_none_iff_forall_ne_some.mpr fun v hv => hwrites ⟨c, hk.mem_iff.mp hc, v, hv⟩
        rw [lastWrite_of_silent (hsilent l' hl'), lastWrite_of_silent (hsilent l'' hl'')]

end
end Memorai.Order
