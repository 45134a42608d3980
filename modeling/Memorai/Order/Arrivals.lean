import Mathlib.Data.List.Sort
import Mathlib.Data.Finset.Max

/-! Versions of things that arrive one at a time, in any order. A version that is asserted later
displaces the live rivals asserted before it, and one that arrives after a live rival asserted
later is never live. Which versions end up live is compared over all orders of arrival. -/
namespace Memorai.Arrivals

variable {α T C τ : Type} [LinearOrder τ]

section
variable (topic : α → T) (content : α → C) (time : α → τ)

def Rival (a b : α) : Prop := topic a = topic b ∧ content a ≠ content b

/-- `n` is the last asserted version of what `a` is about. -/
def Newest (as : List α) (a n : α) : Prop :=
  n ∈ as ∧ topic n = topic a ∧ ∀ b ∈ as, topic b = topic a → time b ≤ time n

/-- `a` says what the newest version says, with a rival in between. -/
def Wavers (as : List α) (a : α) : Prop :=
  ∃ n, Newest topic time as a n ∧ content n = content a ∧ ∃ r ∈ as, Rival topic content a r ∧ time a < time r

end

section
variable {topic : α → T} {content : α → C} {time : α → τ}

theorem Rival.symm {a b : α} (h : Rival topic content a b) : Rival topic content b a := ⟨h.1.symm, h.2.symm⟩

theorem Newest.perm {as bs : List α} {a n : α} (h : Newest topic time as a n) (hp : bs.Perm as) :
    Newest topic time bs a n :=
  ⟨hp.mem_iff.mpr h.1, h.2.1, fun b hb => h.2.2 b (hp.mem_iff.mp hb)⟩

theorem exists_newest {as : List α} {a : α} (ha : a ∈ as) : ∃ n, Newest topic time as a n := by
  classical
  have hne : (as.toFinset.filter (fun b => topic b = topic a)).Nonempty :=
    ⟨a, Finset.mem_filter.mpr ⟨List.mem_toFinset.mpr ha, rfl⟩⟩
  obtain ⟨n, hn, hmax⟩ := Finset.exists_max_image _ time hne
  obtain ⟨hn, ht⟩ := Finset.mem_filter.mp hn
  exact ⟨n, List.mem_toFinset.mp hn, ht,
    fun b hb hbt => hmax b (Finset.mem_filter.mpr ⟨List.mem_toFinset.mpr hb, hbt⟩)⟩

end

variable [DecidableEq T] [DecidableEq C] (topic : α → T) (content : α → C) (time : α → τ)

instance (a b : α) : Decidable (Rival topic content a b) := by unfold Rival; infer_instance

/-- The live versions after one more arrival. -/
def arrive (live : List α) (a : α) : List α :=
  live.filter (fun b => ¬ (Rival topic content a b ∧ time b < time a)) ++
    if ∃ b ∈ live, Rival topic content a b ∧ time a < time b then [] else [a]

def liveAfter (as : List α) : List α := as.foldl (arrive topic content time) []

variable {topic content time}

theorem mem_arrive (live : List α) (a x : α) :
    x ∈ arrive topic content time live a ↔
      (x ∈ live ∧ ¬ (Rival topic content a x ∧ time x < time a)) ∨
        (x = a ∧ ¬ ∃ b ∈ live, Rival topic content a b ∧ time a < time b) := by
  unfold arrive
  rw [List.mem_append, List.mem_filter, decide_eq_true_eq]
  split <;> simp_all

theorem liveAfter_concat (as : List α) (a : α) :
    liveAfter topic content time (as ++ [a]) = arrive topic content time (liveAfter topic content time as) a := by
  simp [liveAfter]

theorem mem_of_mem_liveAfter {as : List α} {x : α} (h : x ∈ liveAfter topic content time as) : x ∈ as := by
  induction as using List.reverseRecOn with
  | nil => exact absurd h List.not_mem_nil
  | append_singleton as a ih =>
    rw [liveAfter_concat, mem_arrive] at h
    rcases h with ⟨h, _⟩ | ⟨rfl, _⟩
    · exact List.mem_append_left _ (ih h)
    · simp

/-- Live at the end: no live rival asserted later on arrival, and no later asserted rival after it. -/
theorem mem_liveAfter_iff {pre post : List α} {a : α}
    (hp : (pre ++ a :: post).Pairwise (fun b c => time b ≠ time c)) :
    a ∈ liveAfter topic content time (pre ++ a :: post) ↔
      (∀ b ∈ liveAfter topic content time pre, Rival topic content a b → ¬ time a < time b) ∧
        ∀ x ∈ post, Rival topic content a x → ¬ time a < time x := by
  induction post using List.reverseRecOn with
  | nil =>
    have hnot : a ∉ liveAfter topic content time pre := by
      intro h
      exact (List.pairwise_append.mp hp).2.2 a (mem_of_mem_liveAfter h) a (List.mem_singleton_self a) rfl
    rw [liveAfter_concat, mem_arrive]
    simp [hnot]
  | append_singleton post x ih =>
    have hassoc : pre ++ a :: (post ++ [x]) = (pre ++ a :: post) ++ [x] := by simp
    rw [hassoc] at hp ⊢
    have hne : a ≠ x := by
      rintro rfl
      exact (List.pairwise_append.mp hp).2.2 a (by simp) a (List.mem_singleton_self a) rfl
    rw [liveAfter_concat, mem_arrive, ih (List.pairwise_append.mp hp).1]
    simp only [hne, false_and, or_false, List.mem_append, List.mem_singleton]
    constructor
    · intro h
      refine ⟨h.1.1, fun y hy hr hlt => ?_⟩
      rcases hy with hy | rfl
      · exact h.1.2 y hy hr hlt
      · exact h.2 ⟨hr.symm, hlt⟩
    · intro h
      exact ⟨⟨h.1, fun y hy => h.2 y (Or.inl hy)⟩, fun hx => h.2 x (Or.inr rfl) hx.1.symm hx.2⟩

/-- A version without a rival asserted after it is live in every order. -/
theorem live_of_no_later {as : List α} {a : α} (hp : as.Pairwise (fun b c => time b ≠ time c)) (ha : a ∈ as)
    (h : ∀ r ∈ as, Rival topic content a r → ¬ time a < time r) : a ∈ liveAfter topic content time as := by
  obtain ⟨pre, post, rfl⟩ := List.append_of_mem ha
  refine (mem_liveAfter_iff hp).mpr ⟨fun b hb => h b ?_, fun x hx => h x ?_⟩
  · exact List.mem_append_left _ (mem_of_mem_liveAfter hb)
  · exact List.mem_append_right _ (List.mem_cons_of_mem _ hx)

theorem live_of_newest {as : List α} {a n : α} (hp : as.Pairwise (fun b c => time b ≠ time c))
    (hn : Newest topic time as a n) : n ∈ liveAfter topic content time as :=
  live_of_no_later hp hn.1 (fun r hr hrival => not_lt_of_ge (hn.2.2 r hr (hrival.1.symm.trans hn.2.1)))

/-- A version that differs from the newest one is not live in any order. -/
theorem not_live_of_newest {as : List α} {a n : α} (hp : as.Pairwise (fun b c => time b ≠ time c)) (ha : a ∈ as)
    (hn : Newest topic time as a n) (hc : content n ≠ content a) : a ∉ liveAfter topic content time as := by
  obtain ⟨pre, post, rfl⟩ := List.append_of_mem ha
  have hrival : Rival topic content a n := ⟨hn.2.1.symm, hc.symm⟩
  have hle : time a ≤ time n := hn.2.2 a ha rfl
  rw [mem_liveAfter_iff hp]
  intro h
  rcases List.mem_append.mp hn.1 with hpre | hpost
  · have hne : time n ≠ time a := (List.pairwise_append.mp hp).2.2 n hpre a List.mem_cons_self
    refine h.1 n (live_of_newest (List.pairwise_append.mp hp).1 ⟨hpre, hn.2.1, fun b hb => ?_⟩) hrival
      (lt_of_le_of_ne hle hne.symm)
    exact hn.2.2 b (List.mem_append_left _ hb)
  · rcases List.mem_cons.mp hpost with rfl | hpost
    · exact hc rfl
    · have hne : time a ≠ time n := (List.pairwise_cons.mp (List.pairwise_append.mp hp).2.1).1 n hpost
      exact h.2 n hpost hrival (lt_of_le_of_ne hle hne)

/-- Oldest first, a version with a rival asserted after it is displaced. -/
theorem not_live_ascending {as : List α} {a r : α} (hp : as.Pairwise (fun b c => time b ≠ time c))
    (hs : as.Pairwise (fun b c => time b ≤ time c)) (ha : a ∈ as) (hr : r ∈ as) (hrival : Rival topic content a r)
    (hlt : time a < time r) : a ∉ liveAfter topic content time as := by
  obtain ⟨pre, post, rfl⟩ := List.append_of_mem ha
  have hpost : r ∈ post := by
    rcases List.mem_append.mp hr with hpre | hr
    · exact absurd hlt (not_lt_of_ge ((List.pairwise_append.mp hs).2.2 r hpre a List.mem_cons_self))
    · exact (List.mem_cons.mp hr).resolve_left (fun e => hrival.2 (congrArg content e.symm))
  exact fun h => ((mem_liveAfter_iff hp).mp h).2 r hpost hrival hlt

/-- Newest first, a version that says what the newest says meets no live rival asserted later. -/
theorem live_descending {as : List α} {a n r : α} (hp : as.Pairwise (fun b c => time b ≠ time c))
    (hs : as.Pairwise (fun b c => time c ≤ time b)) (ha : a ∈ as) (hn : Newest topic time as a n)
    (hc : content n = content a) (hr : r ∈ as) (hrival : Rival topic content a r) (hlt : time a < time r) :
    a ∈ liveAfter topic content time as := by
  obtain ⟨pre, post, rfl⟩ := List.append_of_mem ha
  refine (mem_liveAfter_iff hp).mpr ⟨fun b hb hrb _ => ?_, fun x hx _ => ?_⟩
  · have hpre : n ∈ pre := by
      have han : time a < time n := lt_of_lt_of_le hlt (hn.2.2 r hr hrival.1.symm)
      rcases List.mem_append.mp hn.1 with h | h
      · exact h
      · rcases List.mem_cons.mp h with rfl | h
        · exact absurd han (lt_irrefl _)
        · have hle := (List.pairwise_cons.mp (List.pairwise_append.mp hs).2.1).1 n h
          exact absurd han (not_lt_of_ge hle)
    have hnb : Newest topic time pre b n :=
      ⟨hpre, hn.2.1.trans hrb.1, fun x hx ht => hn.2.2 x (List.mem_append_left _ hx) (ht.trans hrb.1.symm)⟩
    refine not_live_of_newest (List.pairwise_append.mp hp).1 (mem_of_mem_liveAfter hb) hnb ?_ hb
    rw [hc]
    exact hrb.2
  · exact not_lt_of_ge ((List.pairwise_cons.mp (List.pairwise_append.mp hs).2.1).1 x hx)

/-- Whether a version ends up live is the same for all orders of arrival, unless it wavers. -/
theorem live_order_independent_iff {as : List α} {a : α} (hp : as.Pairwise (fun b c => time b ≠ time c))
    (ha : a ∈ as) :
    (∀ bs cs : List α, bs.Perm as → cs.Perm as →
      (a ∈ liveAfter topic content time bs ↔ a ∈ liveAfter topic content time cs)) ↔
      ¬ Wavers topic content time as a := by
  have hpair : ∀ {bs : List α}, bs.Perm as → bs.Pairwise (fun b c => time b ≠ time c) :=
    fun h => (h.pairwise_iff (fun h => h.symm)).mpr hp
  constructor
  · intro h ⟨n, hn, hc, r, hr, hrival, hlt⟩
    have hup := List.perm_insertionSort (fun b c => time b ≤ time c) as
    have hdown := List.perm_insertionSort (fun b c => time c ≤ time b) as
    have hlive := live_descending (hpair hdown) (List.pairwise_insertionSort _ _) (hdown.mem_iff.mpr ha)
      (hn.perm hdown) hc (hdown.mem_iff.mpr hr) hrival hlt
    exact not_live_ascending (hpair hup) (List.pairwise_insertionSort _ _) (hup.mem_iff.mpr ha)
      (hup.mem_iff.mpr hr) hrival hlt ((h _ _ hup hdown).mpr hlive)
  · intro hw bs cs hbs hcs
    by_cases hlater : ∃ r ∈ as, Rival topic content a r ∧ time a < time r
    · obtain ⟨n, hn⟩ : ∃ n, Newest topic time as a n := exists_newest ha
      have hc : content n ≠ content a := fun e => hw ⟨n, hn, e, hlater⟩
      have hnot : ∀ {ds : List α}, ds.Perm as → a ∉ liveAfter topic content time ds :=
        fun hd => not_live_of_newest (hpair hd) (hd.mem_iff.mpr ha) (hn.perm hd) hc
      exact iff_of_false (hnot hbs) (hnot hcs)
    · have hall : ∀ {ds : List α}, ds.Perm as → a ∈ liveAfter topic content time ds :=
        fun hd => live_of_no_later (hpair hd) (hd.mem_iff.mpr ha)
          (fun r hr hrival hlt => hlater ⟨r, hd.mem_iff.mp hr, hrival, hlt⟩)
      exact iff_of_true (hall hbs) (hall hcs)

end Memorai.Arrivals
