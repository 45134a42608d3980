import Mathlib.Data.List.Induction
import Mathlib.Data.List.Nodup

/-! Insertion-ordered dictionaries with string keys, as association lists. -/
namespace Memorai.Dict

/-- Assignment to a key: a key that is there keeps its place. -/
def assign {β : Type} (key : String) (value : β) : List (String × β) → List (String × β)
  | [] => [(key, value)]
  | (k, v) :: rest => if k = key then (k, value) :: rest else (k, v) :: assign key value rest

/-- The dictionary a comprehension over `items` builds. -/
def collect {α β : Type} (key : α → String) (value : α → β) (items : List α) : List (String × β) :=
  items.foldl (fun dict a => assign (key a) (value a) dict) []

variable {α β γ : Type}

theorem mem_keys_assign (key : String) (value : β) (l : List (String × β)) (k : String) :
    k ∈ (assign key value l).map Prod.fst ↔ k = key ∨ k ∈ l.map Prod.fst := by
  induction l with
  | nil => simp [assign]
  | cons p l ih =>
    obtain ⟨j, v⟩ := p
    by_cases heq : j = key
    · subst heq
      rw [assign, if_pos rfl]
      simp
    · rw [assign, if_neg heq, List.map_cons, List.map_cons, List.mem_cons, ih, List.mem_cons]
      exact or_left_comm

theorem nodup_keys_assign (key : String) (value : β) {l : List (String × β)} (h : (l.map Prod.fst).Nodup) :
    ((assign key value l).map Prod.fst).Nodup := by
  induction l with
  | nil => simp [assign]
  | cons p l ih =>
    obtain ⟨j, v⟩ := p
    obtain ⟨hj, hl⟩ := List.nodup_cons.mp h
    by_cases heq : j = key
    · subst heq
      rw [assign, if_pos rfl]
      exact h
    · rw [assign, if_neg heq, List.map_cons]
      exact List.nodup_cons.mpr ⟨fun hin => ((mem_keys_assign key value l j).mp hin).elim heq hj, ih hl⟩

theorem mem_assign {key : String} {value : β} {l : List (String × β)} {p : String × β} (h : p ∈ assign key value l) :
    p = (key, value) ∨ p ∈ l := by
  induction l with
  | nil => exact Or.inl (List.mem_singleton.mp h)
  | cons q l ih =>
    obtain ⟨k, v⟩ := q
    by_cases heq : k = key
    · subst heq
      rw [assign, if_pos rfl] at h
      exact (List.mem_cons.mp h).imp id (List.mem_cons_of_mem _)
    · rw [assign, if_neg heq] at h
      rcases List.mem_cons.mp h with rfl | h
      · exact Or.inr (List.mem_cons_self ..)
      · exact (ih h).imp id (List.mem_cons_of_mem _)

theorem map_assign (f : β → γ) (key : String) (value : β) (l : List (String × β)) :
    (assign key value l).map (Prod.map id f) = assign key (f value) (l.map (Prod.map id f)) := by
  induction l with
  | nil => rfl
  | cons p l ih =>
    obtain ⟨k, v⟩ := p
    by_cases heq : k = key
    · subst heq
      simp [assign]
    · simp [assign, heq, ih]

theorem assign_of_not_mem {key : String} (value : β) {l : List (String × β)} (h : key ∉ l.map Prod.fst) :
    assign key value l = l ++ [(key, value)] := by
  induction l with
  | nil => rfl
  | cons p l ih =>
    obtain ⟨k, v⟩ := p
    obtain ⟨hne, hrest⟩ := not_or.mp (fun hin => h (List.mem_cons.mpr hin))
    rw [assign, if_neg (Ne.symm hne), ih hrest, List.cons_append]

theorem lookup_assign (key : String) (value : β) (l : List (String × β)) (k : String) :
    (assign key value l).lookup k = if k = key then some value else l.lookup k := by
  induction l with
  | nil =>
    by_cases h : k = key
    · simp [assign, h]
    · simp [assign, List.lookup_cons, h, beq_false_of_ne h]
  | cons p l ih =>
    obtain ⟨j, v⟩ := p
    by_cases hj : j = key
    · subst hj
      by_cases h : k = j
      · simp [assign, h]
      · simp [assign, List.lookup_cons, h, beq_false_of_ne h]
    · rw [assign, if_neg hj, List.lookup_cons, List.lookup_cons, ih]
      by_cases h : k = j
      · subst h
        simp [hj]
      · rw [beq_false_of_ne h]

section Collect
variable (key : α → String)

theorem collect_concat (value : α → β) (items : List α) (a : α) :
    collect key value (items ++ [a]) = assign (key a) (value a) (collect key value items) := by
  simp [collect]

theorem nodup_keys_collect (value : α → β) (items : List α) : ((collect key value items).map Prod.fst).Nodup := by
  induction items using List.reverseRecOn with
  | nil => exact List.nodup_nil
  | append_singleton items a ih =>
    rw [collect_concat]
    exact nodup_keys_assign _ _ ih

theorem collect_of_nodup (value : α → β) {items : List α} (h : (items.map key).Nodup) :
    collect key value items = items.map (fun a => (key a, value a)) := by
  induction items using List.reverseRecOn with
  | nil => rfl
  | append_singleton items a ih =>
    rw [List.map_append, List.map_singleton] at h
    have hfresh : key a ∉ ((items.map (fun a => (key a, value a))).map Prod.fst) := by
      rw [List.map_map]
      exact fun hin => (List.nodup_append.mp h).2.2 _ hin _ (List.mem_singleton_self _) rfl
    rw [collect_concat, ih (List.nodup_append.mp h).1, assign_of_not_mem _ hfresh, List.map_append, List.map_singleton]

theorem mem_collect {value : α → β} {items : List α} {p : String × β} (h : p ∈ collect key value items) :
    ∃ a ∈ items, p = (key a, value a) := by
  induction items using List.reverseRecOn with
  | nil => exact absurd h List.not_mem_nil
  | append_singleton items a ih =>
    rw [collect_concat] at h
    rcases mem_assign h with rfl | h
    · exact ⟨a, by simp, rfl⟩
    · obtain ⟨b, hb, he⟩ := ih h
      exact ⟨b, List.mem_append_left _ hb, he⟩

theorem mem_keys_collect (value : α → β) (items : List α) (k : String) :
    k ∈ (collect key value items).map Prod.fst ↔ ∃ a ∈ items, key a = k := by
  induction items using List.reverseRecOn with
  | nil => simp [collect]
  | append_singleton items a ih =>
    rw [collect_concat, mem_keys_assign, ih]
    constructor
    · intro h
      rcases h with rfl | ⟨b, hb, rfl⟩
      · exact ⟨a, by simp, rfl⟩
      · exact ⟨b, List.mem_append_left _ hb, rfl⟩
    · intro ⟨b, hb, hk⟩
      rcases List.mem_append.mp hb with hb | hb
      · exact Or.inr ⟨b, hb, hk⟩
      · exact Or.inl (List.mem_singleton.mp hb ▸ hk.symm)

/-- Two dictionaries with the same keys, the values of one computed from those of the other. -/
theorem collect_map (value : α → β) (f : β → γ) (items : List α) :
    collect key (fun a => f (value a)) items = (collect key value items).map (Prod.map id f) := by
  induction items using List.reverseRecOn with
  | nil => rfl
  | append_singleton items a ih => rw [collect_concat, collect_concat, ih, map_assign]

end Collect

theorem lookup_of_mem {l : List (String × β)} (h : (l.map Prod.fst).Nodup) {k : String} {v : β} (hm : (k, v) ∈ l) :
    l.lookup k = some v := by
  induction l with
  | nil => exact absurd hm List.not_mem_nil
  | cons p l ih =>
    obtain ⟨j, w⟩ := p
    obtain ⟨hj, hl⟩ := List.nodup_cons.mp h
    rcases List.mem_cons.mp hm with he | hm
    · obtain ⟨rfl, rfl⟩ := Prod.mk.inj he
      simp
    · have hk : k ∈ l.map Prod.fst := List.mem_map_of_mem (f := Prod.fst) hm
      have hne : k ≠ j := fun e => hj (e ▸ hk)
      rw [List.lookup_cons, beq_false_of_ne hne]
      exact ih hl hm

/-- A dictionary gives back what it was built from. -/
theorem lookup_collect {key : α → String} {value : α → β} {items : List α} {k : String} {v : β}
    (h : (k, v) ∈ collect key value items) : (collect key value items).lookup k = some v :=
  lookup_of_mem (nodup_keys_collect _ _ _) h

theorem mem_of_lookup {l : List (String × β)} {k : String} {v : β} (h : l.lookup k = some v) : (k, v) ∈ l := by
  induction l with
  | nil => exact absurd h (by simp)
  | cons p l ih =>
    obtain ⟨j, w⟩ := p
    by_cases hk : k = j
    · subst hk
      rw [List.lookup_cons_self] at h
      exact Option.some.inj h ▸ List.mem_cons_self ..
    · rw [List.lookup_cons, beq_false_of_ne hk] at h
      exact List.mem_cons_of_mem _ (ih h)

/-- A lookup where every value is replaced under its key. -/
theorem lookup_map_values (g : String → β → γ) (l : List (String × β)) (k : String) :
    (l.map (fun p => (p.1, g p.1 p.2))).lookup k = (l.lookup k).map (g k) := by
  induction l with
  | nil => rfl
  | cons p l ih =>
    obtain ⟨j, v⟩ := p
    rw [List.map_cons, List.lookup_cons, List.lookup_cons, ih]
    by_cases hk : k = j
    · subst hk
      simp
    · rw [beq_false_of_ne hk]

/-- A lookup among the keys that are kept. -/
theorem lookup_filter_keys (kept : String → Bool) (l : List (String × β)) (k : String) :
    (l.filter (fun p => kept p.1)).lookup k = if kept k = true then l.lookup k else none := by
  induction l with
  | nil => simp
  | cons p l ih =>
    obtain ⟨j, v⟩ := p
    rw [List.filter_cons, List.lookup_cons]
    by_cases hk : k = j
    · subst hk
      by_cases hkept : kept k = true
      · simp [hkept]
      · simp [hkept, ih]
    · by_cases hkept : kept j = true
      · rw [if_pos hkept, List.lookup_cons, beq_false_of_ne hk, ih]
      · rw [if_neg hkept, ih, beq_false_of_ne hk]

theorem lookup_eq_some_iff {l : List (String × β)} (h : (l.map Prod.fst).Nodup) {k : String} {v : β} :
    l.lookup k = some v ↔ (k, v) ∈ l := ⟨mem_of_lookup, lookup_of_mem h⟩

/-- Which order the items of a dictionary come in does not matter to a lookup. -/
theorem lookup_perm {l m : List (String × β)} (h : l.Perm m) (hl : (l.map Prod.fst).Nodup) (k : String) :
    l.lookup k = m.lookup k := by
  ext v
  rw [lookup_eq_some_iff hl, lookup_eq_some_iff ((h.map Prod.fst).nodup_iff.mp hl), h.mem_iff]

section Forall₂
variable {δ : Type} {S : β → γ → Prop}

theorem forall₂_assign {key : String} {v : β} {w : γ} (hvw : S v w) {l : List (String × β)} {m : List (String × γ)}
    (h : List.Forall₂ (fun p q => p.1 = q.1 ∧ S p.2 q.2) l m) :
    List.Forall₂ (fun p q => p.1 = q.1 ∧ S p.2 q.2) (assign key v l) (assign key w m) := by
  induction h with
  | nil => exact .cons ⟨rfl, hvw⟩ .nil
  | @cons p q l m hpq hrest ih =>
    obtain ⟨k, a⟩ := p
    obtain ⟨j, b⟩ := q
    obtain ⟨rfl, hab⟩ : k = j ∧ S a b := hpq
    by_cases hk : k = key
    · rw [assign, assign, if_pos hk, if_pos hk]
      exact .cons ⟨rfl, hvw⟩ hrest
    · rw [assign, assign, if_neg hk, if_neg hk]
      exact .cons ⟨rfl, hab⟩ ih

/-- Dictionaries built alike have the same keys, and values that match. -/
theorem forall₂_collect {key : α → String} {key' : δ → String} {value : α → β} {value' : δ → γ} {items : List α}
    {items' : List δ} (h : List.Forall₂ (fun a b => key a = key' b ∧ S (value a) (value' b)) items items') :
    List.Forall₂ (fun p q => p.1 = q.1 ∧ S p.2 q.2) (collect key value items) (collect key' value' items') := by
  suffices hall : ∀ l m, List.Forall₂ (fun p q => p.1 = q.1 ∧ S p.2 q.2) l m →
      List.Forall₂ (fun p q => p.1 = q.1 ∧ S p.2 q.2) (items.foldl (fun dict a => assign (key a) (value a) dict) l)
        (items'.foldl (fun dict a => assign (key' a) (value' a) dict) m) from hall [] [] .nil
  induction h with
  | nil => exact fun _ _ hlm => hlm
  | @cons a b items items' hab _ ih =>
    intro l m hlm
    rw [List.foldl_cons, List.foldl_cons, hab.1]
    exact ih _ _ (forall₂_assign hab.2 hlm)

theorem rel_lookup {l : List (String × β)} {m : List (String × γ)}
    (h : List.Forall₂ (fun p q => p.1 = q.1 ∧ S p.2 q.2) l m) (k : String) : Option.Rel S (l.lookup k) (m.lookup k) := by
  induction h with
  | nil => exact .none
  | @cons p q l m hpq _ ih =>
    obtain ⟨j, a⟩ := p
    obtain ⟨i, b⟩ := q
    obtain ⟨rfl, hab⟩ : j = i ∧ S a b := hpq
    by_cases hk : k = j
    · subst hk
      rw [List.lookup_cons_self, List.lookup_cons_self]
      exact .some hab
    · rw [List.lookup_cons, List.lookup_cons, beq_false_of_ne hk]
      exact ih

end Forall₂
end Memorai.Dict
