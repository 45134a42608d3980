import Mathlib.Data.List.Chain

/-! Elements packed into groups, in order. An element begins a new group if it does not fit into the one before. -/
namespace Memorai.Packing

variable {α : Type} (fits : List α → Bool)

/-- What comes of a group that is not closed yet, and of the elements after it. -/
def packOnto : List α → List α → List (List α)
  | group, [] => if group = [] then [] else [group]
  | group, a :: l =>
    if group ≠ [] ∧ fits (group ++ [a]) = false then group :: packOnto [a] l else packOnto (group ++ [a]) l

def pack (l : List α) : List (List α) := packOnto fits [] l

/-- The groups are the elements in order. Each of them fits, if it is not of one element, and has no room for the next. -/
structure Packed (l : List α) (groups : List (List α)) : Prop where
  flatten : groups.flatten = l
  nonempty : ∀ group ∈ groups, group ≠ []
  fit : ∀ group ∈ groups, fits group = true ∨ ∃ a, group = [a]
  full : groups.IsChain (fun group next => ∀ a ∈ next.head?, fits (group ++ [a]) = false)

variable {group : List α}

theorem head_packOnto (l : List α) (h : group ≠ []) : ∃ first rest, packOnto fits group l = first :: rest ∧ group <+: first := by
  induction l generalizing group with
  | nil => exact ⟨group, [], by rw [packOnto, if_neg h], List.prefix_rfl⟩
  | cons a l ih =>
    rw [packOnto]
    split_ifs
    · exact ⟨group, _, rfl, List.prefix_rfl⟩
    · have hne : group ++ [a] ≠ [] := by simp
      obtain ⟨first, rest, heq, hprefix⟩ := ih hne
      exact ⟨first, rest, heq, (List.prefix_append group [a]).trans hprefix⟩

variable {fits} {l : List α}

/-- An open group that fits, or is of one element at most, is packed on with the elements after it. -/
theorem packed_packOnto (h : group = [] ∨ fits group = true ∨ ∃ a, group = [a]) :
    Packed fits (group ++ l) (packOnto fits group l) := by
  induction l generalizing group with
  | nil =>
    rw [packOnto]
    split_ifs with hgroup
    · exact ⟨by simp [hgroup], by simp, by simp, List.isChain_nil⟩
    · refine ⟨by simp, by simpa using hgroup, ?_, List.isChain_singleton _⟩
      intro group' hmem
      obtain rfl := List.mem_singleton.mp hmem
      exact h.resolve_left hgroup
  | cons a l ih =>
    rw [packOnto]
    split_ifs with hfull
    · have hrest : Packed fits ([a] ++ l) (packOnto fits [a] l) := ih (.inr (.inr ⟨a, rfl⟩))
      obtain ⟨first, rest, hfirst, b, hb⟩ := head_packOnto fits l (List.cons_ne_nil a [])
      refine ⟨?_, ?_, ?_, ?_⟩
      · rw [List.flatten_cons, hrest.flatten, List.singleton_append]
      · exact List.forall_mem_cons.mpr ⟨hfull.1, hrest.nonempty⟩
      · exact List.forall_mem_cons.mpr ⟨h.resolve_left hfull.1, hrest.fit⟩
      · refine hrest.full.cons (fun next hnext => ?_)
        rw [hfirst, List.head?_cons, Option.mem_some_iff] at hnext
        subst hnext
        intro c hc
        rw [← hb, List.singleton_append, List.head?_cons, Option.mem_some_iff] at hc
        exact hc ▸ hfull.2
    · have hnext : group ++ [a] = [] ∨ fits (group ++ [a]) = true ∨ ∃ b, group ++ [a] = [b] := by
        by_cases hgroup : group = []
        · exact .inr (.inr ⟨a, by rw [hgroup, List.nil_append]⟩)
        · exact .inr (.inl (by simpa [hgroup] using hfull))
      have hrest := ih hnext
      rwa [List.append_assoc, List.singleton_append] at hrest

theorem packed_pack (fits : List α → Bool) (l : List α) : Packed fits l (pack fits l) := packed_packOnto (.inl rfl)

end Memorai.Packing
