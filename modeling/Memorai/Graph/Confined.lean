import Memorai.Graph.Paths

/-! Trails over the edges of a region: those that keep to it, and all of them where no edge leaves it. -/
namespace Memorai.Graph
variable {K R : Type} [DecidableEq K] {edges : List (K × R × K)} {keep : K → Bool} {n : Nat} {j : K}

private theorem flatMap_filter_eq {α β : Type} {p : α → Bool} {f g : α → List β} {l : List α}
    (hkept : ∀ a ∈ l, p a → f a = g a) (hleft : ∀ a ∈ l, ¬ p a → g a = []) : (l.filter p).flatMap f = l.flatMap g := by
  induction l with
  | nil => rfl
  | cons a l ih =>
    have htail := ih (fun b hb => hkept b (List.mem_cons_of_mem _ hb)) (fun b hb => hleft b (List.mem_cons_of_mem _ hb))
    by_cases hp : p a
    · rw [List.filter_cons_of_pos hp, List.flatMap_cons, List.flatMap_cons, htail, hkept a List.mem_cons_self hp]
    · rw [List.filter_cons_of_neg hp, List.flatMap_cons, htail, hleft a List.mem_cons_self hp, List.nil_append]

/-- An edge from a kept node is kept with the node it leads to. -/
private theorem keep_across {e : K × R × K} {k : K} (hj : keep j) (h : across e j = some k) : (keep e.1 ∧ keep e.2.2) ↔ keep k := by
  rcases across_eq_some_iff.mp h with he | he
  · rw [he]
    exact and_iff_right hj
  · rw [he]
    exact and_iff_left hj

variable [DecidableEq R]

private theorem filter_ne_comm (e : K × R × K) : (edges.filter (fun e => keep e.1 ∧ keep e.2.2)).filter (· ≠ e) =
    (edges.filter (· ≠ e)).filter (fun e => keep e.1 ∧ keep e.2.2) := List.filter_comm ..

/-- The trails over the edges of the region are the trails that keep to it, in the same order. -/
theorem trails_filter (hj : keep j) : trails n (edges.filter (fun e => keep e.1 ∧ keep e.2.2)) j =
    (trails n edges j).filter (fun p => p.nodes.all keep) := by
  induction n generalizing edges j with
  | zero =>
    symm
    refine List.filter_eq_self.mpr (fun p hp => ?_)
    rw [List.mem_singleton.mp hp]
    simpa [Path.nodes] using hj
  | succ n ih =>
    simp only [trails, List.filter_flatMap]
    have hnone : ∀ {e : K × R × K} {k}, ¬ keep k →
        ((trails n (edges.filter (· ≠ e)) k).map (Path.cons e j)).filter (fun p => p.nodes.all keep) = [] := by
      intro e k hk
      refine List.filter_eq_nil_iff.mpr (fun p hp hall => ?_)
      obtain ⟨q, hq, rfl⟩ := List.mem_map.mp hp
      rw [Path.nodes_cons, List.all_cons, Bool.and_eq_true, List.all_eq_true] at hall
      exact hk (start_of_mem_trails hq ▸ hall.2 _ List.mem_cons_self)
    refine flatMap_filter_eq (fun e _ hkept => ?_) (fun e _ hleft => ?_)
    · cases hk : across e j with
      | none => rfl
      | some k =>
        have hkeep : keep k := (keep_across hj hk).mp (of_decide_eq_true hkept)
        have hcons : ((fun p : Path K R => p.nodes.all keep) ∘ Path.cons e j) = fun q => q.nodes.all keep := by
          funext q
          simp [hj]
        simp only [Option.toList_some, List.flatMap_cons, List.flatMap_nil, List.append_nil]
        rw [filter_ne_comm, ih hkeep, List.filter_map, hcons]
    · cases hk : across e j with
      | none => rfl
      | some k =>
        have hkeep : ¬ keep k := fun h => hleft (decide_eq_true ((keep_across hj hk).mpr h))
        simp only [Option.toList_some, List.flatMap_cons, List.flatMap_nil, List.append_nil]
        exact hnone hkeep

/-- Where no edge leaves the region, its own edges lead from its nodes to wherever all edges do. -/
theorem trailEnds_filter (hclosed : ∀ e ∈ edges, keep e.1 = keep e.2.2) (hj : keep j) :
    trailEnds n (edges.filter (fun e => keep e.1 ∧ keep e.2.2)) j = trailEnds n edges j := by
  induction n generalizing edges j with
  | zero => rfl
  | succ n ih =>
    refine flatMap_filter_eq (fun e he hkept => ?_) (fun e he hleft => ?_)
    · cases hk : across e j with
      | none => rfl
      | some k =>
        have hkeep : keep k := (keep_across hj hk).mp (of_decide_eq_true hkept)
        have hrest : ∀ f ∈ edges.filter (· ≠ e), keep f.1 = keep f.2.2 := fun f hf => hclosed f (List.mem_filter.mp hf).1
        simp only [Option.toList_some, List.flatMap_cons, List.flatMap_nil, List.append_nil]
        rw [filter_ne_comm, ih hrest hkeep]
    · cases hk : across e j with
      | none => rfl
      | some k =>
        refine absurd (decide_eq_true ?_) hleft
        have hsame := hclosed e he
        rcases across_eq_some_iff.mp hk with heq | heq
        · rw [heq] at hsame ⊢
          exact ⟨hj, hsame ▸ hj⟩
        · rw [heq] at hsame ⊢
          exact ⟨hsame ▸ hj, hj⟩

end Memorai.Graph
