import Mathlib.Data.List.Basic
import Mathlib.Order.Lattice

/-! Items by descending score, the best few of them, and the best few among the best. -/
namespace Memorai.Order
variable {α S : Type} [LinearOrder S] {score : α → S} {items : List α}

/-- The items from the highest score down. Which of two with one score comes first is left open. -/
structure Ranked {α S : Type} [LinearOrder S] (score : α → S) (items : List α) where
  order : List α
  perm : order.Perm items
  descending : order.Pairwise (fun a b => score b ≤ score a)

namespace Ranked

def best (ranked : Ranked score items) (k : Nat) : List α := ranked.order.take k

/-- Some of the items, in the order they were in. -/
def filter (ranked : Ranked score items) (p : α → Bool) : Ranked score (items.filter p) where
  order := ranked.order.filter p
  perm := ranked.perm.filter p
  descending := ranked.descending.filter p

theorem length_best (ranked : Ranked score items) (k : Nat) : (ranked.best k).length = min k items.length := by
  rw [best, List.length_take, ranked.perm.length_eq]

end Ranked

section Cut
variable {p : α → Bool}

/-- What is kept of a list that was cut off is the start of what is kept of it all. -/
theorem filter_take_initial (l : List α) (m : Nat) : (l.take m).filter p <+: l.filter p := (List.take_prefix m l).filter p

/-- A cut loses none of the first `k` kept exactly when each of these stands in front of it. -/
theorem take_filter_take_iff (l : List α) (m k : Nat) : ((l.take m).filter p).take k = (l.filter p).take k ↔
    ∀ pre a post, l = pre ++ a :: post → p a → (pre.filter p).length < k → pre.length < m := by
  have hsplit : l.filter p = (l.take m).filter p ++ (l.drop m).filter p := by
    rw [← List.filter_append, List.take_append_drop]
  constructor
  · rintro h pre a post rfl ha hk
    by_contra hm
    have htake : (pre ++ a :: post).take m = pre.take m := List.take_append_of_le_length (by omega)
    have hshort : ((pre.take m).filter p).length ≤ (pre.filter p).length := (filter_take_initial pre m).length_le
    have hlen := congrArg List.length h
    rw [htake, List.length_take, List.length_take, List.filter_append, List.filter_cons_of_pos ha, List.length_append,
      List.length_cons] at hlen
    omega
  · intro h
    rw [hsplit]
    by_cases hk : k ≤ ((l.take m).filter p).length
    · exact (List.take_append_of_le_length hk).symm
    · -- The first one kept behind the cut would have to stand in front of it.
      have hnone : (l.drop m).filter p = [] := by
        by_contra hne
        obtain ⟨a, hfind⟩ := List.exists_mem_of_ne_nil _ hne
        obtain ⟨x, hx⟩ := Option.isSome_iff_exists.mp
          (List.find?_isSome.mpr ⟨a, (List.mem_filter.mp hfind).1, (List.mem_filter.mp hfind).2⟩)
        obtain ⟨hpx, pre, post, hdrop, hpre⟩ := List.find?_eq_some_iff_append.mp hx
        have hl : l = (l.take m ++ pre) ++ x :: post := by rw [List.append_assoc, ← hdrop, List.take_append_drop]
        have hfree : pre.filter p = [] := List.filter_eq_nil_iff.mpr (fun b hb => by simpa using hpre b hb)
        have hlt := h _ x post hl hpx (by rw [List.filter_append, hfree, List.append_nil]; omega)
        have hdroplen : 0 < (l.drop m).length := by rw [hdrop, List.length_append, List.length_cons]; omega
        rw [List.length_append, List.length_take] at hlt
        rw [List.length_drop] at hdroplen
        omega
      rw [hnone, List.append_nil]

/-- What is kept in front of a cut are the best few of a ranking of all that could be kept exactly when the cut
loses none of these. -/
theorem exists_best_iff (ranked : Ranked score items) (m k : Nat) :
    (∃ alone : Ranked score (items.filter p), ((ranked.order.take m).filter p).take k = alone.best k) ↔
      ((ranked.order.take m).filter p).take k = (ranked.order.filter p).take k := by
  constructor
  · rintro ⟨alone, h⟩
    have hprefix : ((ranked.order.take m).filter p).take k <+: (ranked.order.filter p).take k :=
      List.prefix_take_iff.mpr ⟨(List.take_prefix k _).trans (filter_take_initial ranked.order m), List.length_take_le ..⟩
    apply hprefix.eq_of_length
    rw [h, alone.length_best, ← (ranked.filter p).length_best]
    rfl
  · intro h
    exact ⟨ranked.filter p, h⟩

end Cut
end Memorai.Order
