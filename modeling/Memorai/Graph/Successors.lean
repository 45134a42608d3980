import Mathlib.Data.List.Chain
import Mathlib.Data.List.Nodup
import Mathlib.Logic.Relation

/-! Going from successor to successor, through finitely many elements, until there is no new one. -/
namespace Memorai.Graph

variable {α : Type} [DecidableEq α]

def others (l : List α) (a : α) : List α := l.filter (· ≠ a)

theorem mem_others {l : List α} {a b : α} : b ∈ others l a ↔ b ∈ l ∧ b ≠ a := by
  simp [others]

theorem length_others_lt {l : List α} {a : α} (h : a ∈ l) : (others l a).length < l.length := by
  rw [others, List.length_filter_lt_length_iff_exists]
  exact ⟨a, h, by simp⟩

/-- The elements met from `a` on, as long as they are unseen. -/
def way (next : α → Option α) (unseen : List α) (a : α) : List α :=
  if a ∈ unseen then
    a ::
      match next a with
      | some b => way next (others unseen a) b
      | none => []
  else []
termination_by unseen.length
decreasing_by exact length_others_lt ‹_›

section Way
variable {next : α → Option α} {unseen : List α} {a b c : α}

theorem way_of_mem (h : a ∈ unseen) :
    way next unseen a = a :: (next a).elim [] (way next (others unseen a)) := by
  rw [way, if_pos h]
  cases next a <;> rfl

theorem way_of_not_mem (h : a ∉ unseen) : way next unseen a = [] := by
  rw [way, if_neg h]

theorem head?_way (h : a ∈ unseen) : (way next unseen a).head? = some a := by
  rw [way_of_mem h, List.head?_cons]

theorem mem_unseen_of_mem_way (h : b ∈ way next unseen a) : b ∈ unseen := by
  induction unseen, a using way.induct with
  | case1 unseen a ha ih =>
    rw [way_of_mem ha] at h
    cases hnext : next a with
    | none =>
      rw [hnext] at h
      exact List.mem_singleton.mp h ▸ ha
    | some c =>
      rw [hnext] at h
      rcases List.mem_cons.mp h with rfl | h
      · exact ha
      · exact (mem_others.mp (ih c h)).1
  | case2 unseen a ha =>
    rw [way_of_not_mem ha] at h
    exact absurd h List.not_mem_nil

theorem nodup_way : (way next unseen a).Nodup := by
  induction unseen, a using way.induct with
  | case1 unseen a ha ih =>
    rw [way_of_mem ha]
    cases hnext : next a with
    | none => exact List.nodup_singleton a
    | some c =>
      refine List.nodup_cons.mpr ⟨fun hback => ?_, ih c⟩
      exact (mem_others.mp (mem_unseen_of_mem_way hback)).2 rfl
  | case2 unseen a ha =>
    rw [way_of_not_mem ha]
    exact List.nodup_nil

theorem isChain_way : (way next unseen a).IsChain (fun b c => next b = some c) := by
  induction unseen, a using way.induct with
  | case1 unseen a ha ih =>
    rw [way_of_mem ha]
    cases hnext : next a with
    | none => exact List.isChain_singleton a
    | some b =>
      refine (ih b).cons (fun c hc => ?_)
      by_cases hb : b ∈ others unseen a
      · rw [head?_way hb] at hc
        rw [hnext, Option.mem_some_iff.mp hc]
      · rw [way_of_not_mem hb] at hc
        exact absurd hc (by simp)
  | case2 unseen a ha =>
    rw [way_of_not_mem ha]
    exact List.isChain_nil

theorem next_of_way_eq {pre post : List α} (h : way next unseen a = pre ++ b :: c :: post) : next b = some c := by
  have hchain : (pre ++ b :: c :: post).IsChain (fun b c => next b = some c) := h ▸ isChain_way
  exact (List.isChain_cons_cons.mp hchain.right_of_append).1

/-- Where it ends, the next one was met already, or is not one of the elements. -/
theorem next_of_getLast?_way (h : (way next unseen a).getLast? = some b) (hc : next b = some c) :
    c ∈ way next unseen a ∨ c ∉ unseen := by
  induction unseen, a using way.induct with
  | case1 unseen a ha ih =>
    rw [way_of_mem ha] at h ⊢
    cases hnext : next a with
    | none =>
      rw [hnext] at h
      obtain rfl := List.mem_singleton.mp (List.mem_of_getLast? h)
      exact absurd hc (by simp [hnext])
    | some d =>
      rw [hnext] at h
      dsimp only [Option.elim_some] at h ⊢
      by_cases hd : d ∈ others unseen a
      · have hlast : (way next (others unseen a) d).getLast? = some b := by
          rwa [way_of_mem hd, List.getLast?_cons_cons, ← way_of_mem hd] at h
        rcases ih d hlast with hmet | hout
        · exact .inl (List.mem_cons_of_mem _ hmet)
        · by_cases hca : c = a
          · exact .inl (hca ▸ List.mem_cons_self)
          · exact .inr (fun hin => hout (mem_others.mpr ⟨hin, hca⟩))
      · rw [way_of_not_mem hd] at h ⊢
        obtain rfl := List.mem_singleton.mp (List.mem_of_getLast? h)
        obtain rfl := Option.some.inj (hnext.symm.trans hc)
        by_cases hda : d = b
        · exact .inl (hda ▸ List.mem_cons_self)
        · exact .inr (fun hin => hd (mem_others.mpr ⟨hin, hda⟩))
  | case2 unseen a ha =>
    rw [way_of_not_mem ha] at h
    exact absurd h (by simp)

/-- It meets whatever can be reached within the elements. -/
theorem mem_way_iff : b ∈ way next unseen a ↔
    a ∈ unseen ∧ Relation.ReflTransGen (fun b c => next b = some c ∧ c ∈ unseen) a b := by
  constructor
  · intro h
    have ha : a ∈ unseen := by
      by_contra ha
      rw [way_of_not_mem ha] at h
      exact absurd h List.not_mem_nil
    refine ⟨ha, ?_⟩
    obtain ⟨l, hl⟩ : ∃ l, way next unseen a = a :: l := ⟨_, way_of_mem ha⟩
    have hchain : (a :: l).IsChain (fun b c => next b = some c ∧ c ∈ unseen) := by
      rw [← hl]
      exact isChain_way.imp_of_mem_tail_imp (fun b c _ hc hbc => ⟨hbc, mem_unseen_of_mem_way (List.mem_of_mem_tail hc)⟩)
    rw [hl] at h
    exact hchain.induction _ _ (fun _ _ hbc hb => hb.tail hbc) (fun _ => .refl) b h
  · rintro ⟨ha, hreach⟩
    induction hreach with
    | refl => exact List.mem_of_head? (head?_way ha)
    | @tail b c _ hstep ih =>
      obtain ⟨pre, post, hsplit⟩ := List.append_of_mem ih
      cases post with
      | nil =>
        have hlast : (way next unseen a).getLast? = some b := by rw [hsplit, List.getLast?_concat]
        exact (next_of_getLast?_way hlast hstep.1).resolve_right (not_not.mpr hstep.2)
      | cons d post =>
        have hbd := next_of_way_eq hsplit
        obtain rfl := Option.some.inj (hbd.symm.trans hstep.1)
        rw [hsplit]
        simp

/-- With one predecessor at most for every element, and none for the first, it ends where there is no next one. -/
theorem next_of_getLast?_way_of_tree (hinj : ∀ b c d, next b = some d → next c = some d → b = c) (hfirst : ∀ b, next b ≠ some a)
    (hin : ∀ b ∈ unseen, ∀ c, next b = some c → c ∈ unseen) (h : (way next unseen a).getLast? = some b) : next b = none := by
  rw [Option.eq_none_iff_forall_ne_some]
  intro c hc
  have hb : b ∈ unseen := mem_unseen_of_mem_way (List.mem_of_getLast? h)
  have hmet : c ∈ way next unseen a := (next_of_getLast?_way h hc).resolve_right (not_not.mpr (hin b hb c hc))
  obtain ⟨pre, post, hsplit⟩ := List.append_of_mem hmet
  rcases List.eq_nil_or_concat' pre with rfl | ⟨pre, d, rfl⟩
  · have ha : a ∈ unseen := (mem_way_iff.mp hmet).1
    have hhead : (way next unseen a).head? = some a := head?_way ha
    rw [hsplit, List.nil_append, List.head?_cons] at hhead
    exact hfirst b (hc.trans hhead)
  · rw [List.append_assoc, List.singleton_append] at hsplit
    obtain rfl := hinj b d c hc (next_of_way_eq hsplit)
    have hlast : b ∈ c :: post := by
      rw [hsplit, List.getLast?_append_cons, List.getLast?_cons_cons] at h
      exact List.mem_of_getLast? h
    have hnodup : (way next unseen a).Nodup := nodup_way
    rw [hsplit] at hnodup
    exact absurd hlast (List.nodup_cons.mp (List.nodup_append.mp hnodup).2.1).1

end Way
end Memorai.Graph
