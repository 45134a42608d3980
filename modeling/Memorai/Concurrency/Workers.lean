import Memorai.Concurrency.Interleaving

/-! Workers that take up programs: however they are given out and dropped, the programs are taking turns. -/
namespace Memorai.Concurrency
variable {S C I W : Type} {A : C → Type}

section Turns
variable [DecidableEq I] (srv : Service S C A)

theorem interleave_concat (schedule : List I) (i : I) (s : S) (progs : I → Prog C A) :
    interleave srv (schedule ++ [i]) s progs = (interleave srv schedule s progs).step srv i := by
  rw [interleave, List.foldl_append, List.foldl_cons, List.foldl_nil, interleave]

theorem Config.progs_step_of_ne {cfg : Config S I C A} {i j : I} (h : j ≠ i) : (cfg.step srv i).progs j = cfg.progs j := by
  cases hprog : cfg.progs i with
  | done => rw [Config.step_of_done srv hprog]
  | call c k =>
    rw [Config.step_of_call srv hprog]
    exact Function.update_of_ne h _ _

/-- A program that had no turn yet is where it started. -/
theorem progs_of_not_mem {schedule : List I} {i : I} (h : i ∉ schedule) (s : S) (progs : I → Prog C A) :
    (interleave srv schedule s progs).progs i = progs i := by
  induction schedule using List.reverseRecOn with
  | nil => rfl
  | append_singleton schedule j ih =>
    rw [List.mem_append, not_or, List.mem_singleton] at h
    rw [interleave_concat, Config.progs_step_of_ne srv h.2, ih h.1]

end Turns

/-- Each worker is at the program it took up last, if it has not dropped it, and no two of them are at one program. -/
structure Hosted (workers : Config S W C A) (turns : Config S I C A) (task : W → Option I) : Prop where
  state : workers.state = turns.state
  progs : ∀ w, workers.progs w = (task w).elim .done turns.progs
  alone : ∀ w w' i, task w = some i → task w' = some i → w = w'

namespace Hosted
variable [DecidableEq W] {workers : Config S W C A} {turns : Config S I C A} {task : W → Option I}

theorem begin (h : Hosted workers turns task) (w : W) {i : I} (hfree : ∀ w', task w' ≠ some i) :
    Hosted { workers with progs := Function.update workers.progs w (turns.progs i) } turns (Function.update task w (some i)) := by
  refine ⟨h.state, fun w' => ?_, fun w₁ w₂ j h₁ h₂ => ?_⟩
  · dsimp only
    by_cases hw : w' = w
    · subst hw
      rw [Function.update_self, Function.update_self]
      rfl
    · rw [Function.update_of_ne hw, Function.update_of_ne hw]
      exact h.progs w'
  · by_cases hw₁ : w₁ = w
    · subst hw₁
      by_cases hw₂ : w₂ = w₁
      · exact hw₂.symm
      · rw [Function.update_self] at h₁
        rw [Function.update_of_ne hw₂] at h₂
        exact absurd (h₂.trans h₁.symm) (hfree w₂)
    · rw [Function.update_of_ne hw₁] at h₁
      by_cases hw₂ : w₂ = w
      · subst hw₂
        rw [Function.update_self] at h₂
        exact absurd (h₁.trans h₂.symm) (hfree w₁)
      · rw [Function.update_of_ne hw₂] at h₂
        exact h.alone w₁ w₂ j h₁ h₂

theorem drop (h : Hosted workers turns task) (w : W) :
    Hosted { workers with progs := Function.update workers.progs w .done } turns (Function.update task w none) := by
  have hkept : ∀ w' i, Function.update task w none w' = some i → task w' = some i := by
    intro w' i hi
    by_cases hw : w' = w
    · subst hw
      rw [Function.update_self] at hi
      exact absurd hi (by simp)
    · rwa [Function.update_of_ne hw] at hi
  refine ⟨h.state, fun w' => ?_, fun w₁ w₂ i h₁ h₂ => h.alone w₁ w₂ i (hkept w₁ i h₁) (hkept w₂ i h₂)⟩
  dsimp only
  by_cases hw : w' = w
  · subst hw
    rw [Function.update_self, Function.update_self]
    rfl
  · rw [Function.update_of_ne hw, Function.update_of_ne hw]
    exact h.progs w'

/-- A call of a worker is a turn of its program. -/
theorem step [DecidableEq I] (srv : Service S C A) (h : Hosted workers turns task) (w : W) :
    Hosted (workers.step srv w) ((task w).toList.foldl (Config.step srv) turns) task := by
  have hprog := h.progs w
  cases htask : task w with
  | none =>
    rw [htask] at hprog
    rw [Config.step_of_done srv hprog]
    exact h
  | some i =>
    rw [htask] at hprog
    rw [Option.toList_some, List.foldl_cons, List.foldl_nil]
    cases hturn : turns.progs i with
    | done =>
      rw [Config.step_of_done srv hturn, Config.step_of_done srv (hprog.trans hturn)]
      exact h
    | call c k =>
      rw [Config.step_of_call srv hturn, Config.step_of_call srv (hprog.trans hturn), h.state]
      refine ⟨rfl, fun w' => ?_, h.alone⟩
      dsimp only
      by_cases hw : w' = w
      · subst hw
        rw [Function.update_self, htask, Option.elim_some, Function.update_self]
      · rw [Function.update_of_ne hw, h.progs w']
        cases htask' : task w' with
        | none => rfl
        | some j =>
          have hji : j ≠ i := by
            rintro rfl
            exact hw (h.alone w' w j htask' htask)
          rw [Option.elim_some, Option.elim_some, Function.update_of_ne hji]

end Hosted

end Memorai.Concurrency
