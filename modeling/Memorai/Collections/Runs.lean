import Mathlib.Data.List.Basic

/-! Steps taken one after the other, and what each of them has to meet in the state it starts from. -/
namespace Memorai.Runs
variable {σ κ : Type} (step : σ → κ → σ)

/-- The state after the steps. -/
def after (s : σ) (calls : List κ) : σ := calls.foldl step s

/-- Every step starts from a state where the condition holds of it. -/
def Every (C : κ → σ → Prop) : List κ → σ → Prop
  | [], _ => True
  | call :: calls, s => C call s ∧ Every C calls (step s call)

variable {step} {C J : κ → σ → Prop} {P : σ → Prop} {s : σ} {calls : List κ}

/-- Where one step keeps an invariant exactly under a condition, it holds after every number of steps exactly if each
step meets the condition. -/
theorem Every.prefixes_iff (hstep : ∀ call s, J call s → P s → (P (step s call) ↔ C call s)) (hj : Every step J calls s) (h : P s) :
    (∀ n, P (after step s (calls.take n))) ↔ Every step C calls s := by
  induction calls generalizing s with
  | nil =>
    refine ⟨fun _ => trivial, fun _ n => ?_⟩
    rw [List.take_nil]
    exact h
  | cons call calls ih =>
    obtain ⟨hcall, hcalls⟩ := hj
    constructor
    · intro hall
      have hnext : P (step s call) := hall 1
      exact ⟨(hstep call s hcall h).mp hnext, (ih hcalls hnext).mp (fun n => hall (n + 1))⟩
    · rintro ⟨hmeets, hrest⟩ n
      have hnext : P (step s call) := (hstep call s hcall h).mpr hmeets
      cases n with
      | zero => exact h
      | succ n => exact (ih hcalls hnext).mpr hrest n

theorem every_of_forall (h : ∀ call s, C call s) (calls : List κ) (s : σ) : Every step C calls s := by
  induction calls generalizing s with
  | nil => trivial
  | cons call calls ih => exact ⟨h call s, ih _⟩

end Memorai.Runs
