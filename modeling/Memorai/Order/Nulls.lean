import Mathlib.Data.Prod.Lex
import Mathlib.Order.WithBot

/-! Missing values in conditions and in sort keys. A comparison with a missing value is neither true nor false, and in
ascending order missing values come last. -/
namespace Memorai.Order.Nulls

section Conditions
variable {α : Type}

def lt [LT α] [DecidableLT α] (a b : Option α) : Option Bool := a.bind (fun x => b.map (fun y => decide (x < y)))

def eq [DecidableEq α] (a b : Option α) : Option Bool := a.bind (fun x => b.map (fun y => decide (x = y)))

def isNull (a : Option α) : Option Bool := some a.isNone

def and : Option Bool → Option Bool → Option Bool
  | some false, _ => some false
  | _, some false => some false
  | some true, some true => some true
  | _, _ => none

def or : Option Bool → Option Bool → Option Bool
  | some true, _ => some true
  | _, some true => some true
  | some false, some false => some false
  | _, _ => none

@[simp] theorem lt_eq_true [LT α] [DecidableLT α] {a b : Option α} :
    lt a b = some true ↔ ∃ x, a = some x ∧ ∃ y, b = some y ∧ x < y := by
  cases a <;> cases b <;> simp [lt]

@[simp] theorem eq_eq_true [DecidableEq α] {a b : Option α} : eq a b = some true ↔ ∃ x, a = some x ∧ b = some x := by
  cases a <;> cases b <;> simp [eq, eq_comm]

@[simp] theorem isNull_eq_true {a : Option α} : isNull a = some true ↔ a = none := by simp [isNull]

@[simp] theorem and_eq_true {a b : Option Bool} : and a b = some true ↔ a = some true ∧ b = some true := by
  rcases a with _ | _ | _ <;> rcases b with _ | _ | _ <;> decide

@[simp] theorem or_eq_true {a b : Option Bool} : or a b = some true ↔ a = some true ∨ b = some true := by
  rcases a with _ | _ | _ <;> rcases b with _ | _ | _ <;> decide

end Conditions

section Keys
variable {α β : Type} [LinearOrder α] [LinearOrder β]

/-- In front of each other by the first key, missing ones last, and by the second where the first is the same. -/
def before (a b : Option α × β) : Prop :=
  match a.1, b.1 with
  | some x, some y => x < y ∨ x = y ∧ a.2 ≤ b.2
  | some _, none => True
  | none, some _ => False
  | none, none => a.2 ≤ b.2

instance : DecidableRel (before : Option α × β → Option α × β → Prop) := by
  rintro ⟨_ | x, b⟩ ⟨_ | y, d⟩ <;> simp only [before] <;> infer_instance

/-- The key as one of a linear order. -/
def sortKey (a : Option α × β) : WithTop α ×ₗ β := toLex ((a.1 : WithTop α), a.2)

theorem before_iff (a b : Option α × β) : before a b ↔ sortKey a ≤ sortKey b := by
  rw [sortKey, sortKey, Prod.Lex.toLex_le_toLex]
  obtain ⟨x | x, b'⟩ := a <;> obtain ⟨y | y, d⟩ := b
  · change b' ≤ d ↔ (⊤ : WithTop α) < ⊤ ∨ (⊤ : WithTop α) = ⊤ ∧ b' ≤ d
    simp
  · change False ↔ (⊤ : WithTop α) < (y : WithTop α) ∨ (⊤ : WithTop α) = (y : WithTop α) ∧ b' ≤ d
    simp
  · change True ↔ (x : WithTop α) < ⊤ ∨ (x : WithTop α) = ⊤ ∧ b' ≤ d
    simp
  · change x < y ∨ x = y ∧ b' ≤ d ↔ (x : WithTop α) < (y : WithTop α) ∨ (x : WithTop α) = (y : WithTop α) ∧ b' ≤ d
    simp

end Keys
end Memorai.Order.Nulls
