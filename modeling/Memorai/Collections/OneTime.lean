import Mathlib.Logic.Function.Basic
import Mathlib.Order.Lattice

/-! Entries that are taken once, and only before their deadline. -/
namespace Memorai.OneTime

/-- What there is to be taken, by key. -/
abbrev Entries (K V : Type) := K → Option V

section Operations
variable {K V : Type} [DecidableEq K]

def insert (key : K) (value : V) (entries : Entries K V) : Entries K V := Function.update entries key (some value)

def remove (key : K) (entries : Entries K V) : Entries K V := Function.update entries key none

def retain (keep : V → Bool) (entries : Entries K V) : Entries K V := fun key => (entries key).filter keep

variable {key k : K} {value : V} {entries : Entries K V}

@[simp] theorem insert_self : insert key value entries key = some value := Function.update_self ..

theorem insert_of_ne (h : k ≠ key) : insert key value entries k = entries k := Function.update_of_ne h ..

@[simp] theorem remove_self : remove key entries key = none := Function.update_self ..

theorem remove_of_ne (h : k ≠ key) : remove key entries k = entries k := Function.update_of_ne h ..

end Operations

section Deadlines
variable {K V T : Type} [LinearOrder T] (deadline : V → T) (now : T)

/-- Not too late to be taken. -/
def live (value : V) : Bool := decide (now < deadline value)

/-- The entries are values that were put in and not asked for since. None is missing before its deadline. -/
structure Kept (entries : Entries K V) (given : List (K × V)) (asked : List K) : Prop where
  once : ∀ {key value}, entries key = some value → (key, value) ∈ given ∧ key ∉ asked
  there : ∀ {key value}, (key, value) ∈ given → key ∉ asked → now < deadline value → entries key = some value

end Deadlines

namespace Kept
variable {K V T : Type} [LinearOrder T] {deadline : V → T} {now : T} {entries : Entries K V} {given : List (K × V)}
  {asked : List K}

theorem empty : Kept deadline now (fun _ : K => none) [] [] where
  once := fun h => absurd h (by simp)
  there := fun h => absurd h List.not_mem_nil

theorem later {now' : T} (h : Kept deadline now entries given asked) (hle : now ≤ now') :
    Kept deadline now' entries given asked where
  once := h.once
  there := fun hgiven hasked hlt => h.there hgiven hasked (lt_of_le_of_lt hle hlt)

/-- Dropping what is too late loses nothing that could still be taken. -/
theorem retain (h : Kept deadline now entries given asked) :
    Kept deadline now (retain (live deadline now) entries) given asked where
  once := fun hk => h.once (Option.filter_eq_some_iff.mp hk).1
  there := fun hgiven hasked hlt =>
    Option.filter_eq_some_iff.mpr ⟨h.there hgiven hasked hlt, decide_eq_true hlt⟩

/-- A value is found, in time, exactly if it was put in, is asked for the first time, and is not too late. -/
theorem found_iff (h : Kept deadline now entries given asked) (key : K) (value : V) :
    entries key = some value ∧ now < deadline value ↔ (key, value) ∈ given ∧ key ∉ asked ∧ now < deadline value := by
  constructor
  · rintro ⟨hentry, hlt⟩
    obtain ⟨hgiven, hasked⟩ := h.once hentry
    exact ⟨hgiven, hasked, hlt⟩
  · rintro ⟨hgiven, hasked, hlt⟩
    exact ⟨h.there hgiven hasked hlt, hlt⟩

variable [DecidableEq K] {key : K}

theorem insert (h : Kept deadline now entries given asked) (value : V) (hnew : ∀ v, (key, v) ∉ given) (hasked : key ∉ asked) :
    Kept deadline now (insert key value entries) ((key, value) :: given) asked where
  once := by
    intro k v hk
    by_cases heq : k = key
    · subst heq
      rw [insert_self] at hk
      obtain rfl := Option.some.inj hk
      exact ⟨List.mem_cons_self, hasked⟩
    · rw [insert_of_ne heq] at hk
      obtain ⟨hgiven, hk⟩ := h.once hk
      exact ⟨List.mem_cons_of_mem _ hgiven, hk⟩
  there := by
    intro k v hgiven hk hlt
    rcases List.mem_cons.mp hgiven with hval | hold
    · obtain ⟨rfl, rfl⟩ := Prod.mk.inj hval
      exact insert_self
    · have hne : k ≠ key := by
        rintro rfl
        exact hnew v hold
      rw [insert_of_ne hne]
      exact h.there hold hk hlt

/-- A key that was asked for is gone, whatever was found under it. -/
theorem remove (h : Kept deadline now entries given asked) (key : K) :
    Kept deadline now (remove key entries) given (key :: asked) where
  once := by
    intro k v hk
    by_cases heq : k = key
    · subst heq
      rw [remove_self] at hk
      exact absurd hk (by simp)
    · rw [remove_of_ne heq] at hk
      obtain ⟨hgiven, hasked⟩ := h.once hk
      exact ⟨hgiven, List.not_mem_cons_of_ne_of_not_mem heq hasked⟩
  there := by
    intro k v hgiven hk hlt
    obtain ⟨hne, hasked⟩ := List.ne_and_not_mem_of_not_mem_cons hk
    rw [remove_of_ne hne]
    exact h.there hgiven hasked hlt

end Kept
end Memorai.OneTime
