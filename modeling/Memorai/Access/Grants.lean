import Mathlib.Data.Set.Basic
import Mathlib.Order.WithBot

/-! Grants and the guarded objects they open. A bound that is not set bounds nothing. -/
namespace Memorai.Access
variable {ω α σ κ τ ℓ : Type*}

structure Grant (ω α σ κ τ ℓ : Type*) where
  owner : ω
  agent : α
  sources : Set σ
  kinds : Set κ
  notBefore : WithBot τ
  notAfter : WithTop τ
  ceiling : ℓ
  expiry : WithTop τ

structure Guard (ω α σ κ τ ℓ : Type*) where
  owner : ω
  sources : Set σ
  kinds : Set κ
  occurred : τ
  denied : Set α
  level : ℓ

/-- Something to cover, and all of it covered. -/
def Covers {β : Type*} (granted needed : Set β) : Prop := needed.Nonempty ∧ needed ⊆ granted

theorem Covers.mono {β : Type*} {granted wider needed fewer : Set β} (h : Covers granted needed) (hgranted : granted ⊆ wider)
    (hfewer : Covers needed fewer) : Covers wider fewer :=
  ⟨hfewer.1, hfewer.2.trans (h.2.trans hgranted)⟩

variable [Preorder τ] [Preorder ℓ]

structure Grant.Opens (grant : Grant ω α σ κ τ ℓ) (guard : Guard ω α σ κ τ ℓ) (now : τ) : Prop where
  owner : grant.owner = guard.owner
  live : (now : WithTop τ) < grant.expiry
  agent : grant.agent ∉ guard.denied
  sources : Covers grant.sources guard.sources
  kinds : Covers grant.kinds guard.kinds
  begun : grant.notBefore ≤ guard.occurred
  ended : (guard.occurred : WithTop τ) ≤ grant.notAfter
  level : guard.level ≤ grant.ceiling

/-- At most what the other one grants, to the same agent by the same owner. -/
structure Grant.Narrows (narrow wide : Grant ω α σ κ τ ℓ) : Prop where
  owner : narrow.owner = wide.owner
  agent : narrow.agent = wide.agent
  sources : narrow.sources ⊆ wide.sources
  kinds : narrow.kinds ⊆ wide.kinds
  notBefore : wide.notBefore ≤ narrow.notBefore
  notAfter : narrow.notAfter ≤ wide.notAfter
  ceiling : narrow.ceiling ≤ wide.ceiling
  expiry : narrow.expiry ≤ wide.expiry

/-- At least as well guarded as the other one, which draws on something. -/
structure Guard.Tightens (tight loose : Guard ω α σ κ τ ℓ) : Prop where
  owner : tight.owner = loose.owner
  sources : Covers tight.sources loose.sources
  kinds : Covers tight.kinds loose.kinds
  occurred : tight.occurred = loose.occurred
  denied : loose.denied ⊆ tight.denied
  level : loose.level ≤ tight.level

/-- What a narrower grant opens of a tighter guard later on, the wider one opens of the looser guard now. -/
theorem Grant.Opens.mono {narrow wide : Grant ω α σ κ τ ℓ} {tight loose : Guard ω α σ κ τ ℓ} {now later : τ}
    (h : narrow.Opens tight later) (hgrant : narrow.Narrows wide) (hguard : tight.Tightens loose) (htime : now ≤ later) :
    wide.Opens loose now where
  owner := by rw [← hgrant.owner, ← hguard.owner, h.owner]
  live := calc
    (now : WithTop τ) ≤ later := WithTop.coe_le_coe.mpr htime
    _ < narrow.expiry := h.live
    _ ≤ wide.expiry := hgrant.expiry
  agent := fun hdenied => h.agent (hgrant.agent ▸ hguard.denied hdenied)
  sources := h.sources.mono hgrant.sources hguard.sources
  kinds := h.kinds.mono hgrant.kinds hguard.kinds
  begun := hguard.occurred ▸ hgrant.notBefore.trans h.begun
  ended := hguard.occurred ▸ h.ended.trans hgrant.notAfter
  level := hguard.level.trans (h.level.trans hgrant.ceiling)

section Bounds
variable {bound : Option τ} {time : τ}

def lower (bound : Option τ) : WithBot τ := bound.elim ⊥ WithBot.some

def upper (bound : Option τ) : WithTop τ := bound.elim ⊤ WithTop.some

theorem lower_le_iff : lower bound ≤ (time : WithBot τ) ↔ ∀ start ∈ bound, start ≤ time := by
  cases bound <;> simp [lower]

theorem le_upper_iff : (time : WithTop τ) ≤ upper bound ↔ ∀ stop ∈ bound, time ≤ stop := by
  cases bound <;> simp [upper]

theorem lt_upper_iff : (time : WithTop τ) < upper bound ↔ ∀ expiry ∈ bound, time < expiry := by
  cases bound <;> simp [upper]

end Bounds

theorem covers_mem_iff {β : Type*} {granted needed : List β} :
    Covers {x | x ∈ granted} {x | x ∈ needed} ↔ needed ≠ [] ∧ ∀ x ∈ needed, x ∈ granted := by
  rw [ne_eq, List.eq_nil_iff_forall_not_mem, not_forall_not]
  rfl

end Memorai.Access
