import Memorai.Ingestion.Pipeline
import Memorai.Order.LastWrite
import Memorai.Resolution.PendingLaws

/-! Resolution of one claim, under every order in which the database may return the stored claims about its subjects. -/
namespace Memorai.Ingestion
open Schema Memorai.Graph Storage Resolver
open Memorai.Order

/-- What a comparison writes as the status of the claim, if anything. -/
def ruling (claim other : Claim) : Option ClaimStatus :=
  if Rival claim other then
    if other.assertedAtMs = claim.assertedAtMs then some .contradicted
    else if claim.assertedAtMs < other.assertedAtMs then some .superseded
    else none
  else none

theorem verdict_eq (claim : Claim) (status : ClaimStatus) (other : Claim) :
    verdict claim status other = (ruling claim other).getD status := by
  unfold verdict ruling
  split_ifs <;> rfl

theorem status_settled_eq (claim : Claim) (existing : List Claim) :
    (settled claim existing).status = lastWrite (ruling claim) existing claim.status := by
  change existing.foldl (verdict claim) claim.status = existing.foldl (fun st other => (ruling claim other).getD st) claim.status
  congr 1
  funext st other
  exact verdict_eq claim st other

theorem ruling_eq_contradicted {claim other : Claim} :
    ruling claim other = some .contradicted ↔ Rival claim other ∧ other.assertedAtMs = claim.assertedAtMs := by
  unfold ruling
  split_ifs <;> simp_all

theorem ruling_eq_superseded {claim other : Claim} :
    ruling claim other = some .superseded ↔ Rival claim other ∧ claim.assertedAtMs < other.assertedAtMs := by
  unfold ruling
  split_ifs with hr ht
  · simp [ht]
  all_goals simp_all

theorem mem_contemporary_iff_ruling {claim other : Claim} {existing : List Claim} :
    other ∈ contemporary claim existing ↔ other ∈ existing ∧ ruling claim other = some .contradicted := by
  rw [mem_contemporary, ruling_eq_contradicted]

theorem mem_later_iff_ruling {claim other : Claim} {existing : List Claim} :
    other ∈ later claim existing ↔ other ∈ existing ∧ ruling claim other = some .superseded := by
  rw [mem_later, ruling_eq_superseded]

theorem ruling_cases {claim other : Claim} {status : ClaimStatus} (h : ruling claim other = some status) :
    status = .contradicted ∨ status = .superseded := by
  unfold ruling at h
  split_ifs at h
  · exact Or.inl (Option.some.inj h).symm
  · exact Or.inr (Option.some.inj h).symm

/-- Some comparison writes a status exactly if there is a live rival that is not earlier. -/
theorem exists_ruling_iff {claim : Claim} {existing : List Claim} :
    (∃ other ∈ existing, ruling claim other ≠ none) ↔ contemporary claim existing ++ later claim existing ≠ [] := by
  rw [ne_eq, List.eq_nil_iff_forall_not_mem, not_forall_not]
  refine exists_congr fun other => ?_
  rw [List.mem_append, mem_contemporary_iff_ruling, mem_later_iff_ruling, ← and_or_left, Option.ne_none_iff_exists']
  refine and_congr_right fun _ => ⟨?_, fun h => h.elim (⟨_, ·⟩) (⟨_, ·⟩)⟩
  rintro ⟨status, hstatus⟩
  rcases ruling_cases hstatus with rfl | rfl
  · exact Or.inl hstatus
  · exact Or.inr hstatus

theorem ruling_ne_superseded {claim a b : Claim} {existing : List Claim}
    (h : contemporary claim existing = [] ∨ later claim existing = []) (ha : a ∈ existing)
    (hruling : ruling claim a = some .contradicted) (hb : b ∈ existing) : ruling claim b ≠ some .superseded := by
  intro hsuperseded
  rcases h with h | h
  · exact absurd (mem_contemporary_iff_ruling.mpr ⟨ha, hruling⟩) (h ▸ List.not_mem_nil)
  · exact absurd (mem_later_iff_ruling.mpr ⟨hb, hsuperseded⟩) (h ▸ List.not_mem_nil)

/-- No two comparisons write different statuses exactly if one of the two kinds of rivals is missing. -/
theorem rulings_agree_iff {claim : Claim} {existing : List Claim} :
    (∀ a ∈ existing, ∀ b ∈ existing, ∀ u v, ruling claim a = some u → ruling claim b = some v → u = v) ↔
      contemporary claim existing = [] ∨ later claim existing = [] := by
  constructor
  · intro h
    by_contra hn
    rw [not_or] at hn
    obtain ⟨a, ha⟩ := List.exists_mem_of_ne_nil _ hn.1
    obtain ⟨b, hb⟩ := List.exists_mem_of_ne_nil _ hn.2
    rw [mem_contemporary_iff_ruling] at ha
    rw [mem_later_iff_ruling] at hb
    exact absurd (h a ha.1 b hb.1 _ _ ha.2 hb.2) (by decide)
  · intro h a ha b hb u v hu hv
    rcases ruling_cases hu with rfl | rfl <;> rcases ruling_cases hv with rfl | rfl
    · rfl
    · exact absurd hv (ruling_ne_superseded h ha hu hb)
    · exact absurd hu (ruling_ne_superseded h hb hv ha)
    · rfl

section Orders
variable (store : Store) (ownerId : String) (claim : Claim) (pending : List Claim)

/-- The claim a resolution of one claim counts as new, as the pending claims have it. -/
def newClaim (resolved : Resolution × List Claim) : Option Claim := resolved.1.newClaims.head?.bind (resolved.2[·]?)

/-- The same in everything but the order of the entries. -/
structure SameOutcome (a b : Resolution × List Claim) : Prop where
  status : (newClaim a).map Claim.status = (newClaim b).map Claim.status
  supersedes : Option.Rel List.Perm ((newClaim a).map Claim.supersedes) ((newClaim b).map Claim.supersedes)
  contradicts : Option.Rel List.Perm ((newClaim a).map Claim.contradicts) ((newClaim b).map Claim.contradicts)
  supersessions : a.1.supersessions.Perm b.1.supersessions
  contradictions : a.1.contradictions.Perm b.1.contradictions

def resolveOne (rows : RowOrder Claim) : Resolution × List Claim := resolve rows store ownerId { claims := [claim] } pending

variable {store ownerId claim pending}

theorem resolveOne_of_found (h : (store.get claim.id).isSome) (rows : RowOrder Claim) :
    resolveOne store ownerId claim pending rows = ({ duplicates := [claim.id] }, pending) := by
  simp [resolveOne, resolve, resolveClaim, ask, h]

theorem resolveOne_of_new (h : ¬ (store.get claim.id).isSome) (rows : RowOrder Claim) :
    resolveOne store ownerId claim pending rows =
      ({ newClaims := [pending.length]
         supersessions := supersededPairs claim (storedAbout rows store ownerId claim ++ pending)
         contradictions := contradictedPairs claim (storedAbout rows store ownerId claim ++ pending) },
        pending.map (fade claim) ++ [settled claim (storedAbout rows store ownerId claim ++ pending)]) := by
  have hfold : resolveOne store ownerId claim pending rows = _ := resolveAll_eq [ask rows store ownerId claim] pending
  rw [hfold]
  simp [resolutionOf, settleAll, settle, freshOf, collect, duplicatesOf, ask, h]

theorem newClaim_resolveOne (h : ¬ (store.get claim.id).isSome) (rows : RowOrder Claim) :
    newClaim (resolveOne store ownerId claim pending rows) =
      some (settled claim (storedAbout rows store ownerId claim ++ pending)) := by
  rw [resolveOne_of_new h]
  simp [newClaim]

/-- The references and the reports gather the stored claims one by one, in whatever order. -/
theorem sameOutcome_iff_status (h : ¬ (store.get claim.id).isSome) (rows rows' : RowOrder Claim) :
    SameOutcome (resolveOne store ownerId claim pending rows) (resolveOne store ownerId claim pending rows') ↔
      (settled claim (storedAbout rows store ownerId claim ++ pending)).status =
        (settled claim (storedAbout rows' store ownerId claim ++ pending)).status := by
  have hperm : (storedAbout rows store ownerId claim ++ pending).Perm (storedAbout rows' store ownerId claim ++ pending) :=
    ((rows.perm _).trans (rows'.perm _).symm).append_right pending
  constructor
  · intro hsame
    have hstatus := hsame.status
    rw [newClaim_resolveOne h, newClaim_resolveOne h] at hstatus
    exact Option.some.inj hstatus
  · intro hstatus
    have hpairs : ∀ p : Claim → Bool, ((storedAbout rows store ownerId claim ++ pending).filter p).Perm
        ((storedAbout rows' store ownerId claim ++ pending).filter p) := fun p => hperm.filter p
    refine ⟨?_, ?_, ?_, ?_, ?_⟩
    · rw [newClaim_resolveOne h, newClaim_resolveOne h]
      exact congrArg some hstatus
    · rw [newClaim_resolveOne h, newClaim_resolveOne h]
      exact .some (List.Perm.append_left _ ((hpairs _).map _))
    · rw [newClaim_resolveOne h, newClaim_resolveOne h]
      exact .some (List.Perm.append_left _ ((hpairs _).map _))
    · rw [resolveOne_of_new h, resolveOne_of_new h]
      exact hperm.flatMap_right _
    · rw [resolveOne_of_new h, resolveOne_of_new h]
      exact (hpairs _).map _

/-- The order that returns these rows like this, and others as they are. -/
def placing {rows placed : List Claim} (h : placed.Perm rows) : RowOrder Claim where
  order other := if other = rows then placed else other
  perm other := by
    split
    · rename_i hrows
      exact hrows ▸ h
    · exact .refl _

theorem forall_rows_iff (f : List Claim → ClaimStatus) :
    (∀ rows rows' : RowOrder Claim, f (storedAbout rows store ownerId claim) = f (storedAbout rows' store ownerId claim)) ↔
      ∀ l l' : List Claim, l.Perm (store.claimsAbout ownerId claim.subjectEntityIds) →
        l'.Perm (store.claimsAbout ownerId claim.subjectEntityIds) → f l = f l' := by
  constructor
  · intro h l l' hl hl'
    have hplaced := h (placing hl) (placing hl')
    simpa [storedAbout, placing] using hplaced
  · intro h rows rows'
    exact h _ _ (rows.perm _) (rows'.perm _)

variable (store ownerId claim pending)

/-- A live rival decides the status behind the stored claims, or no two of those decide it differently. -/
def Decided : Prop :=
  (store.get claim.id).isSome ∨ contemporary claim pending ++ later claim pending ≠ [] ∨
    contemporary claim (store.claimsAbout ownerId claim.subjectEntityIds) = [] ∨
    later claim (store.claimsAbout ownerId claim.subjectEntityIds) = []

instance : Decidable (Decided store ownerId claim pending) := by unfold Decided; infer_instance

/-- What a claim is resolved to is independent of the order of the rows exactly if it is decided. -/
theorem resolved_alike_iff :
    (∀ rows rows' : RowOrder Claim,
      SameOutcome (resolveOne store ownerId claim pending rows) (resolveOne store ownerId claim pending rows')) ↔
      Decided store ownerId claim pending := by
  by_cases hfound : (store.get claim.id).isSome
  · refine iff_of_true (fun rows rows' => ?_) (Or.inl hfound)
    rw [resolveOne_of_found hfound, resolveOne_of_found hfound]
    exact ⟨rfl, .none, .none, .refl _, .refl _⟩
  calc (∀ rows rows' : RowOrder Claim,
      SameOutcome (resolveOne store ownerId claim pending rows) (resolveOne store ownerId claim pending rows'))
    _ ↔ ∀ l l' : List Claim, l.Perm (store.claimsAbout ownerId claim.subjectEntityIds) →
        l'.Perm (store.claimsAbout ownerId claim.subjectEntityIds) →
        lastWrite (ruling claim) (l ++ pending) claim.status = lastWrite (ruling claim) (l' ++ pending) claim.status := by
      simp only [sameOutcome_iff_status hfound, status_settled_eq]
      exact forall_rows_iff (fun l => lastWrite (ruling claim) (l ++ pending) claim.status)
    _ ↔ _ := lastWrite_perm_iff _ _ _
    _ ↔ _ := by
      rw [exists_ruling_iff, rulings_agree_iff, Decided, or_iff_right hfound]

end Orders

/-- Redis was decided on and confirmed later. The two claims agree, so both are stored live. -/
def twiceRedis : Store := runAll [.ofNotes "Atlas" [("r1", 5, ["project Atlas will use Redis."])],
  .ofNotes "Atlas" [("r2", 9, ["project Atlas will use Redis."])]]
  PropertyGraph.empty

/-- Another decision of the first day, that arrives last. -/
def lateClaim : Claim := soleClaim (.ofNotes "Atlas" [("r3", 5, ["project Atlas will use Postgres."])])

theorem late_claim_by_row_order :
    (newClaim (resolveOne twiceRedis "alice" lateClaim [] .asStored)).map Claim.status = some .superseded ∧
      (newClaim (resolveOne twiceRedis "alice" lateClaim [] ⟨List.reverse, List.reverse_perm⟩)).map Claim.status =
        some .contradicted := by
  decide +kernel

end Memorai.Ingestion
