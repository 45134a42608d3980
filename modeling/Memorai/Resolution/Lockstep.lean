import Memorai.Resolution.PendingLaws

/-! Two passes over the same claims, in step. A claim is settled alike in both when it meets the
same live rivals in both. -/
namespace Memorai.Resolver
open Schema Storage

/-- One of the claims supersedes the claim with this id. -/
def Supersede (cs : List Claim) (x : String) : Prop := ∃ d ∈ cs, x ∈ d.supersedes

instance (cs : List Claim) (x : String) : Decidable (Supersede cs x) := by unfold Supersede; infer_instance

/-- A claim as it is once `cs` are written as well. -/
def mark (cs : List Claim) (c : Claim) : Claim :=
  if Supersede cs c.id then { c with status := .superseded } else c

section Mark
variable {as bs : List Claim} {c o : Claim} {x : String}

@[simp] theorem bare_mark (cs : List Claim) (c : Claim) : bare (mark cs c) = bare c := by
  unfold mark; split <;> rfl

@[simp] theorem id_mark (cs : List Claim) (c : Claim) : (mark cs c).id = c.id :=
  eq_of_bare Claim.id (fun _ => rfl) (bare_mark cs c)

@[simp] theorem supersedes_mark (cs : List Claim) (c : Claim) : (mark cs c).supersedes = c.supersedes := by
  unfold mark; split <;> rfl

@[simp] theorem contradicts_mark (cs : List Claim) (c : Claim) : (mark cs c).contradicts = c.contradicts := by
  unfold mark; split <;> rfl

theorem mark_of_not_supersede (h : ¬ Supersede as c.id) : mark as c = c := if_neg h

@[simp] theorem supersede_nil : ¬ Supersede [] x := fun ⟨_, h, _⟩ => absurd h List.not_mem_nil

@[simp] theorem mark_nil (c : Claim) : mark [] c = c := mark_of_not_supersede supersede_nil

theorem map_mark_nil (cs : List Claim) : cs.map (mark []) = cs := by
  rw [List.map_congr_left (fun c _ => mark_nil c), List.map_id']

theorem supersede_append : Supersede (as ++ bs) x ↔ Supersede as x ∨ Supersede bs x := by
  simp only [Supersede, List.mem_append, or_and_right, exists_or]

/-- Statuses do not matter for who is superseded. -/
theorem supersede_map {f : Claim → Claim} (hf : ∀ d, (f d).supersedes = d.supersedes) :
    Supersede (as.map f) x ↔ Supersede as x := by
  simp only [Supersede, List.mem_map, exists_exists_and_eq_and, hf]

theorem mark_mark (as bs : List Claim) (c : Claim) : mark bs (mark as c) = mark (as ++ bs) c := by
  by_cases ha : Supersede as c.id <;> by_cases hb : Supersede bs c.id <;> simp [mark, supersede_append, ha, hb]

theorem mark_congr (h : ∀ x, Supersede as x ↔ Supersede bs x) (c : Claim) : mark as c = mark bs c := by
  simp only [mark, h]

theorem rival_mark : Rival c (mark as o) ↔ Rival c o ∧ ¬ Supersede as o.id := by
  by_cases h : Supersede as o.id
  · simp [mark, h, Rival]
  · simp [mark_of_not_supersede h, h]

end Mark

/-- All that comparisons read of a claim besides its status. -/
structure Gist where
  id : String
  ownerId : String
  statement : String
  subjectEntityIds : List String
  commitment : Option Commitment
  assertedAtMs : Int

def gist (c : Claim) : Gist where
  id := c.id
  ownerId := c.ownerId
  statement := c.statement
  subjectEntityIds := c.subjectEntityIds
  commitment := c.commitment
  assertedAtMs := c.assertedAtMs

theorem eq_of_gist {β : Type} {a b : Claim} (f : Gist → β) (h : gist a = gist b) : f (gist a) = f (gist b) :=
  congrArg f h

/-- A view of claims that shows what comparisons read, and nothing of what they decide. -/
structure Telling {β : Type} (view : Claim → β) : Prop where
  gist : ∀ {a b}, view a = view b → gist a = gist b
  bare : ∀ a, view (bare a) = view a

theorem telling_bare : Telling bare := ⟨fun h => eq_of_bare gist (fun _ => rfl) h, fun _ => rfl⟩

/-- The same claim under `view`, settled the same way. The lists count as sets. -/
structure Alike {β : Type} (view : Claim → β) (a b : Claim) : Prop where
  shown : view a = view b
  status : a.status = b.status
  supersedes : ∀ x, x ∈ a.supersedes ↔ x ∈ b.supersedes
  contradicts : ∀ x, x ∈ a.contradicts ↔ x ∈ b.contradicts

theorem disputes_congr {c d o p : Claim} (hc : gist c = gist d) (ho : gist o = gist p) : Disputes c o ↔ Disputes d p := by
  have hci : c.id = d.id := eq_of_gist Gist.id hc
  have hcs : c.statement = d.statement := eq_of_gist Gist.statement hc
  have hcc : c.commitment = d.commitment := eq_of_gist Gist.commitment hc
  have hoi : o.id = p.id := eq_of_gist Gist.id ho
  have hos : o.statement = p.statement := eq_of_gist Gist.statement ho
  have hoc : o.commitment = p.commitment := eq_of_gist Gist.commitment ho
  simp only [Disputes, obligation, hci, hcs, hcc, hoi, hos, hoc]

theorem rival_congr {c d o p : Claim} (hc : gist c = gist d) (ho : gist o = gist p) (hs : o.status = p.status) :
    Rival c o ↔ Rival d p := by rw [Rival, Rival, disputes_congr hc ho, hs]

section Alike
variable {β : Type} {view : Claim → β} {a b c d : Claim} {as bs : List Claim}

theorem Alike.refl (view : Claim → β) (a : Claim) : Alike view a a := ⟨rfl, rfl, fun _ => Iff.rfl, fun _ => Iff.rfl⟩

theorem Alike.symm (h : Alike view a b) : Alike view b a :=
  ⟨h.shown.symm, h.status.symm, fun x => (h.supersedes x).symm, fun x => (h.contradicts x).symm⟩

theorem Alike.trans (h : Alike view a b) (h' : Alike view b c) : Alike view a c :=
  ⟨h.shown.trans h'.shown, h.status.trans h'.status, fun x => (h.supersedes x).trans (h'.supersedes x),
    fun x => (h.contradicts x).trans (h'.contradicts x)⟩

theorem Telling.eq_of_bare (ht : Telling view) (h : Resolver.bare a = Resolver.bare b) : view a = view b := by
  rw [← ht.bare a, h, ht.bare b]

theorem supersede_alike (h : List.Forall₂ (Alike view) as bs) (x : String) : Supersede as x ↔ Supersede bs x := by
  induction h with
  | nil => exact Iff.rfl
  | cons hab _ ih =>
    simp only [Supersede, List.exists_mem_cons_iff] at ih ⊢
    rw [hab.supersedes, ih]

/-- Marking alike claims by alike ones leaves them alike. -/
theorem Alike.mark (ht : Telling view) (h : Alike view a b) (hs : ∀ x, Supersede as x ↔ Supersede bs x) :
    Alike view (mark as a) (mark bs b) := by
  have hid : a.id = b.id := eq_of_gist Gist.id (ht.gist h.shown)
  refine ⟨?_, ?_, fun x => ?_, fun x => ?_⟩
  · rw [ht.eq_of_bare (bare_mark as a), h.shown, ht.eq_of_bare (bare_mark bs b)]
  · simp only [Resolver.mark, hs, hid]
    split
    · rfl
    · exact h.status
  · simpa using h.supersedes x
  · simpa using h.contradicts x

theorem Alike.fade (ht : Telling view) (hc : gist c = gist d) (h : Alike view a b) :
    Alike view (fade c a) (fade d b) := by
  have hr : Rival c a ↔ Rival d b := rival_congr hc (ht.gist h.shown) h.status
  have hct : c.assertedAtMs = d.assertedAtMs := eq_of_gist Gist.assertedAtMs hc
  have hat : a.assertedAtMs = b.assertedAtMs := eq_of_gist Gist.assertedAtMs (ht.gist h.shown)
  refine ⟨?_, ?_, fun x => ?_, fun x => ?_⟩
  · rw [ht.eq_of_bare (bare_fade c a), h.shown, ht.eq_of_bare (bare_fade d b)]
  · simp only [Resolver.fade, hr, hct, hat]
    split
    · rfl
    · exact h.status
  · simpa only [supersedes_fade] using h.supersedes x
  · simpa only [contradicts_fade] using h.contradicts x

end Alike

/-- Among the claims is a live rival with this id and time. -/
def Sees (c : Claim) (es : List Claim) (x : String) (t : Int) : Prop :=
  ∃ o ∈ es, Rival c o ∧ o.id = x ∧ o.assertedAtMs = t

section Settled
variable {β : Type} {view : Claim → β} {c d : Claim} {es es' own own' : List Claim} {x : String} {t : Int}

theorem sees_append : Sees c (es ++ own) x t ↔ Sees c es x t ∨ Sees c own x t := by
  simp only [Sees, List.mem_append, or_and_right, exists_or]

theorem sees_alike (ht : Telling view) (hc : gist c = gist d) (h : List.Forall₂ (Alike view) es es') :
    Sees c es x t ↔ Sees d es' x t := by
  induction h with
  | nil => simp [Sees]
  | @cons o p os ps hop _ ih =>
    have hr : Rival c o ↔ Rival d p := rival_congr hc (ht.gist hop.shown) hop.status
    have hi : o.id = p.id := eq_of_gist Gist.id (ht.gist hop.shown)
    have hat : o.assertedAtMs = p.assertedAtMs := eq_of_gist Gist.assertedAtMs (ht.gist hop.shown)
    simp only [Sees, List.exists_mem_cons_iff] at ih ⊢
    rw [hr, hi, hat, ih]

theorem exists_earlier_iff : (∃ o ∈ earlier c es, o.id = x) ↔ ∃ t < c.assertedAtMs, Sees c es x t := by
  simp only [mem_earlier, Sees]
  constructor
  · rintro ⟨o, ⟨ho, hr, hlt⟩, hx⟩
    exact ⟨_, hlt, o, ho, hr, hx, rfl⟩
  · rintro ⟨t, hlt, o, ho, hr, hx, hot⟩
    exact ⟨o, ⟨ho, hr, hot ▸ hlt⟩, hx⟩

theorem exists_contemporary_iff : (∃ o ∈ contemporary c es, o.id = x) ↔ Sees c es x c.assertedAtMs := by
  simp only [mem_contemporary, Sees]
  constructor
  · rintro ⟨o, ⟨ho, hr, heq⟩, hx⟩
    exact ⟨o, ho, hr, hx, heq⟩
  · rintro ⟨o, ho, hr, hx, heq⟩
    exact ⟨o, ⟨ho, hr, heq⟩, hx⟩

theorem mem_supersedes_settled (h : c.supersedes = []) :
    x ∈ (settled c es).supersedes ↔ ∃ t, t < c.assertedAtMs ∧ Sees c es x t := by
  simp only [settled, h, List.nil_append, List.mem_map, exists_earlier_iff]

theorem mem_contradicts_settled (h : c.contradicts = []) :
    x ∈ (settled c es).contradicts ↔ Sees c es x c.assertedAtMs := by
  simp only [settled, h, List.nil_append, List.mem_map, exists_contemporary_iff]

theorem all_earlier_iff : (∀ o ∈ es, Rival c o → o.assertedAtMs < c.assertedAtMs) ↔
    ∀ x t, Sees c es x t → t < c.assertedAtMs := by
  constructor
  · intro h x t ⟨o, ho, hr, _, hot⟩
    exact hot ▸ h o ho hr
  · exact fun h o ho hr => h _ _ ⟨o, ho, hr, rfl, rfl⟩

/-- A claim stays as it was, or a rival that was not asserted earlier says otherwise. -/
theorem status_settled_cases (c : Claim) (es : List Claim) :
    (settled c es).status = c.status ∨ ((settled c es).status = .superseded ∧ later c es ≠ []) ∨
      ((settled c es).status = .contradicted ∧ contemporary c es ≠ []) := by
  induction es using List.reverseRecOn with
  | nil => exact Or.inl rfl
  | append_singleton es o ih =>
    have hst : (settled c (es ++ [o])).status = verdict c (settled c es).status o := by simp [settled]
    have hl : later c (es ++ [o]) = later c es ++ later c [o] := List.filter_append ..
    have hc : contemporary c (es ++ [o]) = contemporary c es ++ contemporary c [o] := List.filter_append ..
    rw [hst, hl, hc]
    unfold verdict
    by_cases hr : Rival c o
    · rw [if_pos hr]
      by_cases heq : o.assertedAtMs = c.assertedAtMs
      · have ho : o ∈ contemporary c [o] := (mem_contemporary ..).mpr ⟨List.mem_singleton_self o, hr, heq⟩
        rw [if_pos heq]
        exact Or.inr (Or.inr ⟨rfl, fun h => absurd (List.append_eq_nil_iff.mp h).2 (List.ne_nil_of_mem ho)⟩)
      · rw [if_neg heq]
        by_cases hlt : c.assertedAtMs < o.assertedAtMs
        · have ho : o ∈ later c [o] := (mem_later ..).mpr ⟨List.mem_singleton_self o, hr, hlt⟩
          rw [if_pos hlt]
          exact Or.inr (Or.inl ⟨rfl, fun h => absurd (List.append_eq_nil_iff.mp h).2 (List.ne_nil_of_mem ho)⟩)
        · rw [if_neg hlt]
          exact ih.imp id (Or.imp (And.imp id (fun h e => h (List.append_eq_nil_iff.mp e).1))
            (And.imp id (fun h e => h (List.append_eq_nil_iff.mp e).1)))
    · rw [if_neg hr]
      exact ih.imp id (Or.imp (And.imp id (fun h e => h (List.append_eq_nil_iff.mp e).1))
        (And.imp id (fun h e => h (List.append_eq_nil_iff.mp e).1)))

/-- Rivals that were not asserted earlier overrule whatever was decided before them. -/
theorem foldl_verdict_forget (h : ∃ v ∈ own, Rival c v ∧ c.assertedAtMs ≤ v.assertedAtMs) (st st' : ClaimStatus) :
    own.foldl (verdict c) st = own.foldl (verdict c) st' := by
  induction own generalizing st st' with
  | nil =>
    obtain ⟨v, hv, _⟩ := h
    exact absurd hv List.not_mem_nil
  | cons o own ih =>
    rw [List.foldl_cons, List.foldl_cons]
    by_cases ho : Rival c o ∧ c.assertedAtMs ≤ o.assertedAtMs
    · have hv : verdict c st o = verdict c st' o := by
        unfold verdict
        rw [if_pos ho.1, if_pos ho.1]
        by_cases heq : o.assertedAtMs = c.assertedAtMs
        · rw [if_pos heq, if_pos heq]
        · have hlt : c.assertedAtMs < o.assertedAtMs := by omega
          rw [if_neg heq, if_neg heq, if_pos hlt, if_pos hlt]
      rw [hv]
    · obtain ⟨v, hv, hr⟩ := h
      rcases List.mem_cons.mp hv with rfl | hv
      · exact absurd hr ho
      · exact ih ⟨v, hv, hr⟩ _ _

theorem foldl_verdict_alike (ht : Telling view) (hc : gist c = gist d) (h : List.Forall₂ (Alike view) own own')
    (st : ClaimStatus) : own.foldl (verdict c) st = own'.foldl (verdict d) st := by
  induction h generalizing st with
  | nil => rfl
  | @cons o p os ps hop _ ih =>
    have hr : Rival c o ↔ Rival d p := rival_congr hc (ht.gist hop.shown) hop.status
    have hct : c.assertedAtMs = d.assertedAtMs := eq_of_gist Gist.assertedAtMs hc
    have hat : o.assertedAtMs = p.assertedAtMs := eq_of_gist Gist.assertedAtMs (ht.gist hop.shown)
    have hv : verdict c st o = verdict d st p := by simp only [verdict, hr, hct, hat]
    rw [List.foldl_cons, List.foldl_cons, hv, ih]

/-- The order the stored claims come in does not matter for the status: the claims of the own batch
decide it, or there are no contemporary rivals, or none asserted later. -/
def Unmixed (c : Claim) (existing own : List Claim) : Prop :=
  (∃ v ∈ own, Rival c v ∧ c.assertedAtMs ≤ v.assertedAtMs) ∨ contemporary c existing = [] ∨ later c existing = []

instance (c : Claim) (existing own : List Claim) : Decidable (Unmixed c existing own) := by
  unfold Unmixed; infer_instance

private theorem status_settled_congr (hc : gist c = gist d) (hraw : Raw c) (hraw' : Raw d)
    (hs : ∀ x t, Sees c es x t ↔ Sees d es' x t) (hu : contemporary c es = [] ∨ later c es = []) :
    (settled c es).status = (settled d es').status := by
  have hct : c.assertedAtMs = d.assertedAtMs := eq_of_gist Gist.assertedAtMs hc
  have hact : (settled c es).status = .active ↔ (settled d es').status = .active := by
    rw [status_settled_active, status_settled_active, all_earlier_iff, all_earlier_iff, hraw.1, hraw'.1, hct]
    simp only [hs]
  have hcon : contemporary d es' ≠ [] → contemporary c es ≠ [] := by
    intro h
    obtain ⟨p, hp⟩ := List.exists_mem_of_ne_nil _ h
    obtain ⟨hp, hr, heq⟩ := (mem_contemporary ..).mp hp
    obtain ⟨o, ho, hro, _, hot⟩ := (hs p.id p.assertedAtMs).mpr ⟨p, hp, hr, rfl, rfl⟩
    exact List.ne_nil_of_mem ((mem_contemporary ..).mpr ⟨ho, hro, by rw [hot, heq, hct]⟩)
  have hlat : later d es' ≠ [] → later c es ≠ [] := by
    intro h
    obtain ⟨p, hp⟩ := List.exists_mem_of_ne_nil _ h
    obtain ⟨hp, hr, hlt⟩ := (mem_later ..).mp hp
    obtain ⟨o, ho, hro, _, hot⟩ := (hs p.id p.assertedAtMs).mpr ⟨p, hp, hr, rfl, rfl⟩
    exact List.ne_nil_of_mem ((mem_later ..).mpr ⟨ho, hro, by rw [hot, hct]; exact hlt⟩)
  rcases status_settled_cases c es with h | ⟨h, hl⟩ | ⟨h, hk⟩
  · rw [h, hraw.1]
    exact (hact.mp (h.trans hraw.1)).symm
  · rcases status_settled_cases d es' with h' | ⟨h', _⟩ | ⟨_, hk'⟩
    · rw [hact.mpr (h'.trans hraw'.1)] at h
      exact absurd h (by simp)
    · rw [h, h']
    · exact (hu.elim (hcon hk') hl).elim
  · rcases status_settled_cases d es' with h' | ⟨_, hl'⟩ | ⟨h', _⟩
    · rw [hact.mpr (h'.trans hraw'.1)] at h
      exact absurd h (by simp)
    · exact (hu.elim hk (hlat hl')).elim
    · rw [h, h']

/-- A claim that meets the same live rivals has the same status, unless that hangs on the order they come in. -/
theorem status_settled_of_unmixed (ht : Telling view) (hc : gist c = gist d) (hraw : Raw c) (hraw' : Raw d)
    (ho : List.Forall₂ (Alike view) own own') (hs : ∀ x t, Sees c es x t ↔ Sees d es' x t) (hu : Unmixed c (es ++ own) own) :
    (settled c (es ++ own)).status = (settled d (es' ++ own')).status := by
  rcases hu with hown | hu
  · change (es ++ own).foldl _ _ = (es' ++ own').foldl _ _
    rw [List.foldl_append, List.foldl_append, foldl_verdict_forget hown, foldl_verdict_alike ht hc ho]
  · refine status_settled_congr hc hraw hraw' (fun x t => ?_) hu
    rw [sees_append, sees_append, hs, sees_alike ht hc ho]

/-- A claim that meets the same live rivals, as far as its lists tell, and comes out with the same status is settled alike. -/
theorem settled_alike (ht : Telling view) (hv : view c = view d) (hraw : Raw c) (hraw' : Raw d)
    (ho : List.Forall₂ (Alike view) own own')
    (hold : ∀ x, (∃ t < c.assertedAtMs, Sees c es x t) ↔ ∃ t < c.assertedAtMs, Sees d es' x t)
    (hsame : ∀ x, Sees c es x c.assertedAtMs ↔ Sees d es' x c.assertedAtMs)
    (hst : (settled c (es ++ own)).status = (settled d (es' ++ own')).status) :
    Alike view (settled c (es ++ own)) (settled d (es' ++ own')) := by
  have hc : gist c = gist d := ht.gist hv
  have hct : c.assertedAtMs = d.assertedAtMs := eq_of_gist Gist.assertedAtMs hc
  refine ⟨?_, hst, fun x => ?_, fun x => ?_⟩
  · rw [ht.eq_of_bare (bare_settled c _), hv, ht.eq_of_bare (bare_settled d _)]
  · rw [mem_supersedes_settled hraw.2.1, mem_supersedes_settled hraw'.2.1, ← hct]
    simp only [sees_append, and_or_left, exists_or, hold, sees_alike ht hc ho]
  · rw [mem_contradicts_settled hraw.2.2, mem_contradicts_settled hraw'.2.2, ← hct, sees_append, sees_append, hsame,
      sees_alike ht hc ho]

/-- One more claim settled on top of alike ones leaves alike ones. -/
theorem settle_alike (ht : Telling view) (hv : view c = view d) (ho : List.Forall₂ (Alike view) own own')
    (hsettled : Alike view (settled c es) (settled d es')) :
    List.Forall₂ (Alike view) (own.map (fade c) ++ [settled c es]) (own'.map (fade d) ++ [settled d es']) := by
  refine List.rel_append ?_ (.cons hsettled .nil)
  exact List.forall₂_map_left_iff.mpr (List.forall₂_map_right_iff.mpr (ho.imp (fun _ _ h => h.fade ht (ht.gist hv))))

end Settled
end Memorai.Resolver
