import Memorai.Collections.Lists
import Memorai.Resolution.Rereads

/-! A pass that goes on where another one stopped. It finds stored what that one had pending. -/
namespace Memorai.Resolver
open Schema Storage Memorai.Lists

/-- The same ids among both. -/
def SameIds (es es' : List Claim) : Prop := (∀ o ∈ es, ∃ p ∈ es', p.id = o.id) ∧ ∀ p ∈ es', ∃ o ∈ es, o.id = p.id

instance (es es' : List Claim) : Decidable (SameIds es es') := by unfold SameIds; infer_instance

theorem sameIds_iff {es es' : List Claim} : SameIds es es' ↔ ∀ x, (∃ o ∈ es, o.id = x) ↔ ∃ p ∈ es', p.id = x := by
  constructor
  · rintro ⟨h, h'⟩ x
    exact ⟨fun ⟨o, ho, hx⟩ => hx ▸ h o ho, fun ⟨p, hp, hx⟩ => hx ▸ h' p hp⟩
  · intro h
    exact ⟨fun o ho => (h _).mp ⟨o, ho, rfl⟩, fun p hp => (h _).mpr ⟨p, hp, rfl⟩⟩

/-- Whether the last live rival that was not asserted earlier is a contemporary, if there is one. -/
def lastWord (c : Claim) (es : List Claim) : Option Bool :=
  (es.filter (fun o => Rival c o ∧ c.assertedAtMs ≤ o.assertedAtMs)).getLast?.map (fun o => o.assertedAtMs = c.assertedAtMs)

/-- The status that the last word leaves a claim with. -/
def statusOf : Option Bool → ClaimStatus
  | none => .active
  | some true => .contradicted
  | some false => .superseded

theorem statusOf_inj {w w' : Option Bool} (h : statusOf w = statusOf w') : w = w' := by
  rcases w with _ | _ | _ <;> rcases w' with _ | _ | _ <;> simp_all [statusOf]

section LastWord
variable {β : Type} {view : Claim → β} {c d : Claim} {es own own' : List Claim}

theorem lastWord_append : lastWord c (es ++ own) = (lastWord c own).or (lastWord c es) := by
  rw [lastWord, List.filter_append, List.getLast?_append, Option.map_or]
  rfl

theorem status_settled (hc : c.status = .active) : (settled c es).status = statusOf (lastWord c es) := by
  induction es using List.reverseRecOn with
  | nil => exact hc
  | append_singleton es o ih =>
    have hst : (settled c (es ++ [o])).status = verdict c (settled c es).status o := by simp [settled]
    rw [hst, lastWord_append, ih, verdict]
    by_cases hr : Rival c o
    · rw [if_pos hr]
      rcases lt_trichotomy o.assertedAtMs c.assertedAtMs with hlt | heq | hlt
      · have hsilent : lastWord c [o] = none := by simp [lastWord, not_le_of_gt hlt]
        rw [if_neg hlt.ne, if_neg (not_lt_of_gt hlt), hsilent, Option.none_or]
      · have hsays : lastWord c [o] = some true := by simp [lastWord, hr, heq]
        rw [if_pos heq, hsays]
        rfl
      · have hsays : lastWord c [o] = some false := by simp [lastWord, hr, hlt.le, hlt.ne']
        rw [if_neg hlt.ne', if_pos hlt, hsays]
        rfl
    · have hsilent : lastWord c [o] = none := by simp [lastWord, hr]
      rw [if_neg hr, hsilent, Option.none_or]

theorem lastWord_alike (ht : Telling view) (hc : gist c = gist d) (h : List.Forall₂ (Alike view) own own') :
    lastWord c own = lastWord d own' := by
  induction h with
  | nil => rfl
  | @cons o p os ps hop _ ih =>
    have hr : Rival c o ↔ Rival d p := rival_congr hc (ht.gist hop.shown) hop.status
    have hct : c.assertedAtMs = d.assertedAtMs := eq_of_gist Gist.assertedAtMs hc
    have hat : o.assertedAtMs = p.assertedAtMs := eq_of_gist Gist.assertedAtMs (ht.gist hop.shown)
    have hone : lastWord c [o] = lastWord d [p] := by
      by_cases hsays : Rival d p ∧ d.assertedAtMs ≤ p.assertedAtMs
      · simp [lastWord, hr, hct, hat, hsays]
      · simp [lastWord, hr, hct, hat, hsays]
    change lastWord c ([o] ++ os) = lastWord d ([p] ++ ps)
    rw [lastWord_append, lastWord_append, ih, hone]

end LastWord

/-- A fresh claim that comes after `n` pending ones: `reads` finds the older and the contemporary live rivals that it
meets among the stored claims and these `n`, and leaves it to the same last word. -/
structure Reread (reads : Claim → List Claim) (n : Nat) (now : List Claim) (q : Asked) : Prop where
  older : SameIds (earlier q.claim (q.stored ++ now.take n)) (earlier q.claim (reads q.claim))
  contemporaries : SameIds (contemporary q.claim (q.stored ++ now.take n)) (contemporary q.claim (reads q.claim))
  last : lastWord q.claim (q.stored ++ now) = lastWord q.claim (reads q.claim ++ now.drop n)

instance (reads : Claim → List Claim) (n : Nat) (now : List Claim) (q : Asked) : Decidable (Reread reads n now q) :=
  decidable_of_iff (SameIds (earlier q.claim (q.stored ++ now.take n)) (earlier q.claim (reads q.claim)) ∧
    SameIds (contemporary q.claim (q.stored ++ now.take n)) (contemporary q.claim (reads q.claim)) ∧
    lastWord q.claim (q.stored ++ now) = lastWord q.claim (reads q.claim ++ now.drop n))
    ⟨fun h => ⟨h.1, h.2.1, h.2.2⟩, fun h => ⟨h.older, h.contemporaries, h.last⟩⟩

/-- The answers to one new claim in two passes, the second of which finds stored what `reads` finds. -/
structure ReadBack {β : Type} (view : Claim → β) (reads : Claim → List Claim) (q q' : Asked) : Prop where
  shown : view q.claim = view q'.claim
  raw : Raw q.claim
  raw' : Raw q'.claim
  fresh : q.found = false
  fresh' : q'.found = false
  stored : q'.stored = reads q.claim

section ReadBack
variable {β : Type} {view : Claim → β} {reads : Claim → List Claim} {before own own' : List Claim} {q q' : Asked}
  {qs qs' : List Asked}

theorem ReadBack.sees (ht : Telling view) (h : ReadBack view reads q q') (x : String) (t : Int) :
    Sees q.claim (reads q.claim) x t ↔ Sees q'.claim q'.stored x t := by
  rw [h.stored]
  exact sees_alike ht (ht.gist h.shown) (List.forall₂_same.mpr (fun o _ => .refl view o))

theorem ReadBack.lastWord (ht : Telling view) (h : ReadBack view reads q q') (hown : List.Forall₂ (Alike view) own own') :
    Resolver.lastWord q.claim (reads q.claim ++ own) = Resolver.lastWord q'.claim (q'.stored ++ own') := by
  rw [h.stored]
  exact lastWord_alike ht (ht.gist h.shown) (List.rel_append (List.forall₂_same.mpr (fun o _ => .refl view o)) hown)

/-- What a claim that is read back comes to is decided by what it met. -/
theorem ReadBack.settled_alike (ht : Telling view) (h : ReadBack view reads q q') (hown : List.Forall₂ (Alike view) own own')
    (hr : Reread reads before.length (before ++ own) q) :
    Alike view (settled q.claim (q.stored ++ (before ++ own))) (settled q'.claim (q'.stored ++ own')) := by
  obtain ⟨hold, hsame, hlast⟩ := hr
  rw [List.take_left, sameIds_iff] at hold hsame
  rw [List.drop_left] at hlast
  rw [← List.append_assoc]
  refine Resolver.settled_alike ht h.shown h.raw h.raw' hown (fun x => ?_) (fun x => ?_) ?_
  · rw [← exists_earlier_iff, hold, exists_earlier_iff]
    simp only [h.sees ht]
  · rw [← exists_contemporary_iff, hsame, exists_contemporary_iff, h.sees ht]
  · rw [status_settled h.raw.1, status_settled h.raw'.1, List.append_assoc, hlast, h.lastWord ht hown]

end ReadBack

/-- A pass on top of other claims that uses no id twice. -/
structure Clean (pending : List Claim) (qs : List Asked) : Prop where
  raw : ∀ q ∈ qs, Raw q.claim
  fresh : ∀ q ∈ qs, q.found = false
  nodup : (pending.map Claim.id ++ qs.map (fun q => q.claim.id)).Nodup
  apart : ∀ q ∈ qs, ∀ a ∈ q.stored, a.id ∉ pending.map Claim.id ++ qs.map (fun q => q.claim.id)

section Clean
variable {pending : List Claim} {q : Asked} {qs : List Asked}

/-- One more claim settled marks those ahead of it, and only live ones. -/
theorem Clean.settle (h : Clean pending (q :: qs)) :
    Resolver.settle pending q = pending.map (mark [settled q.claim (q.stored ++ pending)]) ++
        [settled q.claim (q.stored ++ pending)] ∧
      ∀ p ∈ pending, Supersede [settled q.claim (q.stored ++ pending)] p.id → p.status = .active := by
  have hraw : Raw q.claim := h.raw q List.mem_cons_self
  have hnd : (pending.map Claim.id).Nodup := (List.nodup_append.mp h.nodup).1
  have hsole : ∀ p ∈ pending, ∀ o ∈ q.stored ++ pending, o.id = p.id → o = p := by
    intro p hp o ho hid
    rcases List.mem_append.mp ho with ho | ho
    · refine absurd ?_ (h.apart q List.mem_cons_self o ho)
      rw [hid]
      exact List.mem_append_left _ (List.mem_map_of_mem hp)
    · exact List.inj_on_of_nodup_map hnd ho hp hid
  constructor
  · have hstep := @settle_beside pending [] q (h.fresh q List.mem_cons_self) hraw
    rw [map_mark_nil, List.append_nil, List.map_nil, List.nil_append] at hstep
    exact hstep (fun p hp o ho hid => by rw [mark_nil]; exact hsole p hp o ho hid)
  · intro p hp hsup
    simp only [Supersede, List.mem_singleton, exists_eq_left, mem_supersedes_settled hraw.2.1] at hsup
    obtain ⟨_, _, o, ho, hrival, hid, _⟩ := hsup
    rw [← hsole p hp o ho hid]
    exact hrival.2

theorem Clean.rest (h : Clean pending (q :: qs)) : Clean (Resolver.settle pending q) qs := by
  have hids : (Resolver.settle pending q).map Claim.id ++ qs.map (fun q => q.claim.id) =
      pending.map Claim.id ++ (q :: qs).map (fun q => q.claim.id) := by
    rw [h.settle.1, List.map_append, List.map_map, List.append_assoc]
    refine congr (congrArg _ (List.map_congr_left (fun p _ => id_mark _ p))) ?_
    rfl
  refine ⟨fun r hr => h.raw r (List.mem_cons_of_mem _ hr), fun r hr => h.fresh r (List.mem_cons_of_mem _ hr), ?_, ?_⟩
  · rw [hids]
    exact h.nodup
  · rw [hids]
    exact fun r hr => h.apart r (List.mem_cons_of_mem _ hr)

/-- The whole pass marks the claims it starts from, and only live ones. -/
theorem Clean.settleAll (h : Clean pending qs) : ∃ tail, Resolver.settleAll pending qs = pending.map (mark tail) ++ tail ∧
    ∀ p ∈ pending, Supersede tail p.id → p.status = .active := by
  induction qs generalizing pending with
  | nil => exact ⟨[], by rw [map_mark_nil, List.append_nil]; rfl, fun _ _ hs => absurd hs supersede_nil⟩
  | cons q qs ih =>
    obtain ⟨hstep, hlive⟩ := h.settle
    obtain ⟨tail, htail, hlater⟩ := ih h.rest
    rw [hstep] at htail hlater
    generalize settled q.claim (q.stored ++ pending) = c at hstep hlive htail hlater
    have hboth : ∀ x, Supersede (mark tail c :: tail) x ↔ Supersede [c] x ∨ Supersede tail x := fun x => by
      rw [← List.singleton_append, supersede_append, ← @supersede_map [c] x (mark tail) (supersedes_mark tail)]
      rfl
    refine ⟨mark tail c :: tail, ?_, fun p hp hsup => ?_⟩
    · rw [settleAll_cons, hstep, htail, List.map_append, List.map_map, List.append_assoc]
      refine congr (congrArg _ (List.map_congr_left (fun p _ => ?_))) rfl
      rw [Function.comp_apply, mark_mark]
      exact mark_congr (fun x => by rw [supersede_append, hboth]) p
    · by_cases hc : Supersede [c] p.id
      · exact hlive p hp hc
      · have hact := hlater (mark [c] p) (List.mem_append_left _ (List.mem_map_of_mem hp))
          ((id_mark [c] p).symm ▸ ((hboth _).mp hsup).resolve_left hc)
        rwa [mark_of_not_supersede hc] at hact

end Clean

/-- The claims of two passes, position by position, with the same lists and left with the same status. -/
inductive SameEnds : List Claim → List Claim → Prop where
  | nil : SameEnds [] []
  | cons {c d : Claim} {cs ds : List Claim} (supersedes : ∀ x, x ∈ c.supersedes ↔ x ∈ d.supersedes)
      (contradicts : ∀ x, x ∈ c.contradicts ↔ x ∈ d.contradicts) (status : (mark cs c).status = (mark ds d).status)
      (rest : SameEnds cs ds) : SameEnds (c :: cs) (d :: ds)

section SameEnds
variable {as bs cs ds : List Claim}

theorem SameEnds.of_append (h : SameEnds (as ++ cs) (bs ++ ds)) (hlen : as.length = bs.length) : SameEnds cs ds := by
  induction as generalizing bs with
  | nil =>
    obtain rfl : bs = [] := List.length_eq_zero_iff.mp hlen.symm
    exact h
  | cons a as ih =>
    cases bs with
    | nil => exact absurd hlen (by simp)
    | cons b bs =>
      cases h with
      | cons _ _ _ hrest => exact ih hrest (by simpa using hlen)

end SameEnds

section EveryTurn
variable {β : Type} {view : Claim → β} {reads : Claim → List Claim} {before own own' : List Claim} {q q' : Asked}
  {qs qs' : List Asked}

/-- What two claims see is the same without what they see among their own, which they meet nowhere else. -/
private theorem sees_of_append (ht : Telling view) {c d : Claim} {es es' : List Claim} {x : String} {T : Int → Prop}
    (hg : gist c = gist d) (hown : List.Forall₂ (Alike view) own own') (hfirst : (∃ o ∈ own, o.id = x) → ∀ o ∈ es, o.id ≠ x)
    (hsecond : (∃ o ∈ own, o.id = x) → ∀ o ∈ es', o.id ≠ x)
    (h : (∃ t, T t ∧ Sees c (es ++ own) x t) ↔ ∃ t, T t ∧ Sees d (es' ++ own') x t) :
    (∃ t, T t ∧ Sees c es x t) ↔ ∃ t, T t ∧ Sees d es' x t := by
  by_cases hx : ∃ o ∈ own, o.id = x
  · exact iff_of_false (fun ⟨_, _, o, ho, _, hid, _⟩ => hfirst hx o ho hid) (fun ⟨_, _, o, ho, _, hid, _⟩ => hsecond hx o ho hid)
  · have hno : ∀ t, ¬ Sees c own x t := fun _ ⟨o, ho, _, hid, _⟩ => hx ⟨o, ho, hid⟩
    have hno' : ∀ t, ¬ Sees d own' x t := fun t hsees => hno t ((sees_alike ht hg hown).mpr hsees)
    simpa only [sees_append, hno, hno', or_false] using h

/-- A claim that comes out with the same lists and the same status was read back as it was met. -/
theorem ReadBack.reread (ht : Telling view) (h : ReadBack view reads q q') (hown : List.Forall₂ (Alike view) own own')
    (hc : Clean (before ++ own) (q :: qs)) (hc' : Clean own' (q' :: qs'))
    (hsettled : Alike view (settled q.claim (q.stored ++ (before ++ own))) (settled q'.claim (q'.stored ++ own'))) :
    Reread reads before.length (before ++ own) q := by
  have hg : gist q.claim = gist q'.claim := ht.gist h.shown
  have htime : q.claim.assertedAtMs = q'.claim.assertedAtMs := eq_of_gist Gist.assertedAtMs hg
  have hids : own.map Claim.id = own'.map Claim.id :=
    map_eq_of_forall₂ hown (fun _ _ hab => eq_of_gist Gist.id (ht.gist hab.shown))
  -- What a pass has of its own it meets nowhere else.
  have hfirst : ∀ x, (∃ o ∈ own, o.id = x) → ∀ o ∈ q.stored ++ before, o.id ≠ x := by
    rintro x ⟨v, hv, rfl⟩ o ho hid
    rcases List.mem_append.mp ho with ho | ho
    · refine hc.apart q List.mem_cons_self o ho ?_
      rw [hid]
      exact List.mem_append_left _ (List.mem_map_of_mem (List.mem_append_right _ hv))
    · have hnd := (List.nodup_append.mp hc.nodup).1
      rw [List.map_append] at hnd
      exact (List.nodup_append.mp hnd).2.2 _ (List.mem_map_of_mem ho) _ (List.mem_map_of_mem hv) hid
  have hsecond : ∀ x, (∃ o ∈ own, o.id = x) → ∀ o ∈ q'.stored, o.id ≠ x := by
    rintro x ⟨v, hv, rfl⟩ o ho hid
    refine hc'.apart q' List.mem_cons_self o ho ?_
    rw [hid, ← hids]
    exact List.mem_append_left _ (List.mem_map_of_mem hv)
  refine ⟨?_, ?_, ?_⟩
  · rw [List.take_left, sameIds_iff]
    intro x
    have hsup := hsettled.supersedes x
    rw [mem_supersedes_settled h.raw.2.1, mem_supersedes_settled h.raw'.2.1, ← htime, ← List.append_assoc] at hsup
    simp only [exists_earlier_iff, h.sees ht]
    exact sees_of_append ht hg hown (hfirst x) (hsecond x) hsup
  · rw [List.take_left, sameIds_iff]
    intro x
    have hcon := hsettled.contradicts x
    rw [mem_contradicts_settled h.raw.2.2, mem_contradicts_settled h.raw'.2.2, ← htime, ← List.append_assoc] at hcon
    rw [exists_contemporary_iff, exists_contemporary_iff, h.sees ht]
    have hsees := @sees_of_append _ _ _ _ ht _ _ _ _ x (fun t => t = q.claim.assertedAtMs) hg hown (hfirst x) (hsecond x)
    simp only [exists_eq_left] at hsees
    exact hsees hcon
  · have hst := hsettled.status
    rw [status_settled h.raw.1, status_settled h.raw'.1] at hst
    rw [List.drop_left, statusOf_inj hst, h.lastWord ht hown]

end EveryTurn
end Memorai.Resolver
