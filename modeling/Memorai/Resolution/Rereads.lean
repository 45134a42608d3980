import Memorai.Resolution.Lockstep

/-! What a later pass finds stored in place of the claims it would have had pending: when this
makes no difference to how its own claims are settled. -/
namespace Memorai.Resolver
open Schema Storage

section Beside
variable {before own : List Claim} {q : Asked}

/-- Settling one more claim marks the claims ahead of the batch just as it marks its own. -/
theorem settle_beside (hf : q.found = false) (hraw : Raw q.claim)
    (hapart : ∀ p ∈ before, ∀ o ∈ q.stored ++ (before.map (mark own) ++ own), o.id = p.id → o = mark own p) :
    settle (before.map (mark own) ++ own) q =
      before.map (mark (own.map (fade q.claim) ++ [settled q.claim (q.stored ++ (before.map (mark own) ++ own))])) ++
        (own.map (fade q.claim) ++ [settled q.claim (q.stored ++ (before.map (mark own) ++ own))]) := by
  rw [settle_fresh hf, List.map_append, List.map_map, List.append_assoc]
  refine congrArg (· ++ _) (List.map_congr_left (fun p hp => ?_))
  have hsup : Supersede (own.map (fade q.claim) ++ [settled q.claim (q.stored ++ (before.map (mark own) ++ own))]) p.id ↔
      Supersede own p.id ∨ (Rival q.claim (mark own p) ∧ (mark own p).assertedAtMs < q.claim.assertedAtMs) := by
    rw [supersede_append, supersede_map (supersedes_fade q.claim)]
    refine or_congr Iff.rfl ?_
    simp only [Supersede, List.mem_singleton, exists_eq_left, mem_supersedes_settled hraw.2.1, Sees]
    constructor
    · rintro ⟨t, hlt, o, ho, hr, hid, hot⟩
      obtain rfl := hapart p hp o ho hid
      exact ⟨hr, hot ▸ hlt⟩
    · rintro ⟨hr, hlt⟩
      refine ⟨_, hlt, mark own p, ?_, hr, id_mark own p, rfl⟩
      exact List.mem_append_right _ (List.mem_append_left _ (List.mem_map_of_mem hp))
  rw [Function.comp_apply, fade]
  by_cases hm : Supersede own p.id
  · have hnr : ¬ Rival q.claim (mark own p) := fun h => (rival_mark.mp h).2 hm
    rw [if_neg (fun h => hnr h.1)]
    simp only [mark, if_pos hm, if_pos (hsup.mpr (Or.inl hm))]
  · rw [mark_of_not_supersede hm] at hsup ⊢
    by_cases hr : Rival q.claim p ∧ p.assertedAtMs < q.claim.assertedAtMs
    · rw [if_pos hr, mark, if_pos (hsup.mpr (Or.inr hr))]
    · rw [if_neg hr, mark_of_not_supersede (fun h => (hsup.mp h).elim hm hr)]

private theorem apart_of (hnd : (before.map Claim.id).Nodup) (hapart : ∀ p ∈ before, ∀ a ∈ q.stored, a.id ≠ p.id)
    (hown : ∀ p ∈ before, ∀ v ∈ own, v.id ≠ p.id) :
    ∀ p ∈ before, ∀ o ∈ q.stored ++ (before.map (mark own) ++ own), o.id = p.id → o = mark own p := by
  intro p hp o ho hid
  rcases List.mem_append.mp ho with ho | ho
  · exact absurd hid (hapart p hp o ho)
  · rcases List.mem_append.mp ho with ho | ho
    · obtain ⟨r, hr, rfl⟩ := List.mem_map.mp ho
      rw [List.inj_on_of_nodup_map hnd hr hp (id_mark own r ▸ hid)]
    · exact absurd hid (hown p hp o ho)

private theorem own_of_settle {es : List Claim} (hown : ∀ p ∈ before, ∀ v ∈ own, v.id ≠ p.id)
    (hnew : ∀ p ∈ before, p.id ≠ q.claim.id) :
    ∀ p ∈ before, ∀ v ∈ own.map (fade q.claim) ++ [settled q.claim es], v.id ≠ p.id := by
  intro p hp v hv
  rcases List.mem_append.mp hv with hv | hv
  · obtain ⟨o, ho, rfl⟩ := List.mem_map.mp hv
    rw [id_fade]
    exact hown p hp o ho
  · rw [List.mem_singleton.mp hv]
    exact (hnew p hp).symm

end Beside

/-- Whoever a pending claim supersedes is not live any more, as long as no id is used twice. -/
theorem not_active_of_supersede {qs : List Asked} (raw : ∀ q ∈ qs, Raw q.claim)
    (hnd : ((freshOf qs).map Claim.id).Nodup)
    (hapart : ∀ q ∈ qs, q.found = false → ∀ r ∈ qs, ∀ a ∈ r.stored, a.id ≠ q.claim.id) {p : Claim}
    (hp : p ∈ settleAll [] qs) (hs : Supersede (settleAll [] qs) p.id) : p.status ≠ .active := by
  suffices hall : ∀ p ∈ settleAll [] qs, Supersede (settleAll [] qs) p.id → p.status ≠ .active from hall p hp hs
  clear hp hs p
  refine settleAll_induction (P := fun ps => ∀ p ∈ ps, Supersede ps p.id → p.status ≠ .active) qs
    (fun p hp => absurd hp List.not_mem_nil) ?_
  intro done q rest hqs hf ih
  have hq : q ∈ qs := by rw [hqs]; simp
  have hids := ids_settleAll done
  have hfresh : freshOf qs = freshOf done ++ q.claim :: freshOf rest := by
    rw [hqs, freshOf_append]
    simp [freshOf, hf]
  rw [hfresh, List.map_append, List.map_cons, ← hids] at hnd
  have hdone : ∀ o ∈ settleAll [] done, ∃ d ∈ qs, d.found = false ∧ d.claim.id = o.id := by
    intro o ho
    obtain ⟨_, _, hsplit⟩ := List.append_of_mem ho
    obtain ⟨d, hd, hdf, hbare, _⟩ := pending_origin hsplit
    exact ⟨d, by rw [hqs]; simp [hd], hdf, (eq_of_bare Claim.id (fun _ => rfl) hbare).symm⟩
  have hother : ∀ o ∈ settleAll [] done, o.id ≠ q.claim.id := fun o ho =>
    (List.nodup_append.mp hnd).2.2 o.id (List.mem_map_of_mem ho) q.claim.id List.mem_cons_self
  have hnew : ∀ x, Supersede [settled q.claim (q.stored ++ settleAll [] done)] x ↔
      ∃ t, t < q.claim.assertedAtMs ∧ Sees q.claim (q.stored ++ settleAll [] done) x t := by
    intro x
    simp only [Supersede, List.mem_singleton, exists_eq_left]
    exact mem_supersedes_settled (raw q hq).2.1
  intro p hp hsup
  rw [supersede_append, supersede_map (supersedes_fade q.claim), hnew] at hsup
  rcases List.mem_append.mp hp with hp | hp
  · obtain ⟨o, ho, rfl⟩ := List.mem_map.mp hp
    rw [id_fade] at hsup
    intro hact
    have hfade : fade q.claim o = o := fade_of_active hact
    rcases hsup with hsup | ⟨t, hlt, r, hr, hrival, hid, hrt⟩
    · exact ih o ho hsup (hfade ▸ hact)
    · rcases List.mem_append.mp hr with hr | hr
      · obtain ⟨d, hd, hdf, hdo⟩ := hdone o ho
        exact hapart d hd hdf q hq r hr (hid.trans hdo.symm)
      · obtain rfl : r = o := List.inj_on_of_nodup_map (List.nodup_append.mp hnd).1 hr ho hid
        rw [fade, if_pos ⟨hrival, hrt ▸ hlt⟩] at hact
        exact absurd hact (by simp)
  · rw [List.mem_singleton.mp hp] at hsup
    rcases hsup with ⟨d, hd, hx⟩ | ⟨_, _, r, _, hrival, hid, _⟩
    · obtain ⟨as, bs, hsplit⟩ := List.append_of_mem hd
      have hraw : ∀ q ∈ done, Raw q.claim := fun d hd => raw d (by rw [hqs]; exact List.mem_append_left _ hd)
      obtain ⟨_, ⟨r, hr, _, a, ha, hid⟩ | ⟨e, he, hid⟩⟩ := pending_refers hraw hsplit (List.mem_append_left _ hx)
      · exact absurd hid (hapart q hq hf r (by rw [hqs]; exact List.mem_append_left _ hr) a ha)
      · exact absurd hid (hother e (by rw [hsplit]; exact List.mem_append_left _ he))
    · exact absurd hid hrival.1.1

/-- A fresh claim whose turn comes after the claims `before` are settled: it makes no difference
whether it then meets these as pending claims, or as stored ones that `after` have been written over. -/
structure Steady (before after now : List Claim) (q : Asked) : Prop where
  reread : ∀ a ∈ q.stored, Rival q.claim a → ¬ Supersede before a.id
  met : ∀ p ∈ before, Rival q.claim p →
    (¬ Supersede (now.drop before.length) p.id ↔ Shares q.claim p ∧ ¬ Supersede after p.id)
  unmixed : Unmixed q.claim (q.stored ++ now) (now.drop before.length)

instance (before after now : List Claim) (q : Asked) : Decidable (Steady before after now q) :=
  decidable_of_iff ((∀ a ∈ q.stored, Rival q.claim a → ¬ Supersede before a.id) ∧
    (∀ p ∈ before, Rival q.claim p →
      (¬ Supersede (now.drop before.length) p.id ↔ Shares q.claim p ∧ ¬ Supersede after p.id)) ∧
    Unmixed q.claim (q.stored ++ now) (now.drop before.length))
    ⟨fun h => ⟨h.1, h.2.1, h.2.2⟩, fun h => ⟨h.reread, h.met, h.unmixed⟩⟩

/-- The answers to one claim in two passes. The second one finds stored what the first one finds stored,
and the claims `before` that share a subject, each as `before` and `after` left it. -/
structure Counterpart {β : Type} (view : Claim → β) (before after : List Claim) (q q' : Asked) : Prop where
  shown : view q.claim = view q'.claim
  raw : Raw q.claim
  raw' : Raw q'.claim
  found : q.found = q'.found
  new : ∀ p ∈ before, q.found = false → p.id ≠ q.claim.id
  apart : ∀ p ∈ before, ∀ a ∈ q.stored, a.id ≠ p.id
  reads : q.found = false → ∀ x t, Sees q'.claim q'.stored x t ↔
    (∃ a ∈ q.stored, (Rival q.claim a ∧ ¬ Supersede before a.id) ∧ a.id = x ∧ a.assertedAtMs = t) ∨
    ∃ p ∈ before, (Rival q.claim p ∧ Shares q.claim p ∧ ¬ Supersede after p.id) ∧ p.id = x ∧ p.assertedAtMs = t

section Counterpart
variable {β : Type} {view : Claim → β} {before after own own' : List Claim} {q q' : Asked}

private theorem Counterpart.sees (h : Counterpart view before after q q') (hf : q.found = false)
    (hs : Steady before after (before.map (mark own) ++ own) q) (x : String) (t : Int) :
    Sees q.claim (q.stored ++ before.map (mark own)) x t ↔ Sees q'.claim q'.stored x t := by
  have hdrop : (before.map (mark own) ++ own).drop before.length = own := by
    rw [List.drop_append_of_le_length (by simp)]
    simp
  rw [h.reads hf, sees_append]
  refine or_congr ⟨fun ⟨a, ha, hr, hx⟩ => ⟨a, ha, ⟨hr, hs.reread a ha hr⟩, hx⟩, fun ⟨a, ha, hr, hx⟩ => ⟨a, ha, hr.1, hx⟩⟩ ?_
  have hmet := hs.met
  rw [hdrop] at hmet
  constructor
  · intro ⟨o, ho, hr, hx, ht⟩
    obtain ⟨p, hp, rfl⟩ := List.mem_map.mp ho
    obtain ⟨hrp, hown⟩ := rival_mark.mp hr
    have hat : (mark own p).assertedAtMs = p.assertedAtMs := eq_of_bare Claim.assertedAtMs (fun _ => rfl) (bare_mark own p)
    exact ⟨p, hp, ⟨hrp, (hmet p hp hrp).mp hown⟩, id_mark own p ▸ hx, hat ▸ ht⟩
  · intro ⟨p, hp, ⟨hrp, hkept⟩, hx, ht⟩
    have hown : ¬ Supersede own p.id := (hmet p hp hrp).mpr hkept
    refine ⟨mark own p, List.mem_map_of_mem hp, rival_mark.mpr ⟨hrp, hown⟩, ?_⟩
    rw [mark_of_not_supersede hown]
    exact ⟨hx, ht⟩

/-- Both passes settle their claims alike, as long as every claim is steady when its turn comes. -/
theorem settleAll_alike (ht : Telling view) (hnd : (before.map Claim.id).Nodup) {qs qs' : List Asked}
    (hqs : List.Forall₂ (Counterpart view before after) qs qs') (hown : List.Forall₂ (Alike view) own own')
    (hnew : ∀ p ∈ before, ∀ v ∈ own, v.id ≠ p.id)
    (hs : EveryTurn (Steady before after) (before.map (mark own) ++ own) qs) :
    ∃ own₁, settleAll (before.map (mark own) ++ own) qs = before.map (mark own₁) ++ own₁ ∧
      List.Forall₂ (Alike view) own₁ (settleAll own' qs') := by
  induction hqs generalizing own own' with
  | nil => exact ⟨own, rfl, hown⟩
  | @cons q q' qs qs' hq _ ih =>
    obtain ⟨hturn, hrest⟩ := hs
    rw [settleAll_cons, settleAll_cons]
    by_cases hf : q.found
    · rw [settle_found hf] at hrest ⊢
      rw [settle_found (hq.found ▸ hf)]
      exact ih hown hnew hrest
    · have hf : q.found = false := by simpa using hf
      have hf' : q'.found = false := hq.found ▸ hf
      have hstep := settle_beside hf hq.raw (apart_of hnd hq.apart hnew)
      rw [hstep] at hrest ⊢
      rw [settle_fresh hf']
      refine ih ?_ ?_ hrest
      · have hu := (hturn hf).unmixed
        rw [← List.append_assoc, List.drop_append_of_le_length (by simp), List.drop_of_length_le (by simp), List.nil_append] at hu
        have hsees := hq.sees hf (hturn hf)
        have hst := status_settled_of_unmixed ht (ht.gist hq.shown) hq.raw hq.raw' hown hsees hu
        have hsettled := settled_alike ht hq.shown hq.raw hq.raw' hown (fun x => by simp only [hsees]) (fun x => hsees x _) hst
        rw [List.append_assoc] at hsettled
        exact settle_alike ht hq.shown hown hsettled
      · exact own_of_settle hnew (fun p hp => hq.new p hp hf)

/-- What is settled after `before` with nothing of its own yet is what is settled in a pass of its own. -/
theorem settleAll_alike_afresh (ht : Telling view) (hnd : (before.map Claim.id).Nodup) {qs qs' : List Asked}
    (hqs : List.Forall₂ (Counterpart view before after) qs qs') (hs : EveryTurn (Steady before after) before qs) :
    ∃ own, settleAll before qs = before.map (mark own) ++ own ∧ List.Forall₂ (Alike view) own (settleAll [] qs') := by
  have hafresh : before.map (mark []) ++ [] = before := by rw [map_mark_nil, List.append_nil]
  have halike := settleAll_alike ht hnd hqs .nil (fun _ _ v hv => absurd hv List.not_mem_nil) (by rwa [hafresh])
  rwa [hafresh] at halike

end Counterpart

end Memorai.Resolver
