import Memorai.Ingestion.Laps

/-! The first claims of a batch, and what the rest of it finds stored once these are written. -/
namespace Memorai.Ingestion
open Schema Memorai.Graph Storage Extraction Resolver

/-- New claims of one owner, settled in a batch and not stored yet. -/
structure Ahead (s : Store) (ownerId : String) (ps : List Claim) : Prop where
  ids : (ps.map Claim.id).Nodup
  new : ∀ p ∈ ps, s.claim? p.id = none
  owner : ∀ p ∈ ps, p.ownerId = ownerId
  settled : ∀ p ∈ ps, Supersede ps p.id → p.status ≠ .active

section Ask
variable {s : Store} {job : Job} {done rest : List Claim} {rows : RowOrder Claim}

theorem mem_claims {c : Claim} (hc : c ∈ job.claims) : c.ownerId = job.ownerId ∧ Raw c := by
  obtain ⟨m, hm, hcm⟩ := List.mem_flatMap.mp hc
  obtain ⟨p, hp, rfl⟩ := List.mem_map.mp hm
  exact ⟨(job.contract p hp c hcm).owner, job.raw_claims c hc⟩

theorem freshOf_ask (cs : List Claim) (ownerId : String) :
    freshOf (cs.map (ask rows s ownerId)) = cs.filter (Job.fresh s) := by
  rw [freshOf, List.filter_map, List.map_map]
  have hcomp : Asked.claim ∘ ask rows s ownerId = id := rfl
  rw [hcomp, List.map_id]
  refine List.filter_congr (fun c _ => ?_)
  cases h : s.get c.id <;> simp [ask, Job.fresh, h]

theorem claim?_of_not_found {c : Claim} {ownerId : String} (h : (ask rows s ownerId c).found = false) :
    s.claim? c.id = none := Store.claim?_eq_none_of_get (by simpa [ask] using h)

theorem mem_stored_ask_iff (hs : Keyed s) {c a : Claim} {ownerId : String} :
    a ∈ (ask rows s ownerId c).stored ↔ s.claim? a.id = some a ∧ a.ownerId = ownerId ∧
      ∃ e ∈ c.subjectEntityIds, (Store.claimKey a.id, Rel.about, Store.entityKey e) ∈ s.edges :=
  (rows.perm _).mem_iff.trans (Store.mem_claimsAbout hs.columns _ _ _)

theorem claim?_of_mem_stored (hs : Keyed s) {c a : Claim} {ownerId : String} (h : a ∈ (ask rows s ownerId c).stored) :
    s.claim? a.id = some a := ((mem_stored_ask_iff hs).mp h).1

/-- Every settled claim is one of the fresh claims asked about, but for what was decided. -/
theorem fresh_of_mem_settleAll {cs : List Claim} {ownerId : String} {p : Claim}
    (hp : p ∈ settleAll [] (cs.map (ask rows s ownerId))) :
    ∃ c ∈ cs, (ask rows s ownerId c).found = false ∧ bare p = bare c := by
  have hbare := settleAll_bare [] (cs.map (ask rows s ownerId))
  rw [List.map_nil, List.nil_append] at hbare
  obtain ⟨c, hc, hpc⟩ := List.mem_map.mp (hbare ▸ List.mem_map_of_mem hp)
  obtain ⟨q, hq, rfl⟩ := List.mem_map.mp hc
  obtain ⟨hq, hf⟩ := List.mem_filter.mp hq
  obtain ⟨d, hd, rfl⟩ := List.mem_map.mp hq
  exact ⟨d, hd, by simpa using hf, hpc.symm⟩

/-- The first claims of a batch, settled. -/
theorem ahead_of_asked (hs : Keyed s) (hd : DistinctFresh job s) (hsplit : job.claims = done ++ rest) :
    Ahead s job.ownerId (settleAll [] (done.map (ask rows s job.ownerId))) := by
  have hraw : ∀ q ∈ done.map (ask rows s job.ownerId), Raw q.claim := by
    intro q hq
    obtain ⟨c, hc, rfl⟩ := List.mem_map.mp hq
    exact (mem_claims (by rw [hsplit]; exact List.mem_append_left _ hc)).2
  have hfresh : ((freshOf (done.map (ask rows s job.ownerId))).map Claim.id).Nodup := by
    rw [DistinctFresh, hsplit, List.filter_append, List.map_append] at hd
    rw [freshOf_ask]
    exact (List.nodup_append.mp hd).1
  refine ⟨?_, ?_, ?_, ?_⟩
  · rw [ids_settleAll]
    exact hfresh
  · intro p hp
    obtain ⟨c, _, hf, hpc⟩ := fresh_of_mem_settleAll hp
    rw [eq_of_bare Claim.id (fun _ => rfl) hpc]
    exact claim?_of_not_found hf
  · intro p hp
    obtain ⟨c, hc, _, hpc⟩ := fresh_of_mem_settleAll hp
    rw [eq_of_bare Claim.ownerId (fun _ => rfl) hpc]
    exact (mem_claims (by rw [hsplit]; exact List.mem_append_left _ hc)).1
  · intro p hp hsup
    refine not_active_of_supersede hraw hfresh (fun q hq hf r hr a ha hid => ?_) hp hsup
    obtain ⟨c, _, rfl⟩ := List.mem_map.mp hq
    obtain ⟨d, _, rfl⟩ := List.mem_map.mp hr
    have ha' : s.claim? c.id = some a := hid ▸ claim?_of_mem_stored hs ha
    exact absurd (claim?_of_not_found hf) (by rw [ha']; simp)

/-- No fresh claim of the rest has the id of one settled before it. -/
theorem ne_of_asked (hd : DistinctFresh job s) (hsplit : job.claims = done ++ rest) {c p : Claim} (hc : c ∈ rest)
    (hf : Job.fresh s c) (hp : p ∈ settleAll [] (done.map (ask rows s job.ownerId))) : p.id ≠ c.id := by
  obtain ⟨d, hdm, hdf, hpd⟩ := fresh_of_mem_settleAll hp
  have hfresh : Job.fresh s d := by
    cases h : s.get d.id with
    | none => simp [Job.fresh, h]
    | some r => simp [ask, h] at hdf
  rw [DistinctFresh, hsplit, List.filter_append, List.map_append] at hd
  rw [eq_of_bare Claim.id (fun _ => rfl) hpd]
  exact (List.nodup_append.mp hd).2.2 d.id (List.mem_map_of_mem (List.mem_filter.mpr ⟨hdm, hfresh⟩)) c.id
    (List.mem_map_of_mem (List.mem_filter.mpr ⟨hc, hf⟩))

end Ask

section Counterpart
variable {β : Type} {view : Claim → β} {s s' : Store} {before after : List Claim} {ownerId : String}
  {rows rows' : RowOrder Claim} {c c' : Claim}

private theorem find?_of_mem {cs : List Claim} (hnd : (cs.map Claim.id).Nodup) {p : Claim} (hp : p ∈ cs) :
    cs.find? (fun c => c.id = p.id) = some p := by
  cases hf : cs.find? (fun c => c.id = p.id) with
  | none => exact absurd (List.find?_eq_none.mp hf p hp) (by simp)
  | some q =>
    have hid : q.id = p.id := by simpa using List.find?_some hf
    rw [List.inj_on_of_nodup_map hnd (List.mem_of_find?_eq_some hf) hp hid]

private theorem ids_mark (cs after : List Claim) : (cs.map (mark after)).map Claim.id = cs.map Claim.id := by
  rw [List.map_map]
  exact List.map_congr_left (fun p _ => id_mark after p)

/-- An edge to a subject: of a claim stored before, or of one of those laid over it. -/
private theorem about_iff (hl : Layered view s s' (before.map (mark after))) (x e : String) :
    (Store.claimKey x, Rel.about, Store.entityKey e) ∈ s'.edges ↔
      (Store.claimKey x, Rel.about, Store.entityKey e) ∈ s.edges ∨ ∃ p ∈ before, p.id = x ∧ e ∈ p.subjectEntityIds := by
  rw [hl.edges _ _ _ (by simp) (by simp)]
  refine or_congr Iff.rfl ?_
  simp only [List.mem_map, exists_exists_and_eq_and, id_mark, linked_mark]
  constructor
  · intro ⟨p, hp, hk, t, ht, hj⟩
    have hx : x = p.id := congrArg NodeKey.id hk
    have he : e = t := congrArg NodeKey.id hj
    exact ⟨p, hp, hx.symm, he ▸ ht⟩
  · intro ⟨p, hp, hx, he⟩
    exact ⟨p, hp, by rw [hx], e, he, rfl⟩

/-- What is stored of a claim is that claim, marked by the batch. -/
private theorem rel_claim? (hl : Layered view s s' (before.map (mark after))) (y : String) :
    Option.Rel (Alike view) ((entry s (before.map (mark after)) y).map (mark before)) (s'.claim? y) := by
  have hmarks : ∀ y, Supersede (before.map (mark after)) y ↔ Supersede before y :=
    fun y => supersede_map (supersedes_mark after)
  have hmark : mark before = mark (before.map (mark after)) := funext (mark_congr (fun y => (hmarks y).symm))
  rw [hmark]
  exact hl.claims y

private theorem entry_of_claim? (hl : Layered view s s' (before.map (mark after))) {y : String} {a : Claim}
    (h : s'.claim? y = some a) : ∃ o, entry s (before.map (mark after)) y = some o ∧ Alike view (mark before o) a := by
  have hy := rel_claim? hl y
  rw [h] at hy
  cases hent : entry s (before.map (mark after)) y with
  | none => rw [hent] at hy; cases hy
  | some o =>
    rw [hent] at hy
    cases hy with
    | some hal => exact ⟨o, rfl, hal⟩

private theorem claim?_of_entry (hl : Layered view s s' (before.map (mark after))) {y : String} {o : Claim}
    (h : entry s (before.map (mark after)) y = some o) : ∃ a, s'.claim? y = some a ∧ Alike view (mark before o) a := by
  have hy := rel_claim? hl y
  rw [h, Option.map_some] at hy
  cases hrow : s'.claim? y with
  | none => rw [hrow] at hy; cases hy
  | some a =>
    rw [hrow] at hy
    cases hy with
    | some hal => exact ⟨a, rfl, hal⟩

private theorem entry_of_mem (ha : Ahead s ownerId before) {p : Claim} (hp : p ∈ before) :
    entry s (before.map (mark after)) p.id = some (mark after p) := by
  have hnd : ((before.map (mark after)).map Claim.id).Nodup := by
    rw [ids_mark]
    exact ha.ids
  have hfind := find?_of_mem hnd (List.mem_map_of_mem (f := mark after) hp)
  rw [id_mark] at hfind
  rw [entry, ha.new p hp, Option.none_or, hfind]

/-- A claim that is not stored yet has no edge. -/
private theorem not_mem_edges (ha : Ahead s ownerId before) {p : Claim} (hp : p ∈ before) (e : String) :
    (Store.claimKey p.id, Rel.about, Store.entityKey e) ∉ s.edges := by
  intro he
  obtain ⟨d, hd⟩ := (Store.claim?_isSome_iff s p.id).mpr (s.joined _ he).1
  rw [ha.new p hp] at hd
  exact absurd hd (by simp)

private theorem told_of_alike (ht : Telling view) {o a : Claim} (hal : Alike view (mark before o) a) :
    a.id = o.id ∧ a.ownerId = o.ownerId ∧ a.assertedAtMs = o.assertedAtMs := by
  have hga : gist a = gist o := (ht.gist hal.shown).symm.trans (eq_of_bare gist (fun _ => rfl) (bare_mark before o))
  exact ⟨eq_of_gist Gist.id hga, eq_of_gist Gist.ownerId hga, eq_of_gist Gist.assertedAtMs hga⟩

private theorem rival_of_alike (ht : Telling view) (hg : gist c = gist c') {o a : Claim} (hal : Alike view (mark before o) a) :
    Rival c' a ↔ Rival c o ∧ ¬ Supersede before o.id := by
  rw [← rival_mark]
  exact (rival_congr hg (ht.gist hal.shown) hal.status).symm

/-- What a claim meets after the batch `before`: a live rival stored before it, which the batch leaves alone. -/
private def MeetsStored (s : Store) (rows : RowOrder Claim) (ownerId : String) (before : List Claim) (c : Claim) (x : String)
    (t : Int) : Prop :=
  ∃ a ∈ (ask rows s ownerId c).stored, (Rival c a ∧ ¬ Supersede before a.id) ∧ a.id = x ∧ a.assertedAtMs = t

/-- Or a live rival of the batch that shares a subject. -/
private def MeetsBatch (before after : List Claim) (c : Claim) (x : String) (t : Int) : Prop :=
  ∃ p ∈ before, (Rival c p ∧ Shares c p ∧ ¬ Supersede after p.id) ∧ p.id = x ∧ p.assertedAtMs = t

private theorem meets_of_sees (ht : Telling view) (hs : Keyed s) (hs' : Keyed s') (ha : Ahead s ownerId before)
    (hl : Layered view s s' (before.map (mark after))) (hv : view c = view c') {x : String} {t : Int}
    (h : Sees c' (ask rows' s' ownerId c').stored x t) :
    MeetsStored s rows ownerId before c x t ∨ MeetsBatch before after c x t := by
  obtain ⟨a, hst, hr, hax, hat⟩ := h
  have hg : gist c = gist c' := ht.gist hv
  obtain ⟨hrow, hown, e, he, hedge⟩ := (mem_stored_ask_iff hs').mp hst
  have hsub : c.subjectEntityIds = c'.subjectEntityIds := eq_of_gist Gist.subjectEntityIds hg
  rw [← hsub] at he
  obtain ⟨o, hent, hal⟩ := entry_of_claim? hl hrow
  obtain ⟨hid, howno, htime⟩ := told_of_alike ht hal
  obtain ⟨hro, hnsup⟩ := (rival_of_alike ht hg hal).mp hr
  rcases Option.or_eq_some_iff.mp hent with hso | ⟨_, hfind⟩
  · have hedgeo : (Store.claimKey o.id, Rel.about, Store.entityKey e) ∈ s.edges := by
      rcases (about_iff hl a.id e).mp hedge with hedge | ⟨p, hp, hpid, _⟩
      · exact hid ▸ hedge
      · rw [← hpid, ha.new p hp] at hso
        exact absurd hso (by simp)
    have hsto : o ∈ (ask rows s ownerId c).stored :=
      (mem_stored_ask_iff hs).mpr ⟨hid ▸ hso, howno.symm.trans hown, e, he, hedgeo⟩
    exact .inl ⟨o, hsto, ⟨hro, hnsup⟩, hid.symm.trans hax, htime.symm.trans hat⟩
  · obtain ⟨p, hp, rfl⟩ := List.mem_map.mp (List.mem_of_find?_eq_some hfind)
    rw [id_mark] at hid
    have hsubject : e ∈ p.subjectEntityIds := by
      rcases (about_iff hl a.id e).mp hedge with hedge | ⟨q, hq, hqid, hqe⟩
      · rw [hid] at hedge
        exact absurd hedge (not_mem_edges ha hp e)
      · rwa [List.inj_on_of_nodup_map ha.ids hq hp (hqid.trans hid)] at hqe
    obtain ⟨hrp, hnsupa⟩ := rival_mark.mp hro
    have htp : (mark after p).assertedAtMs = p.assertedAtMs :=
      eq_of_bare Claim.assertedAtMs (fun _ => rfl) (bare_mark after p)
    exact .inr ⟨p, hp, ⟨hrp, ⟨e, he, hsubject⟩, hnsupa⟩, hid.symm.trans hax, htp ▸ (htime.symm.trans hat)⟩

private theorem sees_of_meetsStored (ht : Telling view) (hs : Keyed s) (hs' : Keyed s')
    (hl : Layered view s s' (before.map (mark after))) (hv : view c = view c') {x : String} {t : Int}
    (h : MeetsStored s rows ownerId before c x t) : Sees c' (ask rows' s' ownerId c').stored x t := by
  obtain ⟨a, hst, ⟨hr, hnsup⟩, hax, hat⟩ := h
  have hg : gist c = gist c' := ht.gist hv
  obtain ⟨hrow, hown, e, he, hedge⟩ := (mem_stored_ask_iff hs).mp hst
  have hsub : c.subjectEntityIds = c'.subjectEntityIds := eq_of_gist Gist.subjectEntityIds hg
  rw [hsub] at he
  have hent : entry s (before.map (mark after)) a.id = some a := by rw [entry, hrow, Option.some_or]
  obtain ⟨b, hb, hal⟩ := claim?_of_entry hl hent
  obtain ⟨hid, hownb, htime⟩ := told_of_alike ht hal
  have hedgeb : (Store.claimKey b.id, Rel.about, Store.entityKey e) ∈ s'.edges := by
    rw [hid]
    exact (about_iff hl a.id e).mpr (Or.inl hedge)
  have hstb : b ∈ (ask rows' s' ownerId c').stored :=
    (mem_stored_ask_iff hs').mpr ⟨hid ▸ hb, hownb.trans hown, e, he, hedgeb⟩
  exact ⟨b, hstb, (rival_of_alike ht hg hal).mpr ⟨hr, hnsup⟩, hid.trans hax, htime.trans hat⟩

private theorem sees_of_meetsBatch (ht : Telling view) (hs' : Keyed s') (ha : Ahead s ownerId before)
    (hl : Layered view s s' (before.map (mark after))) (hv : view c = view c') {x : String} {t : Int}
    (h : MeetsBatch before after c x t) : Sees c' (ask rows' s' ownerId c').stored x t := by
  obtain ⟨p, hp, ⟨hr, ⟨e, he, hep⟩, hnsup⟩, hpx, hpt⟩ := h
  have hg : gist c = gist c' := ht.gist hv
  have hsub : c.subjectEntityIds = c'.subjectEntityIds := eq_of_gist Gist.subjectEntityIds hg
  rw [hsub] at he
  obtain ⟨b, hb, hal⟩ := claim?_of_entry hl (entry_of_mem ha hp)
  obtain ⟨hid, hownb, htime⟩ := told_of_alike ht hal
  rw [id_mark] at hid
  have hownp : (mark after p).ownerId = p.ownerId := eq_of_bare Claim.ownerId (fun _ => rfl) (bare_mark after p)
  have htp : (mark after p).assertedAtMs = p.assertedAtMs :=
    eq_of_bare Claim.assertedAtMs (fun _ => rfl) (bare_mark after p)
  have hkept : ¬ Supersede before (mark after p).id := by
    rw [id_mark]
    exact fun hsup => ha.settled p hp hsup hr.2
  have hedgeb : (Store.claimKey b.id, Rel.about, Store.entityKey e) ∈ s'.edges := by
    rw [hid]
    exact (about_iff hl p.id e).mpr (Or.inr ⟨p, hp, rfl, hep⟩)
  have hstb : b ∈ (ask rows' s' ownerId c').stored :=
    (mem_stored_ask_iff hs').mpr ⟨hid ▸ hb, (hownb.trans hownp).trans (ha.owner p hp), e, he, hedgeb⟩
  exact ⟨b, hstb, (rival_of_alike ht hg hal).mpr ⟨rival_mark.mpr ⟨hr, hnsup⟩, hkept⟩, hid.trans hpx,
    (htime.trans htp).trans hpt⟩

/-- One claim asked about before the batch `before` is stored, and after. -/
theorem counterpart_of_layered (ht : Telling view) (hs : Keyed s) (hs' : Keyed s') (ha : Ahead s ownerId before)
    (hl : Layered view s s' (before.map (mark after))) (hv : view c = view c') (hraw : Raw c) (hraw' : Raw c')
    (htag : Tagged (Store.claimKey c.id)) (hnew : ∀ p ∈ before, s.claim? c.id = none → p.id ≠ c.id) :
    Counterpart view before after (ask rows s ownerId c) (ask rows' s' ownerId c') where
  shown := hv
  raw := hraw
  raw' := hraw'
  found := by
    have hid : c.id = c'.id := eq_of_gist Gist.id (ht.gist hv)
    have hnone : s.claim? c.id = none ↔ s'.claim? c'.id = none := by
      rw [← hid]
      have hy := hl.claims c.id
      constructor
      · intro hn
        have hfind : (before.map (mark after)).find? (fun d => d.id = c.id) = none := by
          rw [List.find?_eq_none]
          intro d hd
          obtain ⟨p, hp, rfl⟩ := List.mem_map.mp hd
          simpa using hnew p hp hn
        rw [entry, hn, Option.none_or, hfind, Option.map_none] at hy
        cases hc : s'.claim? c.id with
        | none => rfl
        | some d => rw [hc] at hy; cases hy
      · intro hn
        cases hc : s.claim? c.id with
        | none => rfl
        | some d =>
          obtain ⟨e, he, _⟩ := hl.stored hc
          rw [hn] at he
          exact absurd he (by simp)
    have hget := hs.tagged.get_isNone_iff htag
    have hget' := hs'.tagged.get_isNone_iff (hid ▸ htag)
    have hiff : (s.get c.id).isNone ↔ (s'.get c'.id).isNone := hget.trans (hnone.trans hget'.symm)
    change (s.get c.id).isSome = (s'.get c'.id).isSome
    cases hg : s.get c.id <;> cases hg' : s'.get c'.id <;> simp [hg, hg'] at hiff ⊢
  new p hp hf := hnew p hp (claim?_of_not_found hf)
  apart p hp a hst hid := by
    have h := claim?_of_mem_stored hs hst
    rw [hid, ha.new p hp] at h
    exact absurd h (by simp)
  reads _ x t := by
    constructor
    · exact meets_of_sees ht hs hs' ha hl hv
    · intro h
      rcases h with h | h
      · exact sees_of_meetsStored ht hs hs' hl hv h
      · exact sees_of_meetsBatch ht hs' ha hl hv h

end Counterpart
end Memorai.Ingestion
