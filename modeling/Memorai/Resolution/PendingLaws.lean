import Memorai.Resolution.ResolverLaws

/-! Invariants of the pending claims of one batch, kept by every claim that is settled. -/
namespace Memorai.Resolver
open Schema Storage

@[simp] theorem mem_earlier (c o : Claim) (es : List Claim) :
    o ∈ earlier c es ↔ o ∈ es ∧ Rival c o ∧ o.assertedAtMs < c.assertedAtMs := by simp [earlier]

@[simp] theorem mem_contemporary (c o : Claim) (es : List Claim) :
    o ∈ contemporary c es ↔ o ∈ es ∧ Rival c o ∧ o.assertedAtMs = c.assertedAtMs := by simp [contemporary]

@[simp] theorem mem_later (c o : Claim) (es : List Claim) :
    o ∈ later c es ↔ o ∈ es ∧ Rival c o ∧ c.assertedAtMs < o.assertedAtMs := by simp [later]

@[simp] theorem id_fade (c o : Claim) : (fade c o).id = o.id := eq_of_bare Claim.id (fun _ => rfl) (bare_fade c o)

theorem supersedes_fade (c o : Claim) : (fade c o).supersedes = o.supersedes := by
  unfold fade; split <;> rfl

theorem contradicts_fade (c o : Claim) : (fade c o).contradicts = o.contradicts := by
  unfold fade; split <;> rfl

/-- A claim is only ever faded out: one that is still active was not touched. -/
theorem fade_of_active {c o : Claim} (h : (fade c o).status = .active) : fade c o = o := by
  unfold fade at h ⊢
  split
  · rename_i hr
    rw [if_pos hr] at h
    exact absurd h (by simp)
  · rfl

theorem fade_of_superseded {c o : Claim} (h : (fade c o).status = .superseded) :
    o.status = .superseded ∨ (Rival c o ∧ o.assertedAtMs < c.assertedAtMs) := by
  unfold fade at h
  split at h
  · exact Or.inr ‹_›
  · exact Or.inl h

theorem status_foldl_active (c : Claim) (es : List Claim) (st : ClaimStatus) :
    es.foldl (verdict c) st = .active ↔ st = .active ∧ ∀ o ∈ es, Rival c o → o.assertedAtMs < c.assertedAtMs := by
  induction es generalizing st with
  | nil => simp
  | cons o es ih =>
    have hv : verdict c st o = .active ↔ st = .active ∧ (Rival c o → o.assertedAtMs < c.assertedAtMs) := by
      unfold verdict
      by_cases hr : Rival c o
      · rcases lt_trichotomy o.assertedAtMs c.assertedAtMs with ht | ht | ht
        · simp [hr, ht, ht.ne, not_lt_of_gt ht]
        · simp [hr, ht]
        · simp [hr, ht, ht.ne', not_lt_of_gt ht]
      · simp [hr]
    rw [List.foldl_cons, ih, hv]
    simp only [List.mem_cons, forall_eq_or_imp, and_assoc]

theorem status_settled_active (c : Claim) (es : List Claim) :
    (settled c es).status = .active ↔
      c.status = .active ∧ ∀ o ∈ es, Rival c o → o.assertedAtMs < c.assertedAtMs := status_foldl_active c es c.status

/-- Nothing but a late arrival is born superseded. -/
theorem status_settled_superseded {c : Claim} {es : List Claim} (h : (settled c es).status = .superseded) :
    c.status = .superseded ∨ ∃ o ∈ es, o ∈ later c es := by
  have hfold : ∀ (st : ClaimStatus), es.foldl (verdict c) st = .superseded →
      st = .superseded ∨ ∃ o ∈ es, Rival c o ∧ c.assertedAtMs < o.assertedAtMs := by
    clear h
    induction es with
    | nil => exact fun st h => Or.inl h
    | cons o es ih =>
      intro st h
      rcases ih _ h with hv | ⟨p, hp, hpr⟩
      · unfold verdict at hv
        split at hv
        · split at hv
          · exact absurd hv (by simp)
          · split at hv
            · exact Or.inr ⟨o, List.mem_cons_self, ‹_›, ‹_›⟩
            · exact Or.inl hv
        · exact Or.inl hv
      · exact Or.inr ⟨p, List.mem_cons_of_mem _ hp, hpr⟩
  rcases hfold c.status h with h | ⟨o, ho, hr⟩
  · exact Or.inl h
  · exact Or.inr ⟨o, ho, (mem_later c o es).mpr ⟨ho, hr⟩⟩

/-- Without a contemporary rival, a claim is superseded or stays as it was. -/
theorem status_settled_of_no_contemporary {c : Claim} {es : List Claim} (h : contemporary c es = []) :
    (settled c es).status = c.status ∨ (settled c es).status = .superseded := by
  suffices hfold : ∀ st, es.foldl (verdict c) st = st ∨ es.foldl (verdict c) st = .superseded from hfold c.status
  have hno : ∀ o ∈ es, Rival c o → o.assertedAtMs ≠ c.assertedAtMs := by
    intro o ho hr ht
    have hmem : o ∈ contemporary c es := (mem_contemporary c o es).mpr ⟨ho, hr, ht⟩
    rw [h] at hmem
    exact absurd hmem List.not_mem_nil
  clear h
  induction es with
  | nil => exact fun st => Or.inl rfl
  | cons o es ih =>
    intro st
    have hv : verdict c st o = st ∨ verdict c st o = .superseded := by
      unfold verdict
      split
      · rw [if_neg (hno o List.mem_cons_self ‹_›)]
        split
        · exact Or.inr rfl
        · exact Or.inl rfl
      · exact Or.inl rfl
    rw [List.foldl_cons]
    rcases ih (fun p hp => hno p (List.mem_cons_of_mem _ hp)) (verdict c st o) with h | h
    · rw [h]; exact hv
    · exact Or.inr h

/-- Induction over the settling of a batch, one fresh claim at a time. -/
theorem settleAll_induction {P : List Claim → Prop} (qs : List Asked) (h0 : P [])
    (hstep : ∀ done q rest, qs = done ++ q :: rest → q.found = false → P (settleAll [] done) →
      P ((settleAll [] done).map (fade q.claim) ++ [settled q.claim (q.stored ++ settleAll [] done)])) :
    P (settleAll [] qs) := by
  suffices h : ∀ done rest, qs = done ++ rest → P (settleAll [] done) from h qs [] (by simp)
  intro done
  induction done using List.reverseRecOn with
  | nil => exact fun _ _ => h0
  | append_singleton done q ih =>
    intro rest hq
    have hq : qs = done ++ q :: rest := by simpa using hq
    rw [settleAll_append]
    change P (settle (settleAll [] done) q)
    unfold settle
    by_cases hf : q.found
    · rw [if_pos hf]
      exact ih (q :: rest) hq
    · rw [if_neg hf]
      exact hstep done q rest hq (by simpa using hf) (ih (q :: rest) hq)

variable {qs : List Asked}

/-- No two live versions among the pending claims. -/
theorem pending_settled {b d : Claim} (hb : b ∈ settleAll [] qs) (hd : d ∈ settleAll [] qs)
    (hba : b.status = .active) (hda : d.status = .active) : ¬ Disputes b d := by
  suffices hall : ∀ b d, b ∈ settleAll [] qs → d ∈ settleAll [] qs →
      b.status = .active → d.status = .active → ¬ Disputes b d from hall b d hb hd hba hda
  clear hb hd hba hda b d
  refine settleAll_induction (P := fun ps => ∀ b d, b ∈ ps → d ∈ ps → b.status = .active → d.status = .active →
    ¬ Disputes b d) qs (fun b d hb => absurd hb List.not_mem_nil) ?_
  intro done q rest _ _ ih
  -- A new claim that stays active has only earlier rivals, and those it fades out.
  have hnew : ∀ d ∈ (settleAll [] done).map (fade q.claim), d.status = .active →
      (settled q.claim (q.stored ++ settleAll [] done)).status = .active → ¬ Disputes q.claim d := by
    intro d hd hda hca hdis
    obtain ⟨o, ho, rfl⟩ := List.mem_map.mp hd
    have hfade := fade_of_active hda
    rw [hfade] at hda hdis
    have hlt := ((status_settled_active _ _).mp hca).2 o (List.mem_append_right _ ho) ⟨hdis, hda⟩
    rw [fade, if_pos ⟨⟨hdis, hda⟩, hlt⟩] at hfade
    exact absurd (congrArg Claim.status hfade) (by rw [hda]; simp)
  intro b d hb hd hba hda
  rcases List.mem_append.mp hb with hb | hb <;> rcases List.mem_append.mp hd with hd | hd
  · obtain ⟨b, hob, rfl⟩ := List.mem_map.mp hb
    obtain ⟨d, hod, rfl⟩ := List.mem_map.mp hd
    have hfb := fade_of_active hba
    have hfd := fade_of_active hda
    rw [hfb] at hba ⊢
    rw [hfd] at hda ⊢
    exact ih b d hob hod hba hda
  · rw [List.mem_singleton.mp hd] at hda ⊢
    exact fun h => hnew b hb hba hda h.symm
  · rw [List.mem_singleton.mp hb] at hba ⊢
    exact hnew d hd hda hba
  · rw [List.mem_singleton.mp hb, List.mem_singleton.mp hd]
    exact fun h => h.1 rfl

/-- Where a pending claim that is still active was settled: every live rival stored then is earlier, and superseded. -/
theorem pending_supersedes_stored {b : Claim} (hb : b ∈ settleAll [] qs) (hba : b.status = .active) :
    ∃ q ∈ qs, q.found = false ∧ bare b = bare q.claim ∧
      ∀ a ∈ q.stored, Rival b a → a.assertedAtMs < b.assertedAtMs ∧ a.id ∈ b.supersedes := by
  suffices hall : ∀ b, b ∈ settleAll [] qs → b.status = .active → ∃ q ∈ qs, q.found = false ∧ bare b = bare q.claim ∧
      ∀ a ∈ q.stored, Rival b a → a.assertedAtMs < b.assertedAtMs ∧ a.id ∈ b.supersedes from hall b hb hba
  clear hb hba b
  refine settleAll_induction (P := fun ps => ∀ b, b ∈ ps → b.status = .active → ∃ q ∈ qs, q.found = false ∧
      bare b = bare q.claim ∧ ∀ a ∈ q.stored, Rival b a → a.assertedAtMs < b.assertedAtMs ∧ a.id ∈ b.supersedes) qs
    (fun b hb => absurd hb List.not_mem_nil) ?_
  intro done q rest hq hf ih b hb hba
  rcases List.mem_append.mp hb with hb | hb
  · obtain ⟨o, ho, rfl⟩ := List.mem_map.mp hb
    have hfo := fade_of_active hba
    rw [hfo] at hba ⊢
    exact ih o ho hba
  · rw [List.mem_singleton.mp hb] at hba ⊢
    refine ⟨q, by rw [hq]; simp, hf, rfl, fun a ha hr => ?_⟩
    have hmem : a ∈ q.stored ++ settleAll [] done := List.mem_append_left _ ha
    have hlt := ((status_settled_active _ _).mp hba).2 a hmem hr
    exact ⟨hlt, List.mem_append_right _ (List.mem_map_of_mem ((mem_earlier _ a _).mpr ⟨hmem, hr, hlt⟩))⟩

/-- A claim that is still active is disputed by no later one that was settled behind it. -/
theorem pending_outlasts {p t : List Claim} {b d : Claim} (hb : settleAll [] qs = p ++ b :: t) (hba : b.status = .active)
    (hd : d ∈ t) : ¬ (Disputes d b ∧ b.assertedAtMs < d.assertedAtMs) := by
  suffices hall : ∀ p b t, settleAll [] qs = p ++ b :: t → b.status = .active → ∀ d ∈ t,
      ¬ (Disputes d b ∧ b.assertedAtMs < d.assertedAtMs) from hall p b t hb hba d hd
  clear hb hba hd p b t d
  refine settleAll_induction (P := fun ps => ∀ p b t, ps = p ++ b :: t → b.status = .active → ∀ d ∈ t,
    ¬ (Disputes d b ∧ b.assertedAtMs < d.assertedAtMs)) qs (fun p b t h => absurd h (by simp)) ?_
  intro done q rest _ _ ih p b t hsplit hba d hd
  rcases List.eq_nil_or_concat t with rfl | ⟨t, e, rfl⟩
  · exact absurd hd List.not_mem_nil
  · rw [List.concat_eq_append, ← List.cons_append, ← List.append_assoc] at hsplit
    obtain ⟨hsplit, he⟩ := List.append_inj' hsplit rfl
    obtain ⟨p, bt, hps, rfl, hbt⟩ := List.map_eq_append_iff.mp hsplit
    obtain ⟨b, t, rfl, rfl, rfl⟩ := List.map_eq_cons_iff.mp hbt
    have hfade := fade_of_active hba
    rw [hfade] at hba ⊢
    rw [List.concat_eq_append] at hd
    rcases List.mem_append.mp hd with hd | hd
    · obtain ⟨o, ho, rfl⟩ := List.mem_map.mp hd
      have htime : (fade q.claim o).assertedAtMs = o.assertedAtMs := eq_of_bare Claim.assertedAtMs (fun _ => rfl) (bare_fade q.claim o)
      rintro ⟨hdis, hlt⟩
      exact ih p b t hps hba o ho ⟨hdis.of_bare (bare_fade q.claim o).symm rfl, htime ▸ hlt⟩
    · -- The one settled last would have faded it out.
      obtain rfl := List.mem_singleton.mp hd
      obtain rfl := List.singleton_inj.mp he
      rintro ⟨hdis, hlt⟩
      rw [fade, if_pos ⟨⟨hdis, hba⟩, hlt⟩] at hfade
      exact absurd (congrArg Claim.status hfade) (by rw [hba]; simp)

/-- How a pending claim was settled: against what was stored about it, and the claims ahead of it as they were then. -/
theorem pending_origin {p t : List Claim} {b : Claim} (hb : settleAll [] qs = p ++ b :: t) :
    ∃ q ∈ qs, q.found = false ∧ bare b = bare q.claim ∧ ∃ prior, prior.map bare = p.map bare ∧
      b.supersedes = q.claim.supersedes ++ (earlier q.claim (q.stored ++ prior)).map Claim.id ∧
      b.contradicts = q.claim.contradicts ++ (contemporary q.claim (q.stored ++ prior)).map Claim.id := by
  suffices hall : ∀ p b t, settleAll [] qs = p ++ b :: t → ∃ q ∈ qs, q.found = false ∧ bare b = bare q.claim ∧
      ∃ prior, prior.map bare = p.map bare ∧
        b.supersedes = q.claim.supersedes ++ (earlier q.claim (q.stored ++ prior)).map Claim.id ∧
        b.contradicts = q.claim.contradicts ++ (contemporary q.claim (q.stored ++ prior)).map Claim.id from hall p b t hb
  clear hb p b t
  refine settleAll_induction (P := fun ps => ∀ p b t, ps = p ++ b :: t → ∃ q ∈ qs, q.found = false ∧ bare b = bare q.claim ∧
    ∃ prior, prior.map bare = p.map bare ∧
      b.supersedes = q.claim.supersedes ++ (earlier q.claim (q.stored ++ prior)).map Claim.id ∧
      b.contradicts = q.claim.contradicts ++ (contemporary q.claim (q.stored ++ prior)).map Claim.id) qs
    (fun p b t h => absurd h (by simp)) ?_
  intro done q rest hq hf ih p b t hsplit
  have hfaded : ∀ ps : List Claim, (ps.map (fade q.claim)).map bare = ps.map bare := fun ps => by
    rw [List.map_map]
    exact List.map_congr_left (fun o _ => bare_fade q.claim o)
  rcases List.eq_nil_or_concat t with rfl | ⟨t, e, rfl⟩
  · obtain ⟨rfl, hb⟩ := List.append_inj' hsplit rfl
    obtain rfl := List.singleton_inj.mp hb
    exact ⟨q, by rw [hq]; simp, hf, rfl, settleAll [] done, (hfaded _).symm, rfl, rfl⟩
  · rw [List.concat_eq_append, ← List.cons_append, ← List.append_assoc] at hsplit
    obtain ⟨hsplit, _⟩ := List.append_inj' hsplit rfl
    obtain ⟨p, bt, hps, rfl, hbt⟩ := List.map_eq_append_iff.mp hsplit
    obtain ⟨b, t, rfl, rfl, rfl⟩ := List.map_eq_cons_iff.mp hbt
    rw [supersedes_fade, contradicts_fade, bare_fade, hfaded]
    exact ih p b t hps

/-- A claim as it stood when another one was settled: stored, or ahead of it in some state. -/
private theorem mem_prior {o : Claim} {stored prior p : List Claim} (h : o ∈ stored ++ prior)
    (hprior : prior.map bare = p.map bare) : o ∈ stored ∨ ∃ d ∈ p, bare d = bare o := by
  rcases List.mem_append.mp h with h | h
  · exact Or.inl h
  · exact Or.inr (List.mem_map.mp (hprior ▸ List.mem_map_of_mem h))

/-- Whom a claim is settled against has another id and is one of the stored claims it was compared
with, or is ahead of it among the pending claims. -/
theorem pending_refers {p t : List Claim} {b : Claim} {x : String} (raw : ∀ q ∈ qs, Raw q.claim)
    (hb : settleAll [] qs = p ++ b :: t) (hx : x ∈ b.supersedes ++ b.contradicts) :
    x ≠ b.id ∧ ((∃ q ∈ qs, q.found = false ∧ ∃ a ∈ q.stored, a.id = x) ∨ ∃ d ∈ p, d.id = x) := by
  obtain ⟨q, hq, hf, hbare, prior, hprior, hsup, hcon⟩ := pending_origin hb
  obtain ⟨_, hqsup, hqcon⟩ := raw q hq
  have hx : ∃ o ∈ q.stored ++ prior, Rival q.claim o ∧ o.id = x := by
    rw [hsup, hcon, hqsup, hqcon] at hx
    simp only [List.nil_append, List.mem_append, List.mem_map, mem_earlier, mem_contemporary] at hx
    rcases hx with ⟨o, ⟨ho, hr, _⟩, rfl⟩ | ⟨o, ⟨ho, hr, _⟩, rfl⟩
    · exact ⟨o, List.mem_append.mpr ho, hr, rfl⟩
    · exact ⟨o, List.mem_append.mpr ho, hr, rfl⟩
  obtain ⟨o, ho, hr, rfl⟩ := hx
  have hid : b.id = q.claim.id := eq_of_bare Claim.id (fun _ => rfl) hbare
  refine ⟨hid ▸ hr.1.1, ?_⟩
  rcases mem_prior ho hprior with ho | ⟨d, hd, hbare⟩
  · exact Or.inl ⟨q, hq, hf, o, ho, rfl⟩
  · exact Or.inr ⟨d, hd, eq_of_bare Claim.id (fun _ => rfl) hbare⟩

/-- What a claim supersedes was about the same topic and asserted earlier. -/
theorem pending_supersedes {p t : List Claim} {b : Claim} {x : String} (raw : ∀ q ∈ qs, Raw q.claim)
    (hb : settleAll [] qs = p ++ b :: t) (hx : x ∈ b.supersedes) :
    ∃ o, o.id = x ∧ topic o.statement = topic b.statement ∧ o.assertedAtMs < b.assertedAtMs ∧
      ((∃ q ∈ qs, q.found = false ∧ o ∈ q.stored) ∨ ∃ d ∈ p, bare d = bare o) := by
  obtain ⟨q, hq, hf, hbare, prior, hprior, hsup, _⟩ := pending_origin hb
  rw [hsup, (raw q hq).2.1, List.nil_append] at hx
  obtain ⟨o, ho, rfl⟩ := List.mem_map.mp hx
  obtain ⟨hin, hr, hlt⟩ := (mem_earlier _ _ _).mp ho
  refine ⟨o, rfl, ?_, ?_, ?_⟩
  · rw [eq_of_bare Claim.statement (fun _ => rfl) hbare]
    exact hr.1.2.1
  · rw [eq_of_bare Claim.assertedAtMs (fun _ => rfl) hbare]
    exact hlt
  · rcases mem_prior hin hprior with hin | hin
    · exact Or.inl ⟨q, hq, hf, hin⟩
    · exact Or.inr hin

/-- What a claim contradicts was active when it was compared. -/
theorem pending_contradicts {p t : List Claim} {b : Claim} {x : String} (raw : ∀ q ∈ qs, Raw q.claim)
    (hb : settleAll [] qs = p ++ b :: t) (hx : x ∈ b.contradicts) :
    ∃ o, o.id = x ∧ o.status = .active ∧ ((∃ q ∈ qs, q.found = false ∧ o ∈ q.stored) ∨ ∃ d ∈ p, bare d = bare o) := by
  obtain ⟨q, hq, hf, _, prior, hprior, _, hcon⟩ := pending_origin hb
  rw [hcon, (raw q hq).2.2, List.nil_append] at hx
  obtain ⟨o, ho, rfl⟩ := List.mem_map.mp hx
  obtain ⟨hin, hr, _⟩ := (mem_contemporary _ _ _).mp ho
  refine ⟨o, rfl, hr.2, ?_⟩
  rcases mem_prior hin hprior with hin | hin
  · exact Or.inl ⟨q, hq, hf, hin⟩
  · exact Or.inr hin

/-- Resolution reconciles nothing. -/
theorem pending_not_reconciled {b : Claim} (raw : ∀ q ∈ qs, Raw q.claim) (hb : b ∈ settleAll [] qs) : b.status ≠ .reconciled := by
  have hfold : ∀ (c : Claim) (es : List Claim) (st : ClaimStatus), st ≠ .reconciled → es.foldl (verdict c) st ≠ .reconciled := by
    intro c es
    induction es with
    | nil => exact fun st h => h
    | cons o es ih =>
      intro st h
      refine ih _ ?_
      unfold verdict
      repeat' split
      all_goals simp [h]
  refine settleAll_induction (P := fun ps => ∀ b ∈ ps, b.status ≠ .reconciled) qs (fun b h => absurd h List.not_mem_nil) ?_ b hb
  intro done q rest hq _ ih b hb
  rcases List.mem_append.mp hb with hb | hb
  · obtain ⟨d, hd, rfl⟩ := List.mem_map.mp hb
    unfold fade
    split
    · simp
    · exact ih d hd
  · obtain rfl := List.mem_singleton.mp hb
    have hraw : q.claim.status = .active := (raw q (by rw [hq]; simp)).1
    exact hfold _ _ _ (by rw [hraw]; simp)

/-- The condition holds whenever the turn of a fresh claim comes. -/
def EveryTurn (C : List Claim → Asked → Prop) (pending : List Claim) : List Asked → Prop
  | [] => True
  | q :: qs => (q.found = false → C pending q) ∧ EveryTurn C (settle pending q) qs

instance decidableEveryTurn (C : List Claim → Asked → Prop) [∀ ps q, Decidable (C ps q)] (pending : List Claim)
    (qs : List Asked) : Decidable (EveryTurn C pending qs) :=
  match qs with
  | [] => isTrue trivial
  | q :: qs =>
    have := decidableEveryTurn C (settle pending q) qs
    inferInstanceAs (Decidable ((q.found = false → C pending q) ∧ _))

theorem EveryTurn.of_forall {C : List Claim → Asked → Prop} {pending : List Claim} (h : ∀ q ∈ qs, ∀ now, C now q) :
    EveryTurn C pending qs := by
  induction qs generalizing pending with
  | nil => trivial
  | cons q qs ih => exact ⟨fun _ => h q List.mem_cons_self pending, ih (fun r hr => h r (List.mem_cons_of_mem _ hr))⟩

theorem EveryTurn.at {C : List Claim → Asked → Prop} {pending : List Claim} {done rest : List Asked} {q : Asked}
    (h : EveryTurn C pending (done ++ q :: rest)) (hf : q.found = false) : C (settleAll pending done) q := by
  induction done generalizing pending with
  | nil => exact h.1 hf
  | cons d done ih => exact ih h.2

/-- No fresh claim meets a live rival that was asserted later, so the loop never takes its last branch. -/
abbrev OnTimeFrom (pending : List Claim) (qs : List Asked) : Prop :=
  EveryTurn (fun pending q => later q.claim (q.stored ++ pending) = []) pending qs

/-- On time, a pending claim is superseded only by another pending claim that says so. -/
theorem pending_superseded {b : Claim} (raw : ∀ q ∈ qs, Raw q.claim) (ht : OnTimeFrom [] qs)
    (hb : b ∈ settleAll [] qs) (hs : b.status = .superseded) : ∃ d ∈ settleAll [] qs, b.id ∈ d.supersedes := by
  suffices hall : ∀ b, b ∈ settleAll [] qs → b.status = .superseded → ∃ d ∈ settleAll [] qs, b.id ∈ d.supersedes from
    hall b hb hs
  clear hb hs b
  refine settleAll_induction (P := fun ps => ∀ b, b ∈ ps → b.status = .superseded → ∃ d ∈ ps, b.id ∈ d.supersedes)
    qs (fun b hb => absurd hb List.not_mem_nil) ?_
  intro done q rest hq hf ih b hb hs
  rcases List.mem_append.mp hb with hb | hb
  · obtain ⟨o, ho, rfl⟩ := List.mem_map.mp hb
    rcases fade_of_superseded hs with hs | ⟨hr, hlt⟩
    · obtain ⟨d, hd, hx⟩ := ih o ho hs
      refine ⟨fade q.claim d, List.mem_append_left _ (List.mem_map_of_mem hd), ?_⟩
      rwa [supersedes_fade, id_fade]
    · refine ⟨_, List.mem_append_right _ (List.mem_singleton_self _), ?_⟩
      rw [id_fade]
      exact List.mem_append_right _ (List.mem_map_of_mem
        ((mem_earlier _ o _).mpr ⟨List.mem_append_right _ ho, hr, hlt⟩))
  · rw [List.mem_singleton.mp hb] at hs
    rcases status_settled_superseded hs with hs | ⟨o, _, ho⟩
    · rw [(raw q (by rw [hq]; simp)).1] at hs
      exact absurd hs (by simp)
    · rw [hq] at ht
      rw [ht.at hf] at ho
      exact absurd ho List.not_mem_nil

/-- What a pending claim supersedes is not changed by the claims settled after it. -/
theorem supersedes_settleAll {pending : List Claim} (qs : List Asked) {b : Claim} (hb : b ∈ pending) :
    ∃ d ∈ settleAll pending qs, d.id = b.id ∧ d.supersedes = b.supersedes := by
  induction qs generalizing pending b with
  | nil => exact ⟨b, hb, rfl, rfl⟩
  | cons q qs ih =>
    have hstep : ∃ d ∈ settle pending q, d.id = b.id ∧ d.supersedes = b.supersedes := by
      unfold settle
      split
      · exact ⟨b, hb, rfl, rfl⟩
      · exact ⟨fade q.claim b, List.mem_append_left _ (List.mem_map_of_mem hb), id_fade _ b, supersedes_fade _ b⟩
    obtain ⟨d, hd, hid, hsup⟩ := hstep
    obtain ⟨e, he, heid, hesup⟩ := ih hd
    exact ⟨e, he, heid.trans hid, hesup.trans hsup⟩

/-- On time, every reported supersession is an entry of the claim that supersedes. -/
theorem pending_reported {pending : List Claim} {p : String × String} (ht : OnTimeFrom pending qs)
    (hp : p ∈ collect supersededPairs pending qs) :
    ∃ b ∈ settleAll pending qs, b.id = p.1 ∧ p.2 ∈ b.supersedes := by
  induction qs generalizing pending with
  | nil => exact absurd hp List.not_mem_nil
  | cons q qs ih =>
    rcases List.mem_append.mp hp with hp | hp
    · split at hp
      · exact absurd hp List.not_mem_nil
      · rename_i hf
        obtain ⟨o, ho, hpo⟩ := List.mem_flatMap.mp hp
        unfold reportedSupersession at hpo
        split at hpo
        · rename_i hr
          obtain rfl := List.mem_singleton.mp hpo
          have hmem : settled q.claim (q.stored ++ pending) ∈ settle pending q := by
            rw [settle, if_neg hf]
            exact List.mem_append_right _ (List.mem_singleton_self _)
          obtain ⟨d, hd, hid, hsup⟩ := supersedes_settleAll qs hmem
          refine ⟨d, hd, hid, hsup ▸ List.mem_append_right _ (List.mem_map_of_mem ?_)⟩
          exact (mem_earlier _ o _).mpr ⟨ho, hr⟩
        · split at hpo
          · have hl : o ∈ later q.claim (q.stored ++ pending) := (mem_later _ o _).mpr ⟨ho, ‹_›⟩
            rw [ht.1 (by simpa using hf)] at hl
            exact absurd hl List.not_mem_nil
          · exact absurd hpo List.not_mem_nil
    · exact ih ht.2 hp

end Memorai.Resolver
