import Memorai.Ingestion.Laying

/-! A run, or a run cut short between two claims, lays claims over the store it starts from. -/
namespace Memorai.Ingestion
open Schema Memorai.Graph Storage Extraction Resolver

/-- What the claim is linked to is there. -/
structure Fit (s : Store) (c : Claim) : Prop where
  entities : ∀ x ∈ c.subjectEntityIds ++ parties c, Store.entityKey x ∈ s.keys
  claims : ∀ x ∈ c.supersedes ++ c.contradicts, x ≠ c.id ∧ Store.claimKey x ∈ s.keys

/-- A statement ahead of a candidate's claims. The nodes it links are events. -/
def Aside (op : StoreOp) : Prop := Quiet op ∧ ∀ a q t, op = .link a q t → Tagged (Store.eventKey a)

/-- Statements that write the claims `cs` one after the other, each of them when it is fit. -/
inductive Lays (s : Store) : List StoreOp → List Claim → Prop where
  | nil : Lays s [] []
  | quiet {ops : List StoreOp} {cs : List Claim} {op : StoreOp} : Lays s ops cs → Aside op → Lays s (ops ++ [op]) cs
  | claim {ops : List StoreOp} {cs : List Claim} {c : Claim} : Lays s ops cs → Fit (execAll ops s) c →
      Lays s (ops ++ claimOps c) (cs ++ [c])

theorem touch_eq_mark {ops : List StoreOp} {cs : List Claim} (h : Carries ops cs) (c : Claim) : touch ops c = mark cs c := by
  unfold touch mark
  simp only [h.marked_iff, Supersede]

theorem Carries.quiet {op : StoreOp} (h : Quiet op) : Carries [op] [] :=
  ⟨fun _ ho => Or.inl (List.mem_singleton.mp ho ▸ h), fun _ hd => absurd hd List.not_mem_nil⟩

theorem tagged_init {s : Store} {ops more : List StoreOp} (h : TaggedKeys (execAll (ops ++ more) s)) :
    TaggedKeys (execAll ops s) := by
  intro k hk
  refine h k ?_
  rw [execAll_append]
  exact (mem_keys_execAll _ _ _).mpr (Or.inl hk)

section Layered
variable {β : Type} {view : Claim → β} {s : Store} {ops : List StoreOp} {cs : List Claim} {c : Claim}

private theorem claim?_of_carries_nil (h : Carries ops []) (s : Store) (x : String) : (execAll ops s).claim? x = s.claim? x := by
  have hrow : (execAll ops s).claim? x = (s.claim? x).map (touch ops) :=
    claim?_execAll h.onlySupersedes (fun op hop d hd => absurd (h.mem_of_claim? hop hd) List.not_mem_nil)
  have htouch : touch ops = id := funext (fun d => (touch_eq_mark h d).trans (mark_nil d))
  rw [hrow, htouch, Option.map_id, id]

private theorem edges_of_carries_nil (h : Carries ops []) (s : Store) {r : Rel} (hm : r ≠ .mentions) (hc : r ≠ .cites)
    (k j : NodeKey) : (k, r, j) ∈ (execAll ops s).edges ↔ (k, r, j) ∈ s.edges := by
  refine ⟨fun he => ?_, edges_execAll_mono⟩
  by_contra hn
  obtain ⟨d, hd, _⟩ := (h.link_mem_iff hm hc).mp (link_of_mem_edges he hn)
  exact absurd hd List.not_mem_nil

/-- Entities and events do not show in the layer of claims. -/
theorem Layered.quiet (view : Claim → β) (s : Store) (h : Carries ops []) : Layered view s (execAll ops s) [] where
  claims x := by
    rw [claim?_of_carries_nil h, entry, List.find?_nil, Option.or_none]
    cases s.claim? x with
    | none => exact .none
    | some d => exact .some (by rw [mark_nil]; exact .refl view _)
  edges k r j hm hc := by simp [edges_of_carries_nil h s hm hc]
  known x hx := absurd hx supersede_nil

private theorem Fit.target (h : Fit s c) {r : Rel} (hm : r ≠ .mentions) (hc : r ≠ .cites) {t : String}
    (ht : t ∈ linked c r) : targetKey r t ∈ s.keys := by
  cases r with
  | about => exact h.entities t (List.mem_append_left _ ht)
  | owedBy => exact h.entities t (List.mem_append_right _ (List.mem_append_left _ ht))
  | owedTo =>
    refine h.entities t (List.mem_append_right _ (List.mem_append_right _ ?_))
    simp only [linked, Option.mem_toList, Option.filter_eq_some_iff] at ht
    exact Option.mem_toList.mpr ht.1
  | supersedes => exact (h.claims t (List.mem_append_left _ ht)).2
  | contradicts => exact (h.claims t (List.mem_append_right _ ht)).2
  | mentions => exact absurd rfl hm
  | cites => exact absurd rfl hc
  | other name => exact absurd ht List.not_mem_nil

private theorem Fit.not_supersede (h : Fit s c) : ¬ Supersede [c] c.id := by
  intro ⟨d, hd, hx⟩
  rw [List.mem_singleton.mp hd] at hx
  exact (h.claims c.id (List.mem_append_left _ hx)).1 rfl

/-- A claim that is written replaces its own row and marks the rows of those it supersedes. -/
theorem Fit.claim? (h : Fit s c) (x : String) :
    (execAll (claimOps c) s).claim? x = if x = c.id then some c else (s.claim? x).map (mark [c]) := by
  by_cases hx : x = c.id
  · have hown : (execAll (claimOps c) s).claim? c.id = some (touch (claimTail c) c) := by
      rw [claimOps_eq, ← List.nil_append (_ :: _)]
      refine claim?_execAll_split (fun y st hop => ?_) (fun op hop d hd => ?_)
      · exact onlySupersedes_claimOps c y st (by rw [claimOps_eq]; exact List.mem_cons_of_mem _ hop)
      · rw [claim?_of_mem_claimTail hop] at hd
        exact absurd hd (by simp)
    have htail : ¬ marked (claimTail c) c.id := by
      intro hm
      have hm : marked (claimOps c) c.id := by
        rw [marked, claimOps_eq]
        exact List.mem_cons_of_mem _ hm
      exact h.not_supersede (((Carries.single c).marked_iff c.id).mp hm)
    rw [if_pos hx, hx, hown, touch_of_not_marked htail]
  · have hrow : (execAll (claimOps c) s).claim? x = (s.claim? x).map (touch (claimOps c)) :=
      claim?_execAll (onlySupersedes_claimOps c) (fun op hop d hd he => hx (he ▸ (claim?_of_mem_claimOps hop hd ▸ rfl)))
    have htouch : touch (claimOps c) = mark [c] := funext (touch_eq_mark (.single c))
    rw [if_neg hx, hrow, htouch]

theorem Fit.edges_iff (h : Fit s c) (ht : TaggedKeys (execAll (claimOps c) s)) {r : Rel} (hm : r ≠ .mentions)
    (hc : r ≠ .cites) (k j : NodeKey) : (k, r, j) ∈ (execAll (claimOps c) s).edges ↔
      (k, r, j) ∈ s.edges ∨ k = Store.claimKey c.id ∧ ∃ t ∈ linked c r, j = targetKey r t := by
  have hkey : Store.claimKey c.id ∈ (execAll (claimOps c) s).keys :=
    (mem_keys_execAll _ _ _).mpr (Or.inr ⟨_, upsert_mem_claimOps c, rfl⟩)
  have htid : ∀ t, t = (targetKey r t).id := fun t => by unfold targetKey; split <;> rfl
  constructor
  · intro he
    by_cases hs : (k, r, j) ∈ s.edges
    · exact Or.inl hs
    · obtain ⟨hkid, hl⟩ := (link_mem_claimOps c k.id r j.id).mp (link_of_mem_edges he hs)
      have hj : targetKey r j.id ∈ (execAll (claimOps c) s).keys :=
        (mem_keys_execAll _ _ _).mpr (Or.inl (h.target hm hc hl))
      obtain ⟨hks, hjs⟩ := (execAll (claimOps c) s).joined _ he
      exact Or.inr ⟨ht.eq_of_id hks hkey hkid, j.id, hl, ht.eq_of_id hjs hj (htid j.id)⟩
  · intro he
    rcases he with he | ⟨rfl, t, hl, rfl⟩
    · exact edges_execAll_mono he
    · exact mem_edges_claimOps (h.target hm hc hl) (by rwa [← htid t])

theorem Fit.layered (view : Claim → β) (h : Fit s c) (hnew : s.claim? c.id = none) (ht : TaggedKeys (execAll (claimOps c) s)) :
    Layered view s (execAll (claimOps c) s) [c] where
  claims x := by
    rw [h.claim?, entry]
    by_cases hx : x = c.id
    · rw [if_pos hx, hx, hnew, Option.none_or, List.find?_cons_of_pos (by simp), Option.map_some,
        mark_of_not_supersede h.not_supersede]
      exact .some (.refl view c)
    · rw [if_neg hx, List.find?_cons_of_neg (by simpa using Ne.symm hx), List.find?_nil, Option.or_none]
      cases s.claim? x with
      | none => exact .none
      | some d => exact .some (.refl view _)
  edges k r j hm hc := by
    rw [h.edges_iff ht hm hc]
    simp only [List.mem_singleton, exists_eq_left]
  known x hx := by
    obtain ⟨d, hd, hx⟩ := hx
    rw [List.mem_singleton.mp hd] at hx
    have hkey := (h.claims x (List.mem_append_left _ hx)).2
    exact (Store.claim?_isSome_iff _ x).mpr ((mem_keys_execAll _ _ _).mpr (Or.inl hkey))

/-- Statements that write `cs` and link nothing but these and events. -/
structure Adds (ops : List StoreOp) (cs : List Claim) : Prop where
  carries : Carries ops cs
  sources : ∀ a q t, .link a q t ∈ ops → (∃ d ∈ cs, d.id = a) ∨ Tagged (Store.eventKey a)

namespace Adds

theorem nil : Adds [] [] := ⟨.nil, fun _ _ _ h => absurd h List.not_mem_nil⟩

theorem aside {op : StoreOp} (h : Aside op) : Adds [op] [] :=
  ⟨.quiet h.1, fun a q t hl => Or.inr (h.2 a q t (List.mem_singleton.mp hl).symm)⟩

theorem single (c : Claim) : Adds (claimOps c) [c] :=
  ⟨.single c, fun _ _ _ hl => Or.inl ⟨c, List.mem_singleton_self c, ((link_mem_claimOps _ _ _ _).mp hl).1.symm⟩⟩

theorem append {ops' : List StoreOp} {cs' : List Claim} (h : Adds ops cs) (h' : Adds ops' cs') :
    Adds (ops ++ ops') (cs ++ cs') where
  carries := h.carries.append h'.carries
  sources a q t hl := by
    rcases List.mem_append.mp hl with hl | hl
    · rcases h.sources a q t hl with ⟨d, hd, hid⟩ | ht
      · exact Or.inl ⟨d, List.mem_append_left _ hd, hid⟩
      · exact Or.inr ht
    · rcases h'.sources a q t hl with ⟨d, hd, hid⟩ | ht
      · exact Or.inl ⟨d, List.mem_append_right _ hd, hid⟩
      · exact Or.inr ht

/-- The edges of the other claims stay as they are. -/
theorem edges_iff (h : Adds ops cs) {x : String} (ht : Tagged (Store.claimKey x)) (hx : ∀ d ∈ cs, d.id ≠ x) (s : Store)
    (r : Rel) (j : NodeKey) : (Store.claimKey x, r, j) ∈ (execAll ops s).edges ↔ (Store.claimKey x, r, j) ∈ s.edges := by
  refine ⟨fun he => ?_, edges_execAll_mono⟩
  by_contra hn
  rcases h.sources _ _ _ (link_of_mem_edges he hn) with ⟨d, hd, hid⟩ | hevent
  · exact hx d hd hid
  · have hlabel := hevent.label_eq ht rfl
    exact absurd hlabel (by simp)

end Adds

theorem Lays.adds (h : Lays s ops cs) : Adds ops cs := by
  induction h with
  | nil => exact .nil
  | @quiet ops cs op _ hq ih =>
    simpa using ih.append (Adds.aside hq)
  | claim _ _ ih => exact ih.append (.single _)

theorem Lays.quiets {more : List StoreOp} (h : Lays s ops cs) (hq : ∀ op ∈ more, Aside op) : Lays s (ops ++ more) cs := by
  induction more using List.reverseRecOn with
  | nil => simpa using h
  | append_singleton more op ih =>
    rw [← List.append_assoc]
    exact (ih (fun o ho => hq o (List.mem_append_left _ ho))).quiet (hq op (by simp))

/-- The rows of the claims, once one more claim is written over them. -/
def overlay (rows : String → Option Claim) (c : Claim) : String → Option Claim := fun x =>
  if x = c.id then some c else (rows x).map (mark [c])

/-- Whatever is written more than once, the rows are those written over one another. -/
theorem Lays.rows (h : Lays s ops cs) : (execAll ops s).claim? = cs.foldl overlay s.claim? := by
  induction h with
  | nil => rfl
  | quiet _ hq ih =>
    rw [execAll_append, ← ih]
    exact funext (claim?_of_carries_nil (.quiet hq.1) _)
  | claim _ hf ih =>
    rw [execAll_append, List.foldl_append, ← ih]
    exact funext hf.claim?

theorem Lays.edges_iff (h : Lays s ops cs) (htag : TaggedKeys (execAll ops s)) {r : Rel} (hm : r ≠ .mentions)
    (hc : r ≠ .cites) (k j : NodeKey) : (k, r, j) ∈ (execAll ops s).edges ↔
      (k, r, j) ∈ s.edges ∨ ∃ c ∈ cs, k = Store.claimKey c.id ∧ ∃ t ∈ linked c r, j = targetKey r t := by
  induction h with
  | nil => simp
  | quiet _ hq ih => rw [execAll_append, edges_of_carries_nil (.quiet hq.1) _ hm hc, ih (tagged_init htag)]
  | claim _ hf ih =>
    have htag' := htag
    rw [execAll_append] at htag'
    rw [execAll_append, hf.edges_iff htag' hm hc, ih (tagged_init htag), or_assoc]
    simp only [List.mem_append, List.mem_singleton, or_and_right, exists_or, exists_eq_left]

/-- New claims, each written once, are laid over the store. -/
theorem Lays.layered (ht : Telling view) (h : Lays s ops cs) (hnd : (cs.map Claim.id).Nodup)
    (hnew : ∀ c ∈ cs, s.claim? c.id = none) (htag : TaggedKeys (execAll ops s)) : Layered view s (execAll ops s) cs := by
  induction h with
  | nil => exact .refl view s
  | @quiet ops cs op _ hq ih =>
    have hstep := Layered.trans ht (ih hnd hnew (tagged_init htag)) (Layered.quiet view (execAll ops s) (.quiet hq.1))
    rwa [List.append_nil, ← execAll_append] at hstep
  | @claim ops cs c hl hf ih =>
    have htag' := htag
    rw [execAll_append] at htag'
    rw [execAll_append]
    rw [List.map_append] at hnd
    have hlast : (execAll ops s).claim? c.id = none := by
      rw [claim?_execAll hl.adds.carries.onlySupersedes (fun op hop d hd => ?_), hnew c (by simp), Option.map_none]
      exact (List.nodup_append.mp hnd).2.2 d.id (List.mem_map_of_mem (hl.adds.carries.mem_of_claim? hop hd)) c.id (by simp)
    exact (ih (List.nodup_append.mp hnd).1 (fun d hd => hnew d (List.mem_append_left _ hd)) (tagged_init htag)).trans ht
      (hf.layered view hlast htag')

/-- One more statement sent: a claim's upsert makes its links due, anything else sent crosses one off. -/
def crossOff (due : List StoreOp) : StoreOp → List StoreOp
  | .upsert (.claim c) _ => claimTail c
  | .upsert _ _ => []
  | _ => due.tail

/-- What is still due of the claim whose statements were being sent last. -/
def unfinished (sent : List StoreOp) : List StoreOp := sent.foldl crossOff []

theorem unfinished_concat (sent : List StoreOp) (op : StoreOp) :
    unfinished (sent ++ [op]) = crossOff (unfinished sent) op := by simp [unfinished]

private theorem crossOff_of_mem_claimTail {op : StoreOp} (h : op ∈ claimTail c) (due : List StoreOp) :
    crossOff due op = due.tail := by
  rcases mem_claimTail_cases h with ⟨q, b, rfl⟩ | ⟨y, st, rfl⟩ <;> rfl

private theorem unfinished_inside {sent part rest : List StoreOp} (h : claimTail c = part ++ rest) :
    unfinished (sent ++ .upsert (.claim c) c.statement :: part) = rest := by
  induction part using List.reverseRecOn generalizing rest with
  | nil =>
    rw [unfinished_concat]
    exact h
  | append_singleton part op ih =>
    have hmem : op ∈ claimTail c := by rw [h]; simp
    rw [← List.cons_append, ← List.append_assoc, unfinished_concat, crossOff_of_mem_claimTail hmem,
      ih (by rw [h, List.append_assoc])]
    rfl

private theorem quiet_crossOff {op : StoreOp} (h : Quiet op) : crossOff [] op = [] := by
  cases op with
  | upsert n t =>
    cases n with
    | claim c => exact absurd h.1 (by simp [StoreOp.claim?])
    | _ => rfl
  | _ => rfl

private theorem claims_claimOps (c : Claim) : (claimOps c).filterMap StoreOp.claim? = [c] := by
  have htail : (claimTail c).filterMap StoreOp.claim? = [] :=
    List.filterMap_eq_nil_iff.mpr (fun op hop => claim?_of_mem_claimTail hop)
  rw [claimOps_eq, List.filterMap_cons, htail]
  rfl

theorem Lays.writes (h : Lays s ops cs) : ops.filterMap StoreOp.claim? = cs := by
  induction h with
  | nil => rfl
  | quiet _ hq ih => simp [ih, hq.1.1]
  | claim _ _ ih => rw [List.filterMap_append, ih, claims_claimOps]

theorem Lays.finished (h : Lays s ops cs) : unfinished ops = [] := by
  induction h with
  | nil => rfl
  | quiet _ hq ih => rw [unfinished_concat, ih, quiet_crossOff hq.1]
  | claim _ _ _ =>
    rw [claimOps_eq]
    exact unfinished_inside (List.append_nil _).symm

/-- Wherever the statements are cut, what was sent and what is still due of the claim in progress lay
the claims whose upsert was sent. The rest lays the others. -/
theorem Lays.cut (h : Lays s ops cs) {sent rest : List StoreOp} (hsplit : ops = sent ++ rest) :
    ∃ rest' ds, rest = unfinished sent ++ rest' ∧ cs = sent.filterMap StoreOp.claim? ++ ds ∧
      (∀ op ∈ unfinished sent, op.key? = none) ∧ Lays (execAll (sent ++ unfinished sent) s) rest' ds := by
  have hwhole : ∀ {ops cs}, Lays s ops cs → ops = sent ++ [] → ∃ rest' ds, [] = unfinished sent ++ rest' ∧
      cs = sent.filterMap StoreOp.claim? ++ ds ∧ (∀ op ∈ unfinished sent, op.key? = none) ∧
        Lays (execAll (sent ++ unfinished sent) s) rest' ds := by
    intro ops cs h hsent
    rw [List.append_nil] at hsent
    subst hsent
    rw [h.finished, h.writes]
    exact ⟨[], [], rfl, (List.append_nil cs).symm, fun _ hop => absurd hop List.not_mem_nil, .nil⟩
  induction h generalizing rest with
  | nil =>
    obtain ⟨rfl, rfl⟩ := List.append_eq_nil_iff.mp hsplit.symm
    exact hwhole .nil rfl
  | @quiet ops cs op hops hq ih =>
    rcases List.eq_nil_or_concat rest with rfl | ⟨rest, o, rfl⟩
    · exact hwhole (hops.quiet hq) hsplit
    · rw [List.concat_eq_append, ← List.append_assoc] at hsplit
      obtain ⟨hops', ho⟩ := List.append_inj' hsplit rfl
      obtain rfl := List.singleton_inj.mp ho
      obtain ⟨rest', ds, hrest, hcs, hkeys, hlays⟩ := ih hops'
      exact ⟨rest' ++ [op], ds, by rw [List.concat_eq_append, hrest, List.append_assoc], hcs, hkeys, hlays.quiet hq⟩
  | @claim ops cs c hops hf ih =>
    -- The cut is ahead of the claim's statements, or within them.
    rcases List.append_eq_append_iff.mp hsplit with ⟨part, rfl, hpart⟩ | ⟨more, hops', rfl⟩
    · cases part with
      | nil =>
        obtain rfl : claimOps c = rest := hpart
        rw [List.append_nil, hops.finished, hops.writes, List.append_nil]
        exact ⟨_, [c], rfl, rfl, fun _ hop => absurd hop List.not_mem_nil, .claim .nil hf⟩
      | cons op part =>
        rw [claimOps_eq, List.cons_append] at hpart
        obtain ⟨rfl, htail⟩ := List.cons.inj hpart
        have hclaims : (ops ++ .upsert (.claim c) c.statement :: part).filterMap StoreOp.claim? = cs ++ [c] := by
          have hnone : part.filterMap StoreOp.claim? = [] := by
            rw [List.filterMap_eq_nil_iff]
            intro op hop
            have hmem : op ∈ claimTail c := by
              rw [htail]
              exact List.mem_append_left _ hop
            exact claim?_of_mem_claimTail hmem
          rw [List.filterMap_append, hops.writes, List.filterMap_cons, hnone]
          rfl
        rw [unfinished_inside htail, hclaims]
        refine ⟨[], [], (List.append_nil rest).symm, (List.append_nil _).symm, fun op hop => ?_, .nil⟩
        have hmem : op ∈ claimTail c := by
          rw [htail]
          exact List.mem_append_right _ hop
        rcases mem_claimTail_cases hmem with ⟨q, b, rfl⟩ | ⟨y, st, rfl⟩ <;> rfl
    · obtain ⟨rest', ds, hrest, hcs, hkeys, hlays⟩ := ih hops'
      refine ⟨rest' ++ claimOps c, ds ++ [c], by rw [hrest, List.append_assoc], by rw [hcs, List.append_assoc], hkeys, hlays.claim ?_⟩
      rw [hops', hrest, ← List.append_assoc, execAll_append] at hf
      exact hf

end Layered

namespace Job
variable (job : Job) {s : Store}

private theorem fit_pending (hs : Keyed s) {p t : List Claim} {b : Claim} (h : job.pending s = p ++ b :: t)
    {ops : List StoreOp} (hcar : Carries ops p)
    (hent : ∀ x ∈ b.subjectEntityIds ++ parties b, ∃ op ∈ ops, op.key? = some (Store.entityKey x)) :
    Fit (execAll ops s) b where
  entities x hx := (mem_keys_execAll _ _ _).mpr (Or.inr (hent x hx))
  claims x hx := by
    obtain ⟨hne, hx⟩ := job.refers hs.columns h hx
    refine ⟨hne, (mem_keys_execAll _ _ _).mpr ?_⟩
    rcases hx with ⟨a, ha, _⟩ | ⟨d, hdp, rfl⟩
    · exact Or.inl ((Store.claim?_isSome_iff s x).mp ⟨a, ha⟩)
    · exact Or.inr (hcar.key_of_mem hdp)

/-- A run writes its pending claims one after the other, each when it is fit. -/
theorem lays (hs : Keyed s) : Lays s (job.ops s) (job.pending s) := by
  have hclaims : (job.answers s).merged.flatMap Candidate.claims = job.pending s := (job.answers s).merged_claims
  rw [job.ops_eq_answers s, Answers.ops_eq, ← hclaims]
  suffices hall : ∀ ms ns, (job.answers s).merged = ms ++ ns →
      Lays s (ms.flatMap (fun m => Answers.prelude job m ++ m.claims.flatMap claimOps)) (ms.flatMap Candidate.claims) from
    hall _ [] (by simp)
  intro ms
  -- Candidate by candidate, and within a candidate claim by claim.
  induction ms using List.reverseRecOn with
  | nil => exact fun _ _ => .nil
  | append_singleton ms m ih =>
    intro ns hms
    have hm : m ∈ (job.answers s).merged := by rw [hms]; simp
    have hpre := (ih (m :: ns) (by simpa using hms)).quiets (fun op (hop : op ∈ Answers.prelude job m) =>
      ⟨Answers.quiet_of_mem_prelude hop, fun a q t he => (job.answers s).source_of_mem_prelude hm (he ▸ hop)⟩)
    have hinner : ∀ p t, m.claims = p ++ t →
        Lays s (ms.flatMap (fun m => Answers.prelude job m ++ m.claims.flatMap claimOps) ++ Answers.prelude job m ++
          p.flatMap claimOps) (ms.flatMap Candidate.claims ++ p) := by
      intro p
      induction p using List.reverseRecOn with
      | nil => exact fun _ _ => by simpa using hpre
      | append_singleton p b ihp =>
        intro t hp
        have hlays := ihp (b :: t) (by simpa using hp)
        have hb : b ∈ m.claims := by rw [hp]; simp
        have hsplit : job.pending s = (ms.flatMap Candidate.claims ++ p) ++ b :: (t ++ ns.flatMap Candidate.claims) := by
          rw [← hclaims, hms]
          simp [hp]
        have hfit := job.fit_pending hs hsplit hlays.adds.carries (fun x hx => by
          obtain ⟨op, hop, hk⟩ := (job.answers s).named_in_prelude hm hb x hx
          exact ⟨op, List.mem_append_left _ (List.mem_append_right _ hop), hk⟩)
        have hstep := hlays.claim hfit
        simpa [List.append_assoc] using hstep
    have hlast := hinner m.claims [] (by simp)
    simpa [List.append_assoc] using hlast

theorem tagged_ops (hs : Keyed s) : TaggedKeys (execAll (job.ops s) s) := (hs.run job).tagged

theorem layered_run {β : Type} {view : Claim → β} (ht : Telling view) (hs : Keyed s) (hd : DistinctFresh job s) :
    Layered view s (job.run s) (job.pending s) := (job.lays hs).layered ht (job.nodup_pending hd)
    (fun _ hc => job.claim?_eq_none_of_mem_pending s hc) (job.tagged_ops hs)

end Job
end Memorai.Ingestion
