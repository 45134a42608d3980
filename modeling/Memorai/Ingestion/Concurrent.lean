import Mathlib.Data.Fintype.Basic
import Memorai.Ingestion.LiveVersions
import Memorai.Ingestion.Program

/-! Runs that take turns on one store. Nothing checks again between reading and writing, so two
runs can each miss what the other is about to store. Nothing else goes wrong. -/
namespace Memorai.Ingestion
open Schema Memorai.Graph Storage Extraction Resolver Concurrency

abbrev StoreTrace (I : Type) := List (I × StoreEvent)

def writeOf {I : Type} (e : I × StoreEvent) : Option StoreOp :=
  match e.2 with
  | ⟨.exec op, _⟩ => some op
  | _ => none

/-- The statements of a trace, in order. -/
def writesOf {I : Type} (t : StoreTrace I) : List StoreOp := t.filterMap writeOf

/-- One of the statements that store `a`, as far as a reader about the subjects of `b` can tell: its
own upsert, or its link to a subject the two share. -/
def Stores (a b : Claim) (op : StoreOp) : Prop :=
  op = .upsert (.claim a) a.statement ∨
    ∃ e ∈ a.subjectEntityIds, e ∈ b.subjectEntityIds ∧ op = .link a.id .about e

/-- Run `i` asked about its claim `b` before run `j` was done storing `a`. -/
def AskedBefore {I : Type} (t : StoreTrace I) (i j : I) (b a : Claim) : Prop :=
  ∃ pre post rows ownerId c stored, t = pre ++ (i, ⟨.claimsAbout rows ownerId c, stored⟩) :: post ∧
    bare c = bare b ∧ ∃ op, (j, ⟨.exec op, ()⟩) ∈ post ∧ Stores a b op

section Trace
variable {I : Type} {t : StoreTrace I}

theorem replay_eq (t : StoreTrace I) (s : Store) : replay storeService t s = execAll (writesOf t) s := by
  induction t generalizing s with
  | nil => rfl
  | cons e t ih =>
    obtain ⟨i, c, a⟩ := e
    cases c with
    | get x => exact ih s
    | claimsAbout rows o c => exact ih s
    | exec op => exact ih (op.exec s)

theorem mem_writesOf {op : StoreOp} : op ∈ writesOf t ↔ ∃ i, (i, ⟨.exec op, ()⟩) ∈ t := by
  simp only [writesOf, List.mem_filterMap]
  constructor
  · intro ⟨⟨i, c, a⟩, he, hop⟩
    cases c with
    | get x => exact absurd hop (by simp [writeOf])
    | claimsAbout rows o c => exact absurd hop (by simp [writeOf])
    | exec op' =>
      obtain rfl := Option.some.inj hop
      exact ⟨i, he⟩
  · intro ⟨i, he⟩
    exact ⟨_, he, rfl⟩

theorem writesOf_append (u v : StoreTrace I) : writesOf (u ++ v) = writesOf u ++ writesOf v := List.filterMap_append

/-- A split of the statements of a trace is a split of the trace. -/
theorem exists_split_of_writesOf {l m : List StoreOp} {op : StoreOp} (h : writesOf t = l ++ op :: m) :
    ∃ u i v, t = u ++ (i, ⟨.exec op, ()⟩) :: v ∧ writesOf u = l ∧ writesOf v = m := by
  obtain ⟨u, w, rfl, hu, hw⟩ := List.filterMap_eq_append_iff.mp h
  obtain ⟨u', e, v, rfl, hu', he, hv⟩ := List.filterMap_eq_cons_iff.mp hw
  obtain ⟨i, c, a⟩ := e
  cases c with
  | get x => exact absurd he (by simp [writeOf])
  | claimsAbout rows o c => exact absurd he (by simp [writeOf])
  | exec op' =>
    obtain rfl := Option.some.inj he
    have hnone : writesOf u' = [] := List.filterMap_eq_nil_iff.mpr hu'
    exact ⟨u ++ u', i, v, by simp, by rw [writesOf_append, hnone, List.append_nil]; exact hu, hv⟩

end Trace

/-- What a complete interleaving gives: each run's calls are those of a job resolved on its answers. -/
structure Interleaved {I : Type} [DecidableEq I] (jobs : I → Job) (s : Store) (t : StoreTrace I) where
  answers : ∀ i, Answers (jobs i)
  calls : ∀ i, own i t =
    (answers i).asked.flatMap (asks (jobs i).rows (jobs i).ownerId) ++ writes (answers i).ops
  reads : ∀ pre i c a post, t = pre ++ (i, ⟨c, a⟩) :: post → a = storeService.answer (execAll (writesOf pre) s) c

namespace Interleaved
variable {I : Type} [DecidableEq I] {jobs : I → Job} {s : Store} {t : StoreTrace I}

private theorem exec_not_mem_asks {qs : List Asked} {rows : RowOrder Claim} {ownerId : String} {op : StoreOp} {u : Unit} :
    (⟨.exec op, u⟩ : StoreEvent) ∉ qs.flatMap (asks rows ownerId) := by
  intro h
  obtain ⟨q, _, hq⟩ := List.mem_flatMap.mp h
  unfold asks at hq
  split at hq <;> simp at hq

theorem exec_mem_iff (run : Interleaved jobs s t) (i : I) (op : StoreOp) :
    (i, ⟨.exec op, ()⟩) ∈ t ↔ op ∈ (run.answers i).ops := by
  rw [← mem_own, run.calls, List.mem_append]
  constructor
  · intro h
    rcases h with h | h
    · exact absurd h exec_not_mem_asks
    · obtain ⟨op', hop', he⟩ := List.mem_map.mp h
      cases he
      exact hop'
  · intro h
    exact Or.inr (List.mem_map.mpr ⟨op, h, rfl⟩)

theorem onlySupersedes (run : Interleaved jobs s t) : OnlySupersedes (writesOf t) := by
  intro y st h
  obtain ⟨i, hi⟩ := mem_writesOf.mp h
  exact (run.answers i).carries_ops.onlySupersedes y st ((run.exec_mem_iff i _).mp hi)

/-- A run asks before it writes. -/
theorem exec_after_read (run : Interleaved jobs s t) {i : I} {pre post : StoreTrace I} {rows : RowOrder Claim}
    {ownerId : String} {c : Claim} {stored : List Claim}
    (h : t = pre ++ (i, ⟨.claimsAbout rows ownerId c, stored⟩) :: post) {op : StoreOp}
    (hop : op ∈ (run.answers i).ops) : (i, ⟨.exec op, ()⟩) ∈ post := by
  have hmem := (run.exec_mem_iff i op).mpr hop
  rw [h] at hmem
  rcases List.mem_append.mp hmem with hpre | hmem
  · have hown := (congrArg (own i) h).symm.trans (run.calls i)
    rw [own_append, ← List.singleton_append, own_append] at hown
    have hread : own i [(i, (⟨.claimsAbout rows ownerId c, stored⟩ : StoreEvent))] =
        [⟨.claimsAbout rows ownerId c, stored⟩] := by simp [own]
    rw [hread, List.singleton_append] at hown
    rcases List.append_eq_append_iff.mp hown with ⟨mid, hasks, _⟩ | ⟨mid, _, hwrites⟩
    · have hin : (⟨.exec op, ()⟩ : StoreEvent) ∈ own i pre := mem_own.mpr hpre
      exact absurd (by rw [hasks]; exact List.mem_append_left _ hin) exec_not_mem_asks
    · have hin : (⟨.claimsAbout rows ownerId c, stored⟩ : StoreEvent) ∈ writes (run.answers i).ops := by
        rw [hwrites]
        simp
      obtain ⟨_, _, he⟩ := List.mem_map.mp hin
      exact absurd (congrArg Sigma.fst he) (by simp)
  · exact (List.mem_cons.mp hmem).resolve_left (fun he => by simp at he)

/-- The read behind a pending claim that is still active. -/
theorem exists_read (run : Interleaved jobs s t) {i : I} {b : Claim} (hb : b ∈ (run.answers i).pending)
    (hba : b.status = .active) :
    ∃ pre post c, t = pre ++ (i, ⟨.claimsAbout (jobs i).rows (jobs i).ownerId c,
        storedAbout (jobs i).rows (execAll (writesOf pre) s) (jobs i).ownerId b⟩) :: post ∧ bare b = bare c ∧
      ∀ a ∈ storedAbout (jobs i).rows (execAll (writesOf pre) s) (jobs i).ownerId b, Rival b a → a.id ∈ b.supersedes := by
  obtain ⟨q, hq, hfound, hbare, hall⟩ := pending_supersedes_stored hb hba
  have hmem : (⟨.claimsAbout (jobs i).rows (jobs i).ownerId q.claim, q.stored⟩ : StoreEvent) ∈ own i t := by
    rw [run.calls]
    exact List.mem_append_left _ (List.mem_flatMap.mpr ⟨q, hq, by simp [asks, hfound]⟩)
  obtain ⟨pre, post, ht⟩ := List.append_of_mem (mem_own.mp hmem)
  have hstored : q.stored = storedAbout (jobs i).rows (execAll (writesOf pre) s) (jobs i).ownerId q.claim :=
    run.reads pre i _ _ post ht
  have hsub : b.subjectEntityIds = q.claim.subjectEntityIds := eq_of_bare _ (fun _ => rfl) hbare
  have hsame : q.stored = storedAbout (jobs i).rows (execAll (writesOf pre) s) (jobs i).ownerId b := by
    rw [hstored, storedAbout, storedAbout, hsub]
  rw [hsame] at ht hall
  exact ⟨pre, post, q.claim, ht, hbare, fun a ha hr => (hall a ha hr).2⟩

/-- Whoever is superseded by a pending claim is marked after the read behind it. -/
theorem marked_after (run : Interleaved jobs s t) {i : I} {b : Claim} (hb : b ∈ (run.answers i).pending) {x : String}
    (hx : x ∈ b.supersedes) {pre post : StoreTrace I} {rows : RowOrder Claim} {ownerId : String} {c : Claim}
    {stored : List Claim} (h : t = pre ++ (i, ⟨.claimsAbout rows ownerId c, stored⟩) :: post) :
    marked (writesOf post) x :=
  mem_writesOf.mpr ⟨i, run.exec_after_read h (((run.answers i).carries_ops.marked_iff x).mpr ⟨b, hb, hx⟩)⟩

/-- A claim stored from the start is not missed. -/
theorem conflict_with_initial (run : Interleaved jobs s t) (hs : Sound s) {i : I} {a b : Claim}
    (hb : b ∈ (run.answers i).pending) (hba : b.status = .active) (ha : s.claim? a.id = some a)
    (hn : ∀ op ∈ writesOf t, ∀ d, op.claim? = some d → d.id ≠ a.id) (hact : a.status = .active)
    (hm : ¬ marked (writesOf t) a.id) (hne : a.id ≠ b.id) : ¬ Conflict b a := by
  intro hc
  obtain ⟨pre, post, c, ht, _, hall⟩ := run.exists_read hb hba
  have hw : writesOf t = writesOf pre ++ writesOf post := by
    rw [ht, writesOf_append]
    rfl
  have hrow : (execAll (writesOf pre) s).claim? a.id = some a := by
    have hsp : OnlySupersedes (writesOf pre) :=
      fun y st h => run.onlySupersedes y st (by rw [hw]; exact List.mem_append_left _ h)
    rw [claim?_execAll hsp (fun op hop => hn op (by rw [hw]; exact List.mem_append_left _ hop)), ha, Option.map_some,
      touch_of_not_marked]
    exact fun h => hm (by rw [marked, hw]; exact List.mem_append_left _ h)
  obtain ⟨e, heb, hea⟩ := hc.2.1
  have hown : a.ownerId = (jobs i).ownerId := hc.1.symm.trans ((run.answers i).owner_of_mem_pending hb)
  have hmem : a ∈ storedAbout (jobs i).rows (execAll (writesOf pre) s) (jobs i).ownerId b :=
    ((jobs i).rows.perm _).mem_iff.mpr ((Store.mem_claimsAbout (hs.columns.execAll _) _ _ _).mpr
      ⟨hrow, hown, e, heb, edges_execAll_mono (hs.about a.id a ha e hea)⟩)
  refine hm ?_
  rw [marked, hw]
  exact List.mem_append_right _ (run.marked_after hb (hall a hmem ⟨hc.disputes hne, hact⟩) ht)

/-- A claim's link to a subject that is not written after some read was written before it, and so was its subject. -/
theorem edge_before (run : Interleaved jobs s t) {j : I} {a : Claim} (ha : a ∈ (run.answers j).pending) {e : String}
    (hea : e ∈ a.subjectEntityIds) {pre post : StoreTrace I} {read : I × StoreEvent} (hread : t = pre ++ read :: post)
    (hother : (j, (⟨.exec (.link a.id .about e), ()⟩ : StoreEvent)) ≠ read)
    (hnot : (j, (⟨.exec (.link a.id .about e), ()⟩ : StoreEvent)) ∉ post) :
    (Store.claimKey a.id, Rel.about, Store.entityKey e) ∈ (execAll (writesOf pre) s).edges := by
  obtain ⟨p, r, hpr⟩ := List.append_of_mem ha
  obtain ⟨before, after, hops, _, _, hent⟩ := (run.answers j).ops_split hpr
  have hlink : .link a.id .about e ∈ claimTail a := by
    have h := (link_mem_claimOps a a.id .about e).mpr ⟨rfl, hea⟩
    rw [claimOps_eq] at h
    exact (List.mem_cons.mp h).resolve_left (by simp)
  obtain ⟨l, m, htail⟩ := List.append_of_mem hlink
  have hown : own j t = ((run.answers j).asked.flatMap (asks (jobs j).rows (jobs j).ownerId) ++
      writes (before ++ .upsert (.claim a) a.statement :: l)) ++ ⟨.exec (.link a.id .about e), ()⟩ ::
        writes (m ++ after) := by
    rw [run.calls, hops, claimOps_eq, htail]
    simp [writes]
  obtain ⟨x, y, hxy, hx, _⟩ := exists_split_of_own hown
  obtain ⟨mid, hpre, _⟩ := before_of_not_after (hxy.symm.trans hread) hother hnot
  have hin : ∀ op ∈ before ++ .upsert (.claim a) a.statement :: l, op ∈ writesOf x := by
    intro op hop
    refine mem_writesOf.mpr ⟨j, mem_own.mp ?_⟩
    rw [hx]
    exact List.mem_append_right _ (List.mem_map.mpr ⟨op, hop, rfl⟩)
  have hwpre : writesOf pre = writesOf x ++ .link a.id .about e :: writesOf mid := by
    rw [hpre, writesOf_append]
    rfl
  refine (mem_edges_execAll _ _ _ _ _).mpr (Or.inr ⟨writesOf x, writesOf mid, hwpre, ?_, ?_⟩)
  · have hself : .upsert (.claim a) a.statement ∈ before ++ .upsert (.claim a) a.statement :: l := by simp
    exact (mem_keys_execAll _ _ _).mpr (Or.inr ⟨_, hin _ hself, rfl⟩)
  · obtain ⟨op, hop, hk⟩ := hent e (List.mem_append_left _ hea)
    exact (mem_keys_execAll _ _ _).mpr (Or.inr ⟨op, hin op (List.mem_append_left _ hop), hk⟩)

/-- Two active claims that conflict, the one last written by `j` and the other one `i`'s: `i` asked too early. -/
theorem asked_before (run : Interleaved jobs s t) (hs : Sound s) {i j : I} {a b : Claim}
    (hb : b ∈ (run.answers i).pending) (hba : b.status = .active) (ha : a ∈ (run.answers j).pending)
    (hact : a.status = .active) (hne : a.id ≠ b.id) (hc : Conflict b a) {u v : StoreTrace I}
    (ht : t = u ++ (j, ⟨.exec (.upsert (.claim a) a.statement), ()⟩) :: v)
    (hlast : ∀ op ∈ writesOf v, ∀ d, op.claim? = some d → d.id ≠ a.id) (hm : ¬ marked (writesOf v) a.id) :
    AskedBefore t i j b a := by
  obtain ⟨pre, post, c, hread, hbare, hall⟩ := run.exists_read hb hba
  by_contra hno
  have hnot : ∀ op, Stores a b op → (j, (⟨.exec op, ()⟩ : StoreEvent)) ∉ post := fun op hop hmem =>
    hno ⟨pre, post, _, _, c, _, hread, hbare.symm, op, hmem, hop⟩
  -- The last copy of `a` was written before the read, and nothing touches it until then.
  obtain ⟨mid, hpre, hv⟩ := before_of_not_after (ht.symm.trans hread) (by simp) (hnot _ (Or.inl rfl))
  have hwmid : ∀ op ∈ writesOf mid, op ∈ writesOf v := by
    intro op hop
    rw [hv, writesOf_append]
    exact List.mem_append_left _ hop
  have hw : ∀ op ∈ writesOf v, op ∈ writesOf t := by
    intro op hop
    rw [ht, writesOf_append]
    exact List.mem_append_right _ (List.mem_cons_of_mem _ hop)
  have hrow : (execAll (writesOf pre) s).claim? a.id = some a := by
    have hwpre : writesOf pre = writesOf u ++ .upsert (.claim a) a.statement :: writesOf mid := by
      rw [hpre, writesOf_append]
      rfl
    rw [hwpre, claim?_execAll_split (fun y st h => run.onlySupersedes y st (hw _ (hwmid _ h)))
      (fun op hop => hlast op (hwmid op hop)), touch_of_not_marked]
    exact fun h => hm (hwmid _ h)
  -- So was its link to the shared subject, whose node `j` wrote before it.
  obtain ⟨e, heb, hea⟩ := hc.2.1
  have hedge : (Store.claimKey a.id, Rel.about, Store.entityKey e) ∈ (execAll (writesOf pre) s).edges :=
    run.edge_before ha hea hread (by simp) (hnot _ (Or.inr ⟨e, hea, heb, rfl⟩))
  have hown : a.ownerId = (jobs i).ownerId := hc.1.symm.trans ((run.answers i).owner_of_mem_pending hb)
  have hmem : a ∈ storedAbout (jobs i).rows (execAll (writesOf pre) s) (jobs i).ownerId b :=
    ((jobs i).rows.perm _).mem_iff.mpr ((Store.mem_claimsAbout (hs.columns.execAll _) _ _ _).mpr
      ⟨hrow, hown, e, heb, hedge⟩)
  have hpost : marked (writesOf post) a.id := run.marked_after hb (hall a hmem ⟨hc.disputes hne, hact⟩) hread
  refine hm ?_
  rw [marked, hv, writesOf_append]
  exact List.mem_append_right _ hpost

/-- The last copy of an active claim: it was stored from the start, or one of the runs wrote it. -/
theorem last_copy (run : Interleaved jobs s t) {x : String} {a : Claim}
    (ha : (execAll (writesOf t) s).claim? x = some a) (haa : a.status = .active) :
    (s.claim? a.id = some a ∧ (∀ op ∈ writesOf t, ∀ d, op.claim? = some d → d.id ≠ a.id) ∧ ¬ marked (writesOf t) a.id) ∨
      ∃ j u v, a ∈ (run.answers j).pending ∧ t = u ++ (j, ⟨.exec (.upsert (.claim a) a.statement), ()⟩) :: v ∧
        (∀ op ∈ writesOf v, ∀ d, op.claim? = some d → d.id ≠ a.id) ∧ ¬ marked (writesOf v) a.id := by
  rcases claim?_execAll_active run.onlySupersedes ha haa with ⟨hc, hn, hm⟩ | ⟨l, text, m, hw, rfl, hn, hm⟩
  · obtain rfl := Store.id_of_claim? hc
    exact Or.inl ⟨hc, hn, hm⟩
  · obtain ⟨u, j, v, ht, _, rfl⟩ := exists_split_of_writesOf hw
    have hop : .upsert (.claim a) text ∈ (run.answers j).ops := by
      refine (run.exec_mem_iff j _).mp ?_
      rw [ht]
      simp
    obtain ⟨hc, rfl⟩ := (run.answers j).carries_ops.text_of_mem hop
    exact Or.inr ⟨j, u, v, hc, ht, hn, hm⟩

end Interleaved

section Runs
variable {I : Type} [DecidableEq I] (jobs : I → Job) (schedule : List I) (s : Store)

/-- The jobs take turns on one store as the schedule says, one store call at a time. -/
def together : Config Store I Call Answer := interleave storeService schedule s (fun i => (jobs i).prog)

def AllDone : Prop := ∀ i, (together jobs schedule s).progs i = .done

instance [Fintype I] : Decidable (AllDone jobs schedule s) := by unfold AllDone; infer_instance

theorem state_together : (together jobs schedule s).state = execAll (writesOf (together jobs schedule s).trace) s :=
  (coherent_interleave storeService schedule s _).state.trans (replay_eq _ _)

theorem interleaved_together (h : AllDone jobs schedule s) :
    Nonempty (Interleaved jobs s (together jobs schedule s).trace) := by
  have hc := coherent_interleave storeService schedule s (fun i => (jobs i).prog)
  have hleads : ∀ i, ∃ answers : Answers (jobs i), own i (together jobs schedule s).trace =
      answers.asked.flatMap (asks (jobs i).rows (jobs i).ownerId) ++ writes answers.ops := by
    intro i
    exact Job.leads_prog (h i ▸ hc.leads i)
  choose answers hcalls using hleads
  refine ⟨answers, hcalls, ?_⟩
  intro pre i c a post ht
  rw [← replay_eq]
  exact hc.answers pre i c a post ht

end Runs

/-- Runs that take turns leave two live versions of one decision only where two of them missed each
other: each had asked about its claim before the other was done storing its own. -/
theorem two_live_versions_missed {I : Type} [DecidableEq I] (jobs : I → Job) (schedule : List I) (s : Store)
    (hs : Sound s) (hone : OneLive s) (hdone : AllDone jobs schedule s) (x y : String) (a b : Claim)
    (ha : (together jobs schedule s).state.claim? x = some a) (hb : (together jobs schedule s).state.claim? y = some b)
    (haa : a.status = .active) (hba : b.status = .active) (hc : Conflict a b) :
    ∃ i j, i ≠ j ∧ AskedBefore (together jobs schedule s).trace i j b a ∧
      AskedBefore (together jobs schedule s).trace j i a b := by
  obtain ⟨run⟩ := interleaved_together jobs schedule s hdone
  rw [state_together] at ha hb
  have hne : a.id ≠ b.id := by
    intro he
    rw [Store.id_of_claim? ha, Store.id_of_claim? hb] at he
    obtain rfl := Option.some.inj (ha.symm.trans (he ▸ hb))
    exact hc.2.2.2 ⟨rfl, rfl⟩
  rcases run.last_copy ha haa with ⟨ha0, hna, hma⟩ | ⟨j, u, v, hja, htj, hna, hma⟩ <;>
    rcases run.last_copy hb hba with ⟨hb0, hnb, hmb⟩ | ⟨i, u', v', hib, hti, hnb, hmb⟩
  · exact absurd hc (hone a.id b.id a b ha0 hb0 haa hba)
  · exact absurd hc.symm (run.conflict_with_initial hs hib hba ha0 hna haa hma hne)
  · exact absurd hc (run.conflict_with_initial hs hja haa hb0 hnb hba hmb hne.symm)
  · have hij : i ≠ j := by
      rintro rfl
      exact pending_settled hja hib haa hba (hc.disputes hne.symm)
    exact ⟨i, j, hij, run.asked_before hs hib hba hja haa hne hc.symm htj hna hma,
      run.asked_before hs hja haa hib hba hne.symm hc hti hnb hmb⟩

def redisAndPostgres : Bool → Job
  | false => toRedis
  | true => toPostgres

/-- Both runs ask, then one writes, then the other. -/
def askFirst : List Bool := [false, false, true, true] ++ List.replicate 6 false ++ List.replicate 6 true

def redis : Claim := soleClaim toRedis
def postgres : Claim := soleClaim toPostgres

theorem two_live_versions_missed_redis : ∃ i j, i ≠ j ∧
    AskedBefore (together redisAndPostgres askFirst PropertyGraph.empty).trace i j postgres redis ∧
    AskedBefore (together redisAndPostgres askFirst PropertyGraph.empty).trace j i redis postgres :=
  two_live_versions_missed redisAndPostgres askFirst PropertyGraph.empty Sound.empty
    (fun _ _ _ _ ha => absurd ha (by simp [Store.claim?])) (by decide +kernel) redis.id postgres.id redis postgres
    (by decide +kernel) (by decide +kernel) (by decide) (by decide) (by decide +kernel)

/-- Each run misses the other's decision, and both stay. -/
theorem concurrent_runs_keep_both : ¬ ∀ (jobs : Bool → Job) (schedule : List Bool) (s : Store), Sound s → OneLive s →
    (jobs false).ownerId = (jobs true).ownerId → AllDone jobs schedule s → OneLive (together jobs schedule s).state := by
  intro h
  have hone : OneLive (PropertyGraph.empty : Store) := fun _ _ _ _ ha => absurd ha (by simp [Store.claim?])
  have hlive := h redisAndPostgres askFirst PropertyGraph.empty Sound.empty hone rfl (by decide +kernel)
  exact hlive redis.id postgres.id redis postgres (by decide +kernel) (by decide +kernel) (by decide) (by decide)
    (by decide +kernel)

end Memorai.Ingestion
