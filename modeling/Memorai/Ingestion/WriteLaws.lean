import Memorai.Collections.Lists
import Memorai.Ingestion.Pipeline
import Memorai.Resolution.ResolverLaws
import Memorai.Storage.OpTrace

/-! What a run sends to the store: the pending claims of its resolution, in order, each after
the nodes it links to. -/
namespace Memorai.Ingestion
open Schema Storage Extraction Resolver

/-- Statements of entities and events. None of them touches a claim row or what resolution decided. -/
def Quiet (op : StoreOp) : Prop :=
  op.claim? = none ∧ (∀ y st, op ≠ .setClaimStatus y st) ∧
    ∀ a q b, op = .link a q b → q = .mentions ∨ q = .cites

/-- The ids a written claim is linked to, by relation. -/
def linked (claim : Claim) : Rel → List String
  | .about => claim.subjectEntityIds
  | .owedBy => (claim.commitment.map Commitment.owedByEntityId).toList
  | .owedTo => ((claim.commitment.bind Commitment.owedToEntityId).filter (· ≠ "")).toList
  | .cites => claim.provenance.citations.map Citation.eventId
  | .supersedes => claim.supersedes
  | .contradicts => claim.contradicts
  | .mentions => []
  | .other _ => []

private theorem link_of_mem_commitmentOps {x : String} {d : Commitment} {op : StoreOp} (h : op ∈ commitmentOps x d) :
    ∃ q b, op = .link x q b := by
  rcases List.mem_cons.mp h with rfl | h
  · exact ⟨_, _, rfl⟩
  · split at h
    · split at h
      · exact absurd h List.not_mem_nil
      · exact ⟨_, _, List.mem_singleton.mp h⟩
    · exact absurd h List.not_mem_nil

/-- What follows the upsert of a claim. -/
def claimTail (claim : Claim) : List StoreOp := (claimOps claim).tail

theorem claimOps_eq (claim : Claim) :
    claimOps claim = .upsert (.claim claim) claim.statement :: claimTail claim := by
  simp [claimTail, claimOps]

theorem mem_claimTail_cases {claim : Claim} {op : StoreOp} (h : op ∈ claimTail claim) :
    (∃ q b, op = .link claim.id q b) ∨ ∃ y st, op = .setClaimStatus y st := by
  simp only [claimTail, claimOps, List.cons_append, List.tail_cons, List.mem_append, List.mem_cons, List.mem_map,
    List.mem_flatMap, List.not_mem_nil, or_false] at h
  rcases h with (((⟨_, _, rfl⟩ | ⟨d, _, h⟩) | ⟨_, _, rfl⟩) | ⟨_, _, rfl | rfl⟩) | ⟨_, _, rfl⟩
  · exact Or.inl ⟨_, _, rfl⟩
  · exact Or.inl (link_of_mem_commitmentOps h)
  · exact Or.inl ⟨_, _, rfl⟩
  · exact Or.inl ⟨_, _, rfl⟩
  · exact Or.inr ⟨_, _, rfl⟩
  · exact Or.inl ⟨_, _, rfl⟩

theorem claim?_of_mem_claimTail {claim : Claim} {op : StoreOp} (h : op ∈ claimTail claim) : op.claim? = none := by
  rcases mem_claimTail_cases h with ⟨q, b, rfl⟩ | ⟨y, st, rfl⟩ <;> rfl

theorem claim?_of_mem_claimOps {claim c : Claim} {op : StoreOp} (h : op ∈ claimOps claim) (hc : op.claim? = some c) :
    c = claim := by
  rw [claimOps_eq] at h
  rcases List.mem_cons.mp h with rfl | h
  · exact (Option.some.inj hc).symm
  · exact absurd hc (by rw [claim?_of_mem_claimTail h]; simp)

theorem setClaimStatus_mem_claimOps (claim : Claim) (y : String) (st : ClaimStatus) :
    .setClaimStatus y st ∈ claimOps claim ↔ y ∈ claim.supersedes ∧ st = .superseded := by
  have hc : ∀ d, StoreOp.setClaimStatus y st ∉ commitmentOps claim.id d := by
    intro d h
    obtain ⟨q, b, he⟩ := link_of_mem_commitmentOps h
    exact absurd he (by simp)
  simp [claimOps, hc]

private theorem link_mem_commitmentOps (x : String) (d : Commitment) (a : String) (q : Rel) (b : String) :
    .link a q b ∈ commitmentOps x d ↔
      a = x ∧ (q = .owedBy ∧ b = d.owedByEntityId ∨ q = .owedTo ∧ d.owedToEntityId = some b ∧ b ≠ "") := by
  cases ho : d.owedToEntityId with
  | none => simp [commitmentOps, ho]
  | some z =>
    by_cases hz : z = ""
    · subst hz
      simp [commitmentOps, ho]
    · simp only [commitmentOps, ho, if_neg hz, List.mem_cons, StoreOp.link.injEq, List.not_mem_nil, or_false,
        Option.some.injEq]
      constructor
      · intro h
        rcases h with ⟨rfl, rfl, rfl⟩ | ⟨rfl, rfl, rfl⟩
        · exact ⟨rfl, Or.inl ⟨rfl, rfl⟩⟩
        · exact ⟨rfl, Or.inr ⟨rfl, rfl, hz⟩⟩
      · intro h
        rcases h with ⟨rfl, ⟨rfl, rfl⟩ | ⟨rfl, rfl, _⟩⟩
        · exact Or.inl ⟨rfl, rfl, rfl⟩
        · exact Or.inr ⟨rfl, rfl, rfl⟩

theorem link_mem_claimOps (claim : Claim) (a : String) (q : Rel) (b : String) :
    .link a q b ∈ claimOps claim ↔ a = claim.id ∧ b ∈ linked claim q := by
  simp only [claimOps, List.mem_append, List.mem_cons, List.mem_map, List.mem_flatMap, link_mem_commitmentOps]
  cases q with
  | owedBy => cases hd : claim.commitment <;> simp [linked, hd, eq_comm]
  | owedTo =>
    cases hd : claim.commitment with
    | none => simp [linked, hd]
    | some d => simp [linked, hd, Option.filter_eq_some_iff]
  | cites => simp [linked, eq_comm, and_left_comm]
  | about => simp [linked, eq_comm, and_comm]
  | supersedes => simp [linked, eq_comm, and_comm]
  | contradicts => simp [linked, eq_comm, and_comm]
  | mentions => simp [linked]
  | other name => simp [linked]

theorem upsert_mem_claimOps (claim : Claim) : .upsert (.claim claim) claim.statement ∈ claimOps claim := by
  simp [claimOps]

theorem onlySupersedes_claimOps (claim : Claim) : OnlySupersedes (claimOps claim) := fun _ _ h =>
  ((setClaimStatus_mem_claimOps _ _ _).mp h).2

theorem quiet_of_mem_writeEntity {entity : Entity} {op : StoreOp} (h : op ∈ (writeEntity entity).ops) : Quiet op := by
  obtain rfl := List.mem_singleton.mp h
  exact ⟨rfl, by simp, by simp⟩

private theorem quiet_of_mem_eventOps {event : Event} {op : StoreOp} (h : op ∈ eventOps event) : Quiet op := by
  simp only [eventOps, List.mem_append, List.mem_cons, List.mem_map] at h
  rcases h with (rfl | ⟨_, _, rfl⟩) | ⟨_, _, rfl⟩
  · exact ⟨rfl, by simp, by simp⟩
  · refine ⟨rfl, by simp, fun a q b he => ?_⟩
    injection he with _ hq
    exact Or.inl hq.symm
  · refine ⟨rfl, by simp, fun a q b he => ?_⟩
    injection he with _ hq
    exact Or.inr hq.symm

private theorem key?_of_mem_eventOps {event : Event} {op : StoreOp} {k : NodeKey} (h : op ∈ eventOps event)
    (hk : op.key? = some k) : k = Store.eventKey event.id := by
  simp only [eventOps, List.mem_append, List.mem_cons, List.mem_map] at h
  rcases h with (rfl | ⟨_, _, rfl⟩) | ⟨_, _, rfl⟩
  · exact (Option.some.inj hk).symm
  · exact absurd hk (by simp [StoreOp.key?])
  · exact absurd hk (by simp [StoreOp.key?])

theorem key?_of_mem_writeEvent {records : List RawRecord} {sealed : List (String × Sealed)} {event : Event}
    {op : StoreOp} {k : NodeKey} (h : op ∈ (writeEvent records sealed event).ops) (hk : op.key? = some k) :
    k = Store.eventKey event.id := by
  unfold writeEvent at h
  split at h
  · rename_i blob _
    exact @key?_of_mem_eventOps { event with encryptedContent := some blob.ref, body := none } op k h hk
  · split at h
    · exact absurd h List.not_mem_nil
    · exact key?_of_mem_eventOps h hk

private theorem source_of_mem_eventOps {event : Event} {a t : String} {q : Rel} (h : .link a q t ∈ eventOps event) :
    a = event.id := by
  simp only [eventOps, List.mem_append, List.mem_cons, List.mem_map] at h
  rcases h with (h | ⟨_, _, h⟩) | ⟨_, _, h⟩
  · exact absurd h (by simp)
  · injection h with h
    exact h.symm
  · injection h with h
    exact h.symm

theorem source_of_mem_writeEvent {records : List RawRecord} {sealed : List (String × Sealed)} {event : Event}
    {a t : String} {q : Rel} (h : .link a q t ∈ (writeEvent records sealed event).ops) : a = event.id := by
  unfold writeEvent at h
  split at h
  · rename_i blob _
    exact @source_of_mem_eventOps { event with encryptedContent := some blob.ref, body := none } a t q h
  · split at h
    · exact absurd h List.not_mem_nil
    · exact source_of_mem_eventOps h

theorem quiet_of_mem_writeEvent {records : List RawRecord} {sealed : List (String × Sealed)} {event : Event}
    {op : StoreOp} (h : op ∈ (writeEvent records sealed event).ops) : Quiet op := by
  unfold writeEvent at h
  split at h
  · exact quiet_of_mem_eventOps h
  · split at h
    · exact absurd h List.not_mem_nil
    · exact quiet_of_mem_eventOps h

private theorem ops_foldl_append (ws : List Written) (w : Written) :
    (ws.foldl Written.append w).ops = w.ops ++ ws.flatMap Written.ops := by
  induction ws generalizing w with
  | nil => simp
  | cons v ws ih => simp [ih, Written.append]

theorem ops_writeCandidate (records : List RawRecord) (sealed : List (String × Sealed)) (candidate : Candidate) :
    (writeCandidate records sealed candidate).ops =
      candidate.entities.flatMap (fun e => (writeEntity e).ops) ++
        candidate.events.flatMap (fun e => (writeEvent records sealed e).ops) ++
        candidate.claims.flatMap claimOps := by
  simp [writeCandidate, ops_foldl_append, List.flatMap_map, writeClaim]

theorem ops_write (records : List RawRecord) (sealed : List (String × Sealed)) (candidates : List Candidate) :
    (write records sealed candidates).ops =
      candidates.flatMap (fun c => (writeCandidate records sealed c).ops) := by
  simp [write, ops_foldl_append, List.flatMap_map]

/-- The statements of the claims `cs`, with quiet ones between them. -/
structure Carries (ops : List StoreOp) (cs : List Claim) : Prop where
  only : ∀ op ∈ ops, Quiet op ∨ ∃ d ∈ cs, op ∈ claimOps d
  all : ∀ d ∈ cs, ∀ op ∈ claimOps d, op ∈ ops

namespace Carries
variable {ops ops' : List StoreOp} {cs cs' : List Claim}

theorem nil : Carries [] [] :=
  ⟨fun _ h => absurd h List.not_mem_nil, fun _ h => absurd h List.not_mem_nil⟩

theorem single (claim : Claim) : Carries (claimOps claim) [claim] :=
  ⟨fun _ h => Or.inr ⟨claim, List.mem_singleton_self _, h⟩, fun _ hd _ h => List.mem_singleton.mp hd ▸ h⟩

theorem append (h : Carries ops cs) (h' : Carries ops' cs') : Carries (ops ++ ops') (cs ++ cs') := by
  refine ⟨fun op hop => ?_, fun d hd op hop => ?_⟩
  · rcases List.mem_append.mp hop with hop | hop
    · exact (h.only op hop).imp id (fun ⟨d, hd, hdo⟩ => ⟨d, List.mem_append_left _ hd, hdo⟩)
    · exact (h'.only op hop).imp id (fun ⟨d, hd, hdo⟩ => ⟨d, List.mem_append_right _ hd, hdo⟩)
  · rcases List.mem_append.mp hd with hd | hd
    · exact List.mem_append_left _ (h.all d hd op hop)
    · exact List.mem_append_right _ (h'.all d hd op hop)

theorem flatMap (cs : List Claim) : Carries (cs.flatMap claimOps) cs := by
  induction cs with
  | nil => exact nil
  | cons c cs ih =>
    rw [List.flatMap_cons]
    exact (single c).append ih

theorem onlySupersedes (h : Carries ops cs) : OnlySupersedes ops := by
  intro y st hop
  rcases h.only _ hop with hq | ⟨d, _, hd⟩
  · exact absurd rfl (hq.2.1 y st)
  · exact onlySupersedes_claimOps d y st hd

/-- A stored status is set to superseded exactly when one of the claims supersedes it. -/
theorem marked_iff (h : Carries ops cs) (x : String) : marked ops x ↔ ∃ d ∈ cs, x ∈ d.supersedes := by
  refine ⟨fun hm => ?_, fun ⟨d, hd, hx⟩ => ?_⟩
  · rcases h.only _ hm with hq | ⟨d, hd, hop⟩
    · exact absurd rfl (hq.2.1 x _)
    · exact ⟨d, hd, ((setClaimStatus_mem_claimOps d x _).mp hop).1⟩
  · exact h.all d hd _ ((setClaimStatus_mem_claimOps d x _).mpr ⟨hx, rfl⟩)

theorem mem_of_claim? (h : Carries ops cs) {op : StoreOp} (hop : op ∈ ops) {c : Claim} (hc : op.claim? = some c) :
    c ∈ cs := by
  rcases h.only op hop with hq | ⟨d, hd, hop⟩
  · exact absurd hc (by rw [hq.1]; simp)
  · exact claim?_of_mem_claimOps hop hc ▸ hd

theorem text_of_mem (h : Carries ops cs) {c : Claim} {text : String} (hop : .upsert (.claim c) text ∈ ops) :
    c ∈ cs ∧ text = c.statement := by
  rcases h.only _ hop with hq | ⟨d, hd, hop⟩
  · exact absurd hq.1 (by simp [StoreOp.claim?])
  · obtain rfl := claim?_of_mem_claimOps hop rfl
    rw [claimOps_eq] at hop
    rcases List.mem_cons.mp hop with he | ht
    · cases he
      exact ⟨hd, rfl⟩
    · exact absurd (claim?_of_mem_claimTail ht) (by simp [StoreOp.claim?])

theorem link_mem_iff (h : Carries ops cs) {a : String} {q : Rel} {t : String} (hm : q ≠ .mentions) (hc : q ≠ .cites) :
    .link a q t ∈ ops ↔ ∃ d ∈ cs, a = d.id ∧ t ∈ linked d q := by
  refine ⟨fun hl => ?_, fun ⟨d, hd, hl⟩ => ?_⟩
  · rcases h.only _ hl with hq | ⟨d, hd, hop⟩
    · exact absurd (hq.2.2 a q t rfl) (by simp [hm, hc])
    · exact ⟨d, hd, (link_mem_claimOps d a q t).mp hop⟩
  · exact h.all d hd _ ((link_mem_claimOps d a q t).mpr hl)

theorem key_of_mem (h : Carries ops cs) {d : Claim} (hd : d ∈ cs) :
    ∃ op ∈ ops, op.key? = some (Store.claimKey d.id) :=
  ⟨_, h.all d hd _ (upsert_mem_claimOps d), rfl⟩

end Carries

/-- A candidate as resolution hands it on: its claims are the fresh ones, changed in what
resolution decides only. -/
structure Refreshed (candidate : Candidate) (asked : List Asked) (merged : Candidate) : Prop where
  entities : merged.entities = candidate.entities
  events : merged.events = candidate.events
  claims : merged.claims.map bare = (freshOf asked).map bare

private theorem filterMap_range' {α : Type} (front part rest : List α) :
    (List.range' front.length part.length).filterMap (fun i => (front ++ part ++ rest)[i]?) = part := by
  induction part generalizing front with
  | nil => rfl
  | cons a part ih =>
    have h := ih (front ++ [a])
    have hlist : front ++ [a] ++ part ++ rest = front ++ a :: part ++ rest := by simp
    rw [hlist, List.length_append, List.length_singleton] at h
    have ha : (front ++ a :: part ++ rest)[front.length]? = some a := by simp
    rw [List.length_cons, List.range'_succ, List.filterMap_cons, ha, h]

/-- The store's answers to a job, one list for each candidate and one answer for each claim. -/
structure Answers (job : Job) where
  groups : List (Candidate × List Asked)
  candidates : groups.map Prod.fst = job.candidates
  claims : ∀ g ∈ groups, g.2.map Asked.claim = g.1.claims

namespace Answers
variable {job : Job} (answers : Answers job)

def asked : List Asked := answers.groups.flatMap Prod.snd

def resolved : List Resolution × List Claim :=
  (resolutionsFrom [] (answers.groups.map Prod.snd), settleAll [] answers.asked)

/-- The claims of the batch as resolution leaves them, in the order they are written. -/
def pending : List Claim := settleAll [] answers.asked

def merged : List Candidate := merge job.candidates answers.resolved

/-- The statements a job sends once it is resolved on these answers. -/
def ops : List StoreOp := (write job.records job.sealed answers.merged).ops

theorem pending_bare : answers.pending.map bare = (freshOf answers.asked).map bare := by
  simpa [pending] using settleAll_bare [] answers.asked

private theorem zipWith_mergeOne (groups : List (Candidate × List Asked)) (p front rest : List Claim)
    (hp : p.length = front.length) (hr : rest.map bare = (freshOf (groups.flatMap Prod.snd)).map bare) :
    (List.zipWith (mergeOne (front ++ rest)) (groups.map Prod.fst)
        (resolutionsFrom p (groups.map Prod.snd))).flatMap Candidate.claims = rest ∧
      List.Forall₂ (fun g m => Refreshed g.1 g.2 m) groups
        (List.zipWith (mergeOne (front ++ rest)) (groups.map Prod.fst)
          (resolutionsFrom p (groups.map Prod.snd))) := by
  induction groups generalizing p front rest with
  | nil => simpa [freshOf] using hr.symm
  | cons g gs ih =>
    rw [List.flatMap_cons, freshOf_append, List.map_append] at hr
    obtain ⟨part, rest, rfl, hpart, hrest⟩ := List.map_eq_append_iff.mp hr
    have hlen : part.length = (freshOf g.2).length := by simpa using congrArg List.length hpart
    have hclaims : (mergeOne (front ++ (part ++ rest)) g.1 (resolutionOf p g.2)).claims = part := by
      simp only [mergeOne, resolutionOf, hp, ← hlen, ← List.append_assoc]
      exact filterMap_range' front part rest
    obtain ⟨hflat, hall⟩ := ih (settleAll p g.2) (front ++ part) rest
      (by rw [length_settleAll, List.length_append, hp, hlen]) hrest
    rw [List.append_assoc] at hflat hall
    rw [List.map_cons, List.map_cons, resolutionsFrom, List.zipWith_cons_cons, List.flatMap_cons, hclaims, hflat]
    exact ⟨rfl, .cons ⟨rfl, rfl, (congrArg (List.map bare) hclaims).trans hpart⟩ hall⟩

private theorem merged_spec :
    answers.merged.flatMap Candidate.claims = answers.pending ∧
      List.Forall₂ (fun g m => Refreshed g.1 g.2 m) answers.groups answers.merged := by
  have h := zipWith_mergeOne answers.groups [] [] answers.pending rfl answers.pending_bare
  rw [answers.candidates] at h
  exact h

/-- Every pending claim is written, once and in order. -/
theorem merged_claims : answers.merged.flatMap Candidate.claims = answers.pending := answers.merged_spec.1

theorem merged_refreshed : List.Forall₂ (fun g m => Refreshed g.1 g.2 m) answers.groups answers.merged :=
  answers.merged_spec.2

theorem claim_mem {q : Asked} (hq : q ∈ answers.asked) :
    ∃ p ∈ job.extracted, q.claim ∈ p.2.claims ∧ Unresolved job.ownerId p.2 q.claim := by
  obtain ⟨g, hg, hq⟩ := List.mem_flatMap.mp hq
  have hc : q.claim ∈ g.1.claims := answers.claims g hg ▸ List.mem_map_of_mem hq
  have hcand : g.1 ∈ job.candidates := answers.candidates ▸ List.mem_map_of_mem hg
  obtain ⟨p, hp, hpg⟩ := List.mem_map.mp hcand
  rw [← hpg] at hc
  exact ⟨p, hp, hc, job.contract p hp _ hc⟩

theorem raw_asked : ∀ q ∈ answers.asked, Raw q.claim := by
  intro q hq
  obtain ⟨_, _, _, h⟩ := answers.claim_mem hq
  exact ⟨h.status, h.supersedes, h.contradicts⟩

theorem exists_of_mem_merged {m : Candidate} (h : m ∈ answers.merged) :
    ∃ g ∈ answers.groups, ∃ p ∈ job.extracted, p.2 = g.1 ∧ Refreshed g.1 g.2 m := by
  obtain ⟨i, hi, rfl⟩ := List.getElem_of_mem h
  have hall := answers.merged_refreshed
  have hlen := hall.length_eq
  have hr := (List.forall₂_iff_get.mp hall).2 i (hlen ▸ hi) hi
  have hg := List.get_mem answers.groups ⟨i, hlen ▸ hi⟩
  have hcand : (answers.groups.get ⟨i, hlen ▸ hi⟩).1 ∈ job.candidates :=
    answers.candidates ▸ List.mem_map_of_mem hg
  obtain ⟨p, hp, hpg⟩ := List.mem_map.mp hcand
  exact ⟨_, hg, p, hp, hpg, hr⟩

/-- Where a pending claim comes from, and that it is that claim but for what resolution decided. -/
theorem origin_of_mem_merged {m : Candidate} (h : m ∈ answers.merged) {b : Claim} (hb : b ∈ m.claims) :
    ∃ p ∈ job.extracted, m.entities = p.2.entities ∧
      ∃ q ∈ answers.asked, q.claim ∈ p.2.claims ∧ Unresolved job.ownerId p.2 q.claim ∧ q.found = false ∧
        bare b = bare q.claim := by
  obtain ⟨g, hg, p, hp, hpg, href⟩ := answers.exists_of_mem_merged h
  obtain ⟨c, hc, hbc⟩ := List.mem_map.mp (href.claims ▸ List.mem_map_of_mem hb)
  obtain ⟨q, hq, rfl⟩ := List.mem_map.mp hc
  obtain ⟨hq, hfound⟩ := List.mem_filter.mp hq
  have hclaim : q.claim ∈ p.2.claims := hpg ▸ answers.claims g hg ▸ List.mem_map_of_mem hq
  exact ⟨p, hp, hpg ▸ href.entities, q, List.mem_flatMap.mpr ⟨g, hg, hq⟩, hclaim, job.contract p hp _ hclaim,
    by simpa using hfound, hbc.symm⟩

theorem origin_of_mem_pending {b : Claim} (hb : b ∈ answers.pending) :
    ∃ p ∈ job.extracted, ∃ q ∈ answers.asked, q.claim ∈ p.2.claims ∧ Unresolved job.ownerId p.2 q.claim ∧
      q.found = false ∧ bare b = bare q.claim := by
  rw [← answers.merged_claims] at hb
  obtain ⟨m, hm, hb⟩ := List.mem_flatMap.mp hb
  obtain ⟨p, hp, _, hc⟩ := answers.origin_of_mem_merged hm hb
  exact ⟨p, hp, hc⟩

theorem owner_of_mem_pending {b : Claim} (hb : b ∈ answers.pending) : b.ownerId = job.ownerId := by
  obtain ⟨_, _, q, _, _, hc, _, hbc⟩ := answers.origin_of_mem_pending hb
  exact (eq_of_bare Claim.ownerId (fun _ => rfl) hbc).trans hc.owner

/-- The statements in front of a candidate's claims. -/
def prelude (job : Job) (m : Candidate) : List StoreOp :=
  m.entities.flatMap (fun e => (writeEntity e).ops) ++
    m.events.flatMap (fun e => (writeEvent job.records job.sealed e).ops)

theorem ops_eq : answers.ops = answers.merged.flatMap (fun m => prelude job m ++ m.claims.flatMap claimOps) := by
  rw [ops, ops_write]
  exact List.flatMap_congr (fun m _ => ops_writeCandidate _ _ m)

theorem quiet_of_mem_prelude {m : Candidate} {op : StoreOp} (h : op ∈ prelude job m) : Quiet op := by
  rcases List.mem_append.mp h with h | h
  · obtain ⟨e, _, he⟩ := List.mem_flatMap.mp h
    exact quiet_of_mem_writeEntity he
  · obtain ⟨e, _, he⟩ := List.mem_flatMap.mp h
    exact quiet_of_mem_writeEvent he

/-- In front of its claims a candidate links events only. -/
theorem source_of_mem_prelude {m : Candidate} (hm : m ∈ answers.merged) {a t : String} {q : Rel}
    (h : .link a q t ∈ prelude job m) : Tagged (Store.eventKey a) := by
  obtain ⟨g, _, p, hp, hpg, href⟩ := answers.exists_of_mem_merged hm
  have htyped : TypedIds g.1 := hpg ▸ job.typed p hp
  rcases List.mem_append.mp h with h | h
  · obtain ⟨e, _, he⟩ := List.mem_flatMap.mp h
    exact absurd (List.mem_singleton.mp he) (by simp)
  · obtain ⟨e, he, h⟩ := List.mem_flatMap.mp h
    obtain rfl := source_of_mem_writeEvent h
    exact htyped.events e (href.events ▸ he)

private theorem carries_prelude (m : Candidate) : Carries (prelude job m) [] :=
  ⟨fun _ h => Or.inl (quiet_of_mem_prelude h), fun _ hd => absurd hd List.not_mem_nil⟩

private theorem carries_flatMap (ms : List Candidate) :
    Carries (ms.flatMap (fun m => prelude job m ++ m.claims.flatMap claimOps)) (ms.flatMap Candidate.claims) := by
  induction ms with
  | nil => exact .nil
  | cons m ms ih =>
    rw [List.flatMap_cons, List.flatMap_cons]
    simpa using ((carries_prelude m).append (.flatMap m.claims)).append ih

theorem carries_ops : Carries answers.ops answers.pending := by
  rw [ops_eq, ← merged_claims]
  exact carries_flatMap _

/-- The entities a pending claim names are written ahead of the claims of its candidate. -/
theorem named_in_prelude {m : Candidate} (hm : m ∈ answers.merged) {b : Claim} (hb : b ∈ m.claims) :
    ∀ x ∈ b.subjectEntityIds ++ parties b, ∃ op ∈ prelude job m, op.key? = some (Store.entityKey x) := by
  intro x hx
  obtain ⟨r, _, hent, q, _, _, hc, _, hbc⟩ := answers.origin_of_mem_merged hm hb
  have hsub : b.subjectEntityIds = q.claim.subjectEntityIds := eq_of_bare _ (fun _ => rfl) hbc
  have hpar : parties b = parties q.claim := eq_of_bare parties (fun _ => rfl) hbc
  have hname : ∃ e ∈ r.2.entities, e.id = x := by
    rw [hsub, hpar] at hx
    exact (List.mem_append.mp hx).elim (hc.subjects x) (hc.owed x)
  obtain ⟨e, he, rfl⟩ := hname
  exact ⟨_, List.mem_append_left _ (List.mem_flatMap.mpr ⟨e, hent ▸ he, List.mem_singleton_self _⟩), rfl⟩

/-- The statements around one pending claim: before it come those of the claims ahead of it, and the
preludes of the candidates up to its own. -/
theorem ops_split_at {p t : List Claim} {b : Claim} (h : answers.pending = p ++ b :: t) :
    ∃ ms m ns pre post, answers.merged = ms ++ m :: ns ∧ b ∈ m.claims ∧ answers.ops = pre ++ claimOps b ++ post ∧
      Carries pre p ∧ Carries post t ∧
      (∀ op, op ∈ pre ↔ (∃ n ∈ ms ++ [m], op ∈ prelude job n) ∨ ∃ d ∈ p, op ∈ claimOps d) ∧
      ∀ op ∈ post, (∃ n ∈ ns, op ∈ prelude job n) ∨ ∃ d ∈ t, op ∈ claimOps d := by
  rw [← merged_claims] at h
  obtain ⟨ms, m, ns, p', t', hm, hclaims, rfl, rfl⟩ := Lists.exists_split_of_flatMap h
  refine ⟨ms, m, ns,
    ms.flatMap (fun m => prelude job m ++ m.claims.flatMap claimOps) ++ (prelude job m ++ p'.flatMap claimOps),
    t'.flatMap claimOps ++ ns.flatMap (fun m => prelude job m ++ m.claims.flatMap claimOps), hm, ?_, ?_, ?_, ?_, ?_, ?_⟩
  · rw [hclaims]
    simp
  · rw [ops_eq, hm]
    simp [hclaims]
  · exact (carries_flatMap ms).append ((carries_prelude m).append (.flatMap p'))
  · exact (Carries.flatMap t').append (carries_flatMap ns)
  · intro op
    simp only [List.mem_append, List.mem_flatMap, List.mem_singleton, or_and_right, exists_or, exists_eq_left]
    constructor
    · intro hop
      rcases hop with ⟨n, hn, hop | ⟨d, hd, hop⟩⟩ | hop | ⟨d, hd, hop⟩
      · exact Or.inl (Or.inl ⟨n, hn, hop⟩)
      · exact Or.inr (Or.inl ⟨d, ⟨n, hn, hd⟩, hop⟩)
      · exact Or.inl (Or.inr hop)
      · exact Or.inr (Or.inr ⟨d, hd, hop⟩)
    · intro hop
      rcases hop with (⟨n, hn, hop⟩ | hop) | ⟨d, ⟨n, hn, hd⟩, hop⟩ | ⟨d, hd, hop⟩
      · exact Or.inl ⟨n, hn, Or.inl hop⟩
      · exact Or.inr (Or.inl hop)
      · exact Or.inl ⟨n, hn, Or.inr ⟨d, hd, hop⟩⟩
      · exact Or.inr (Or.inr ⟨d, hd, hop⟩)
  · intro op hop
    simp only [List.mem_append, List.mem_flatMap] at hop ⊢
    rcases hop with ⟨d, hd, hop⟩ | ⟨n, hn, hop | ⟨d, hd, hop⟩⟩
    · exact Or.inr ⟨d, Or.inl hd, hop⟩
    · exact Or.inl ⟨n, hn, hop⟩
    · exact Or.inr ⟨d, Or.inr ⟨n, hn, hd⟩, hop⟩

/-- The statements before a pending claim have written the claims ahead of it and the entities it names. -/
theorem ops_split {p t : List Claim} {b : Claim} (h : answers.pending = p ++ b :: t) :
    ∃ pre post, answers.ops = pre ++ claimOps b ++ post ∧ Carries pre p ∧ Carries post t ∧
      ∀ x ∈ b.subjectEntityIds ++ parties b, ∃ op ∈ pre, op.key? = some (Store.entityKey x) := by
  obtain ⟨ms, m, ns, pre, post, hm, hb, hops, hpre, hpost, hmem, _⟩ := answers.ops_split_at h
  refine ⟨pre, post, hops, hpre, hpost, fun x hx => ?_⟩
  obtain ⟨op, hop, hk⟩ := answers.named_in_prelude (m := m) (by rw [hm]; simp) hb x hx
  exact ⟨op, (hmem op).mpr (Or.inl ⟨m, by simp, hop⟩), hk⟩

/-- Every node the job writes has an id of its kind. -/
theorem tagged_of_key? {op : StoreOp} {k : NodeKey} (h : op ∈ answers.ops) (hk : op.key? = some k) : Tagged k := by
  rw [ops_eq] at h
  obtain ⟨m, hm, h⟩ := List.mem_flatMap.mp h
  obtain ⟨g, _, p, hp, hpg, href⟩ := answers.exists_of_mem_merged hm
  have htyped : TypedIds g.1 := hpg ▸ job.typed p hp
  rcases List.mem_append.mp h with h | h
  · rcases List.mem_append.mp h with h | h
    · obtain ⟨e, he, h⟩ := List.mem_flatMap.mp h
      obtain rfl := List.mem_singleton.mp h
      obtain rfl := Option.some.inj hk
      exact htyped.entities e (href.entities ▸ he)
    · obtain ⟨e, he, h⟩ := List.mem_flatMap.mp h
      obtain rfl := key?_of_mem_writeEvent h hk
      exact htyped.events e (href.events ▸ he)
  · obtain ⟨b, hb, h⟩ := List.mem_flatMap.mp h
    obtain ⟨r, hr, _, q, _, hc, _, _, hbc⟩ := answers.origin_of_mem_merged hm hb
    have hid : b.id = q.claim.id := eq_of_bare Claim.id (fun _ => rfl) hbc
    rw [claimOps_eq] at h
    rcases List.mem_cons.mp h with rfl | h
    · obtain rfl := Option.some.inj hk
      obtain ⟨digest, hd⟩ := (job.typed r hr).claims _ hc
      exact ⟨digest, hid.trans hd⟩
    · rcases mem_claimTail_cases h with ⟨q, t, rfl⟩ | ⟨y, st, rfl⟩
      · exact absurd hk (by simp [StoreOp.key?])
      · exact absurd hk (by simp [StoreOp.key?])

end Answers

namespace Job
variable (job : Job) (store : Store)

/-- What the store answers when nothing happens in between. -/
def answers : Answers job where
  groups := job.candidates.map (fun c => (c, c.claims.map (ask job.rows store job.ownerId)))
  candidates := by simp [Function.comp_def]
  claims := by
    intro g hg
    obtain ⟨c, _, rfl⟩ := List.mem_map.mp hg
    simp [Function.comp_def, ask]

/-- The claims of the batch as resolution leaves them, in the order they are written. -/
def pending : List Claim := (job.answers store).pending

theorem asked_answers : (job.answers store).asked = job.claims.map (ask job.rows store job.ownerId) := by
  simp [Answers.asked, answers, claims, List.flatMap_map, List.map_flatMap]

theorem resolved_eq : job.resolved store = (job.answers store).resolved := by
  rw [resolved, resolveBatch_eq, Answers.resolved]
  simp [answers, Answers.asked, Function.comp_def, List.flatMap_def]

theorem ops_eq_answers : job.ops store = (job.answers store).ops := by
  rw [ops, written, merged, resolved_eq]; rfl

theorem carries_ops : Carries (job.ops store) (job.pending store) := by
  rw [ops_eq_answers]
  exact (job.answers store).carries_ops

theorem ops_split {p t : List Claim} {b : Claim} (h : job.pending store = p ++ b :: t) :
    ∃ pre post, job.ops store = pre ++ claimOps b ++ post ∧ Carries pre p ∧ Carries post t ∧
      ∀ x ∈ b.subjectEntityIds ++ parties b, ∃ op ∈ pre, op.key? = some (Store.entityKey x) := by
  rw [ops_eq_answers]
  exact (job.answers store).ops_split h

theorem tagged_of_key? {op : StoreOp} {k : NodeKey} (h : op ∈ job.ops store) (hk : op.key? = some k) : Tagged k := by
  rw [ops_eq_answers] at h
  exact (job.answers store).tagged_of_key? h hk

theorem owner_of_mem_pending {b : Claim} (hb : b ∈ job.pending store) : b.ownerId = job.ownerId :=
  (job.answers store).owner_of_mem_pending hb

/-- Not stored under any label yet, so resolution does not drop it as a duplicate. -/
def fresh (store : Store) (claim : Claim) : Bool := (store.get claim.id).isNone

theorem freshOf_answers : freshOf (job.answers store).asked = job.claims.filter (fresh store) := by
  rw [asked_answers, freshOf, List.filter_map, List.map_map]
  have hcomp : Asked.claim ∘ ask job.rows store job.ownerId = id := rfl
  rw [hcomp, List.map_id]
  refine List.filter_congr (fun c _ => ?_)
  cases h : store.get c.id <;> simp [ask, fresh, h]

theorem pending_bare : (job.pending store).map bare = (job.claims.filter (fresh store)).map bare := by
  rw [← job.freshOf_answers store]
  exact (job.answers store).pending_bare

/-- A claim asked about: it is the job's, and its answer is the store's. -/
theorem mem_asked {q : Asked} (hq : q ∈ (job.answers store).asked) :
    q.claim ∈ job.claims ∧ q = ask job.rows store job.ownerId q.claim := by
  rw [asked_answers] at hq
  obtain ⟨c, hc, rfl⟩ := List.mem_map.mp hq
  exact ⟨hc, rfl⟩

theorem fresh_of_mem_pending {b : Claim} (hb : b ∈ job.pending store) : fresh store b := by
  obtain ⟨_, _, q, hq, _, _, hfound, hbc⟩ := (job.answers store).origin_of_mem_pending hb
  have hid : b.id = q.claim.id := eq_of_bare Claim.id (fun _ => rfl) hbc
  rw [(job.mem_asked store hq).2] at hfound
  rw [fresh, hid]
  cases h : store.get q.claim.id with
  | none => rfl
  | some r => simp [ask, h] at hfound

theorem claim?_eq_none_of_mem_pending {b : Claim} (hb : b ∈ job.pending store) : store.claim? b.id = none := by
  have h := job.fresh_of_mem_pending store hb
  exact Store.claim?_eq_none_of_get (by simpa [fresh] using h)

theorem named_of_mem_pending {b : Claim} (hb : b ∈ job.pending store) : "" ∉ parties b := by
  obtain ⟨_, _, q, _, _, hc, _, hbc⟩ := (job.answers store).origin_of_mem_pending hb
  exact (eq_of_bare parties (fun _ => rfl) hbc) ▸ hc.named

theorem result_supersessions : (job.result store).supersessions =
    collect supersededPairs [] (job.answers store).asked := by
  change (job.resolved store).1.flatMap Resolution.supersessions = _
  rw [resolved_eq, Answers.resolved, supersessions_resolutionsFrom, Answers.asked, List.flatMap_def]

theorem result_contradictions : (job.result store).contradictions =
    collect contradictedPairs [] (job.answers store).asked := by
  change (job.resolved store).1.flatMap Resolution.contradictions = _
  rw [resolved_eq, Answers.resolved, contradictions_resolutionsFrom, Answers.asked, List.flatMap_def]

/-- As many claims are counted as are pending. -/
theorem result_claims : (job.result store).claims = (job.pending store).length := by
  change ((merge job.candidates (job.resolved store)).map (fun c => c.claims.length)).sum = _
  rw [resolved_eq, pending, ← (job.answers store).merged_claims, List.length_flatMap]
  rfl

end Job
end Memorai.Ingestion
