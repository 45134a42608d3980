import Mathlib.Data.List.Induction
import Memorai.Storage.StoreLaws

/-! What a whole list of store statements leaves of each claim row, each node and each edge. -/
namespace Memorai.Storage
open Schema Memorai.Graph

theorem execAll_append (as bs : List StoreOp) (s : Store) : execAll (as ++ bs) s = execAll bs (execAll as s) :=
  List.foldl_append

@[simp] theorem execAll_nil (s : Store) : execAll [] s = s := rfl

@[simp] theorem execAll_cons (op : StoreOp) (ops : List StoreOp) (s : Store) :
    execAll (op :: ops) s = execAll ops (op.exec s) := rfl

theorem execAll_concat (ops : List StoreOp) (op : StoreOp) (s : Store) :
    execAll (ops ++ [op]) s = op.exec (execAll ops s) := by simp [execAll_append]

namespace StoreOp

/-- The claim the statement writes whole, if any. -/
def claim? : StoreOp → Option Claim
  | .upsert (.claim c) _ => some c
  | _ => none

/-- The entity the statement writes, if any. -/
def entity? : StoreOp → Option Entity
  | .upsert (.entity e) _ => some e
  | _ => none

/-- The event the statement writes, if any. -/
def event? : StoreOp → Option Event
  | .upsert (.event e) _ => some e
  | _ => none

/-- The node key the statement makes sure of, if any. -/
def key? : StoreOp → Option NodeKey
  | .upsert n _ => some ⟨labelOf n, n.id⟩
  | _ => none

end StoreOp

/-- Ingestion moves a stored status in one direction only. -/
def OnlySupersedes (ops : List StoreOp) : Prop := ∀ y st, .setClaimStatus y st ∈ ops → st = .superseded

/-- The ids whose stored status the statements set. -/
def marked (ops : List StoreOp) (claimId : String) : Prop := .setClaimStatus claimId .superseded ∈ ops

instance (ops : List StoreOp) (x : String) : Decidable (marked ops x) := by unfold marked; infer_instance

/-- A claim row the statements do not write whole, as they leave it. -/
def touch (ops : List StoreOp) (c : Claim) : Claim :=
  if marked ops c.id then { c with status := .superseded } else c

@[simp] theorem id_touch (ops : List StoreOp) (c : Claim) : (touch ops c).id = c.id := by
  unfold touch; split <;> rfl

@[simp] theorem subjectEntityIds_touch (ops : List StoreOp) (c : Claim) :
    (touch ops c).subjectEntityIds = c.subjectEntityIds := by unfold touch; split <;> rfl

@[simp] theorem supersedes_touch (ops : List StoreOp) (c : Claim) : (touch ops c).supersedes = c.supersedes := by
  unfold touch; split <;> rfl

@[simp] theorem contradicts_touch (ops : List StoreOp) (c : Claim) : (touch ops c).contradicts = c.contradicts := by
  unfold touch; split <;> rfl

@[simp] theorem commitment_touch (ops : List StoreOp) (c : Claim) : (touch ops c).commitment = c.commitment := by
  unfold touch; split <;> rfl

@[simp] theorem ownerId_touch (ops : List StoreOp) (c : Claim) : (touch ops c).ownerId = c.ownerId := by
  unfold touch; split <;> rfl

theorem touch_of_not_marked {ops : List StoreOp} {c : Claim} (h : ¬ marked ops c.id) : touch ops c = c := if_neg h

theorem status_touch_active {ops : List StoreOp} {c : Claim} (h : (touch ops c).status = .active) :
    ¬ marked ops c.id ∧ touch ops c = c := by
  have hn : ¬ marked ops c.id := by
    intro hm
    simp [touch, hm] at h
  exact ⟨hn, touch_of_not_marked hn⟩

private theorem claim?_exec {s : Store} {x : String} (op : StoreOp) (h : ∀ c, op.claim? = some c → c.id ≠ x) :
    (op.exec s).claim? x =
      match op with
      | .setClaimStatus y st => if x = y then (s.claim? x).map (fun c => { c with status := st }) else s.claim? x
      | _ => s.claim? x := by
  cases op with
  | upsert n t =>
    cases n with
    | claim c => rw [StoreOp.exec, Store.claim?_upsert_claim, if_neg (fun e => h c rfl e.symm)]
    | entity e => exact Store.claim?_upsert_other s _ t x (by simp [labelOf])
    | event e => exact Store.claim?_upsert_other s _ t x (by simp [labelOf])
  | link a q b => rfl
  | setClaimStatus y st => exact Store.claim?_setClaimStatus s y st x

/-- A claim row that no statement writes whole keeps everything but its status. -/
theorem claim?_execAll {s : Store} {x : String} {ops : List StoreOp} (hs : OnlySupersedes ops)
    (h : ∀ op ∈ ops, ∀ c, op.claim? = some c → c.id ≠ x) :
    (execAll ops s).claim? x = (s.claim? x).map (touch ops) := by
  induction ops using List.reverseRecOn with
  | nil =>
    rw [execAll_nil]
    cases s.claim? x <;> rfl
  | append_singleton ops op ih =>
    have ih := ih (fun y st hm => hs y st (List.mem_append_left _ hm))
      (fun o ho => h o (List.mem_append_left _ ho))
    rw [execAll_concat, claim?_exec op (h op (by simp)), ih]
    cases hc : s.claim? x with
    | none => cases op <;> simp
    | some c =>
      have hid : c.id = x := Store.id_of_claim? hc
      cases op with
      | upsert n t => simp [touch, marked]
      | link a q b => simp [touch, marked]
      | setClaimStatus y st =>
        have hst : st = .superseded := hs y st (by simp)
        by_cases hy : x = y <;> by_cases hm : marked ops x <;> simp_all [touch, marked]

/-- A claim row that is written whole holds the last copy written, and what came after it. -/
theorem claim?_execAll_split {s : Store} {pre post : List StoreOp} {c : Claim} {t : String}
    (hs : OnlySupersedes post) (h : ∀ op ∈ post, ∀ d, op.claim? = some d → d.id ≠ c.id) :
    (execAll (pre ++ .upsert (.claim c) t :: post) s).claim? c.id = some (touch post c) := by
  rw [execAll_append, execAll_cons, claim?_execAll hs h, StoreOp.exec, Store.claim?_upsert_claim, if_pos rfl]
  rfl

/-- The last statement that writes a claim row whole. -/
theorem exists_last_copy {ops : List StoreOp} {x : String}
    (h : ∃ op ∈ ops, ∃ c, op.claim? = some c ∧ c.id = x) :
    ∃ pre c t post, ops = pre ++ .upsert (.claim c) t :: post ∧ c.id = x ∧
      ∀ op ∈ post, ∀ d, op.claim? = some d → d.id ≠ x := by
  induction ops using List.reverseRecOn with
  | nil => obtain ⟨op, ho, _⟩ := h; exact absurd ho List.not_mem_nil
  | append_singleton ops op ih =>
    by_cases hop : ∃ c, op.claim? = some c ∧ c.id = x
    · obtain ⟨c, hc, hx⟩ := hop
      have : ∃ t, op = .upsert (.claim c) t := by
        unfold StoreOp.claim? at hc
        split at hc
        · obtain rfl := Option.some.inj hc
          exact ⟨_, rfl⟩
        · exact absurd hc (by simp)
      obtain ⟨t, rfl⟩ := this
      exact ⟨ops, c, t, [], rfl, hx, fun _ ho => absurd ho List.not_mem_nil⟩
    · obtain ⟨o, ho, c, hc, hx⟩ := h
      have ho : o ∈ ops := by
        rcases List.mem_append.mp ho with ho | ho
        · exact ho
        · exact absurd ⟨c, List.mem_singleton.mp ho ▸ hc, hx⟩ hop
      obtain ⟨pre, d, t, post, rfl, hd, hpost⟩ := ih ⟨o, ho, c, hc, hx⟩
      refine ⟨pre, d, t, post ++ [op], by simp, hd, fun p hp e he => ?_⟩
      rcases List.mem_append.mp hp with hp | hp
      · exact hpost p hp e he
      · exact fun hex => hop ⟨e, List.mem_singleton.mp hp ▸ he, hex⟩

/-- A claim row after any statements: the last copy written, or else the row that was there. -/
theorem claim?_execAll_cases {s : Store} {ops : List StoreOp} {x : String} {d : Claim} (hs : OnlySupersedes ops)
    (h : (execAll ops s).claim? x = some d) :
    (∃ c, s.claim? x = some c ∧ d = touch ops c ∧ ∀ op ∈ ops, ∀ e, op.claim? = some e → e.id ≠ x) ∨
    ∃ pre c t post, ops = pre ++ .upsert (.claim c) t :: post ∧ c.id = x ∧ d = touch post c ∧
      ∀ op ∈ post, ∀ e, op.claim? = some e → e.id ≠ x := by
  by_cases hw : ∃ op ∈ ops, ∃ c, op.claim? = some c ∧ c.id = x
  · obtain ⟨pre, c, t, post, rfl, rfl, hpost⟩ := exists_last_copy hw
    have hsp : OnlySupersedes post := fun y st hm => hs y st (by simp [hm])
    rw [claim?_execAll_split hsp hpost] at h
    exact Or.inr ⟨pre, c, t, post, rfl, rfl, (Option.some.inj h).symm, hpost⟩
  · have hn : ∀ op ∈ ops, ∀ c, op.claim? = some c → c.id ≠ x := fun op ho c hc he => hw ⟨op, ho, c, hc, he⟩
    rw [claim?_execAll hs hn] at h
    obtain ⟨c, hc, rfl⟩ := Option.map_eq_some_iff.mp h
    exact Or.inl ⟨c, hc, rfl, hn⟩

/-- An active claim after any statements is as it was stored or last written, and nothing marks it from then on. -/
theorem claim?_execAll_active {s : Store} {ops : List StoreOp} {x : String} {d : Claim} (hs : OnlySupersedes ops)
    (h : (execAll ops s).claim? x = some d) (hd : d.status = .active) :
    (s.claim? x = some d ∧ (∀ op ∈ ops, ∀ e, op.claim? = some e → e.id ≠ x) ∧ ¬ marked ops d.id) ∨
    ∃ pre t post, ops = pre ++ .upsert (.claim d) t :: post ∧ d.id = x ∧
      (∀ op ∈ post, ∀ e, op.claim? = some e → e.id ≠ x) ∧ ¬ marked post d.id := by
  rcases claim?_execAll_cases hs h with ⟨c, hc, rfl, hn⟩ | ⟨pre, c, t, post, hops, hx, rfl, hn⟩
  · obtain ⟨hnm, htouch⟩ := status_touch_active hd
    rw [htouch]
    exact Or.inl ⟨hc, hn, hnm⟩
  · obtain ⟨hnm, htouch⟩ := status_touch_active hd
    rw [htouch]
    exact Or.inr ⟨pre, t, post, hops, hx, hn, hnm⟩

theorem mem_keys_execAll (ops : List StoreOp) (s : Store) (k : NodeKey) :
    k ∈ (execAll ops s).keys ↔ k ∈ s.keys ∨ ∃ op ∈ ops, op.key? = some k := by
  induction ops generalizing s with
  | nil => simp
  | cons op ops ih =>
    rw [execAll_cons, ih]
    have hstep : k ∈ (op.exec s).keys ↔ k ∈ s.keys ∨ op.key? = some k := by
      cases op with
      | upsert n t => simp [StoreOp.exec, StoreOp.key?, Store.mem_keys_upsert, or_comm, eq_comm]
      | link a q b => simp [StoreOp.exec, StoreOp.key?]
      | setClaimStatus y st => simp [StoreOp.exec, StoreOp.key?]
    simp only [hstep, List.mem_cons, exists_eq_or_imp]
    tauto

private theorem mem_edges_exec (op : StoreOp) (s : Store) (k : NodeKey) (q : Rel) (j : NodeKey) :
    (k, q, j) ∈ (op.exec s).edges ↔
      (k, q, j) ∈ s.edges ∨ (op = .link k.id q j.id ∧ k ∈ s.keys ∧ j ∈ s.keys) := by
  cases op with
  | upsert n t => simp [StoreOp.exec]
  | link a r b =>
    rw [StoreOp.exec, Store.mem_edges_link, StoreOp.link.injEq]
    constructor
    · intro h
      rcases h with h | ⟨⟨hk, rfl⟩, rfl, hj, rfl⟩
      · exact Or.inl h
      · exact Or.inr ⟨⟨rfl, rfl, rfl⟩, hk, hj⟩
    · intro h
      rcases h with h | ⟨⟨rfl, rfl, rfl⟩, hk, hj⟩
      · exact Or.inl h
      · exact Or.inr ⟨⟨hk, rfl⟩, rfl, hj, rfl⟩
  | setClaimStatus y st => simp [StoreOp.exec]

/-- An edge is there when it was there, or when a statement linked two nodes present by then. -/
theorem mem_edges_execAll (ops : List StoreOp) (s : Store) (k : NodeKey) (q : Rel) (j : NodeKey) :
    (k, q, j) ∈ (execAll ops s).edges ↔
      (k, q, j) ∈ s.edges ∨ ∃ pre post, ops = pre ++ .link k.id q j.id :: post ∧
        k ∈ (execAll pre s).keys ∧ j ∈ (execAll pre s).keys := by
  induction ops using List.reverseRecOn with
  | nil => simp
  | append_singleton ops op ih =>
    rw [execAll_concat, mem_edges_exec, ih]
    constructor
    · intro h
      rcases h with (h | ⟨pre, post, rfl, hk, hj⟩) | ⟨rfl, hk, hj⟩
      · exact Or.inl h
      · exact Or.inr ⟨pre, post ++ [op], by simp, hk, hj⟩
      · exact Or.inr ⟨ops, [], rfl, hk, hj⟩
    · intro h
      rcases h with h | ⟨pre, post, he, hk, hj⟩
      · exact Or.inl (Or.inl h)
      · rcases List.eq_nil_or_concat post with rfl | ⟨post, o, rfl⟩
        · obtain ⟨rfl, hop⟩ := List.append_inj' he rfl
          exact Or.inr ⟨List.singleton_inj.mp hop, hk, hj⟩
        · rw [List.concat_eq_append, ← List.cons_append, ← List.append_assoc] at he
          obtain ⟨rfl, _⟩ := List.append_inj' he rfl
          exact Or.inl (Or.inr ⟨pre, post, rfl, hk, hj⟩)

theorem edges_execAll_mono {ops : List StoreOp} {s : Store} {e : NodeKey × Rel × NodeKey} (h : e ∈ s.edges) :
    e ∈ (execAll ops s).edges := (mem_edges_execAll ops s e.1 e.2.1 e.2.2).mpr (Or.inl h)

/-- A new edge comes from a statement that says so. -/
theorem link_of_mem_edges {ops : List StoreOp} {s : Store} {k j : NodeKey} {q : Rel}
    (h : (k, q, j) ∈ (execAll ops s).edges) (hn : (k, q, j) ∉ s.edges) : .link k.id q j.id ∈ ops := by
  obtain h | ⟨pre, post, rfl, _, _⟩ := (mem_edges_execAll ops s k q j).mp h
  · exact absurd h hn
  · simp

/-- A node that no statement is about is left as it was. -/
theorem find?_execAll_of_untouched {ops : List StoreOp} {s : Store} {k : NodeKey} (hkey : ∀ op ∈ ops, op.key? ≠ some k)
    (hstatus : ∀ y st, .setClaimStatus y st ∈ ops → k ≠ Store.claimKey y) : (execAll ops s).find? k = s.find? k := by
  induction ops generalizing s with
  | nil => rfl
  | cons op ops ih =>
    rw [execAll_cons, ih (fun o ho => hkey o (List.mem_cons_of_mem _ ho)) (fun y st ho => hstatus y st (List.mem_cons_of_mem _ ho))]
    cases op with
    | upsert n t =>
      have hne : k ≠ (Row.of n t).key := fun he => hkey _ List.mem_cons_self (congrArg some he.symm)
      rw [StoreOp.exec, Store.upsert, PropertyGraph.find?_merge, if_neg hne]
    | link a q b => rfl
    | setClaimStatus y st =>
      rw [StoreOp.exec, Store.setClaimStatus, PropertyGraph.find?_modify, if_neg (hstatus y st List.mem_cons_self)]

/-- A register that every step either sets or leaves alone holds the last value set. -/
theorem foldl_last_write {S O α : Type} {exec : S → O → S} {look : S → Option α} {write : O → Option α}
    (h : ∀ s o, look (exec s o) = (write o).or (look s)) (ops : List O) (s : S) :
    look (ops.foldl exec s) = (ops.filterMap write).getLast?.or (look s) := by
  induction ops using List.reverseRecOn with
  | nil => rfl
  | append_singleton ops o ih =>
    rw [List.foldl_append, List.foldl_cons, List.foldl_nil, h, ih, List.filterMap_append]
    cases hw : write o with
    | none => simp [hw]
    | some a => simp [hw, List.getLast?_append]

private theorem entity?_exec (x : String) (s : Store) (op : StoreOp) :
    (op.exec s).entity? x = (op.entity?.filter (fun e => e.id = x)).or (s.entity? x) := by
  cases op with
  | upsert n t =>
    simp only [StoreOp.exec, Store.entity?, Store.upsert, PropertyGraph.find?_merge]
    cases n with
    | entity e =>
      by_cases h : x = e.id
      · simp [h, Row.key, Row.of, labelOf, MemoryNode.id, Row.entity?, StoreOp.entity?, Option.filter]
      · simp [h, Ne.symm h, Row.key, Row.of, labelOf, MemoryNode.id, StoreOp.entity?, Option.filter]
    | event e => simp [Row.key, Row.of, labelOf, StoreOp.entity?, Option.filter]
    | claim c => simp [Row.key, Row.of, labelOf, StoreOp.entity?, Option.filter]
  | link a q b => rfl
  | setClaimStatus y st => simp [StoreOp.exec, Store.entity?, Store.setClaimStatus, PropertyGraph.find?_modify, StoreOp.entity?, Option.filter]

private theorem event?_exec (x : String) (s : Store) (op : StoreOp) :
    (op.exec s).event? x = (op.event?.filter (fun e => e.id = x)).or (s.event? x) := by
  cases op with
  | upsert n t =>
    simp only [StoreOp.exec, Store.event?, Store.upsert, PropertyGraph.find?_merge]
    cases n with
    | event e =>
      by_cases h : x = e.id
      · simp [h, Row.key, Row.of, labelOf, MemoryNode.id, Row.event?, StoreOp.event?, Option.filter]
      · simp [h, Ne.symm h, Row.key, Row.of, labelOf, MemoryNode.id, StoreOp.event?, Option.filter]
    | entity e => simp [Row.key, Row.of, labelOf, StoreOp.event?, Option.filter]
    | claim c => simp [Row.key, Row.of, labelOf, StoreOp.event?, Option.filter]
  | link a q b => rfl
  | setClaimStatus y st => simp [StoreOp.exec, Store.event?, Store.setClaimStatus, PropertyGraph.find?_modify, StoreOp.event?, Option.filter]

/-- An entity row holds the last copy written. -/
theorem entity?_execAll (ops : List StoreOp) (s : Store) (x : String) :
    (execAll ops s).entity? x =
      ((ops.filterMap StoreOp.entity?).filter (fun e => e.id = x)).getLast?.or (s.entity? x) := by
  rw [List.filter_filterMap]
  exact @foldl_last_write _ _ _ StoreOp.exec (fun s => s.entity? x) _ (entity?_exec x) ops s

/-- An event row holds the last copy written. -/
theorem event?_execAll (ops : List StoreOp) (s : Store) (x : String) :
    (execAll ops s).event? x =
      ((ops.filterMap StoreOp.event?).filter (fun e => e.id = x)).getLast?.or (s.event? x) := by
  rw [List.filter_filterMap]
  exact @foldl_last_write _ _ _ StoreOp.exec (fun s => s.event? x) _ (event?_exec x) ops s

end Memorai.Storage
