import Memorai.Graph.Parts
import Memorai.Storage.OpTrace

/-! What one owner has stored, and how statements about it and about others change it. -/
namespace Memorai.Storage
open Schema Memorai.Graph

/-- The nodes of one owner, and the edges between them. -/
def Store.ofOwner (s : Store) (ownerId : String) : Store := s.part (fun r => r.ownerId = ownerId)

/-- `MATCH (n:Memory {owner_id}) DETACH DELETE n` -/
def Store.wipeOwner (s : Store) (ownerId : String) : Store := s.part (fun r => r.ownerId ≠ ownerId)

/-- The id of the node that a statement writes, or that a link starts at. -/
def StoreOp.subject : StoreOp → String
  | .upsert node _ => node.id
  | .link source _ _ => source
  | .setClaimStatus claimId _ => claimId

/-- A statement about one owner's nodes. -/
def StoreOp.Of (mine : String → Prop) (ownerId : String) : StoreOp → Prop
  | .upsert node _ => node.ownerId = ownerId ∧ mine node.id
  | .link source _ target => mine source ∧ mine target
  | .setClaimStatus claimId _ => mine claimId

theorem StoreOp.Of.subject {mine : String → Prop} {ownerId : String} {op : StoreOp} (h : op.Of mine ownerId) : mine op.subject := by
  cases op with
  | upsert node text => exact h.2
  | link source rel target => exact h.1
  | setClaimStatus claimId status => exact h

/-- By their ids, the nodes of one owner are told from those of others. -/
def Split (mine : String → Prop) (ownerId : String) (s : Store) : Prop := ∀ r ∈ s.nodes, r.ownerId = ownerId ↔ mine r.key.id

section Wipe
variable {s : Store} {ownerId other : String}

theorem ofOwner_wipeOwner : (s.wipeOwner ownerId).ofOwner ownerId = PropertyGraph.empty := by
  refine PropertyGraph.part_of_none (fun r hr => ?_)
  have hother := (List.mem_filter.mp hr).2
  simpa using hother

theorem ofOwner_wipeOwner_other (h : other ≠ ownerId) : (s.wipeOwner other).ofOwner ownerId = s.ofOwner ownerId := by
  rw [Store.wipeOwner, Store.ofOwner, PropertyGraph.part_part]
  refine PropertyGraph.part_congr (fun r _ => ?_)
  by_cases hr : r.ownerId = ownerId
  · simp [hr, h.symm]
  · simp [hr]

theorem Split.wipeOwner {mine : String → Prop} (h : Split mine ownerId s) : Split mine ownerId (s.wipeOwner other) :=
  fun r hr => h r (List.mem_filter.mp hr).1

end Wipe

section Statements
variable {mine : String → Prop} {ownerId : String} {s : Store} {op : StoreOp} {ops : List StoreOp}

private theorem key_status (status : ClaimStatus) (r : Row) :
    (r.mutateClaim (fun c => { c with status := status })).key = r.key :=
  Row.key_mutateClaim (fun c => { c with status := status }) (fun _ => rfl) r

private theorem owner_status (status : ClaimStatus) (r : Row) :
    decide ((r.mutateClaim (fun c => { c with status := status })).ownerId = ownerId) = decide (r.ownerId = ownerId) := by
  rw [Row.ownerId_mutateClaim]

theorem Split.empty : Split mine ownerId PropertyGraph.empty := fun _ h => absurd h List.not_mem_nil

theorem Split.exec (h : Split mine ownerId s) (hop : ∀ node text, op = .upsert node text → (node.ownerId = ownerId ↔ mine node.id)) :
    Split mine ownerId (op.exec s) := by
  intro r hr
  cases op with
  | upsert node text =>
    rcases (PropertyGraph.mem_nodes_merge _ _ _).mp hr with rfl | ⟨hr, _⟩
    · exact hop node text rfl
    · exact h r hr
  | link source rel target => exact h r hr
  | setClaimStatus claimId status =>
    obtain ⟨w, hw, rfl⟩ := (PropertyGraph.mem_nodes_modify _ _ _ (key_status status) _).mp hr
    split
    · rw [Row.ownerId_mutateClaim, key_status]
      exact h w hw
    · exact h w hw

private theorem owner_of_key (h : Split mine ownerId s) {r : Row} (hr : r ∈ s.nodes) {node : MemoryNode} {text : String}
    (hkey : r.key = (Row.of node text).key) : r.ownerId = ownerId ↔ mine node.id := by
  rw [h r hr, hkey]
  rfl

/-- A statement that writes nodes of the owner only does to the owner's part what it does to the whole. -/
theorem ofOwner_exec (h : Split mine ownerId s)
    (hop : ∀ node text, op = .upsert node text → node.ownerId = ownerId ∧ mine node.id) :
    (op.exec s).ofOwner ownerId = op.exec (s.ofOwner ownerId) := by
  cases op with
  | upsert node text =>
    obtain ⟨howner, hmine⟩ := hop node text rfl
    refine PropertyGraph.part_merge (decide_eq_true howner) (fun r hr hkey => decide_eq_true ?_)
    exact (owner_of_key h hr hkey).mpr hmine
  | link source rel target => exact PropertyGraph.part_link
  | setClaimStatus claimId status =>
    exact PropertyGraph.part_modify (key_status status) (owner_status status)

/-- A statement about another owner's node does nothing to the owner's part. -/
theorem ofOwner_exec_other (h : Split mine ownerId s) (hsubject : ¬ mine op.subject)
    (hop : ∀ node text, op = .upsert node text → node.ownerId ≠ ownerId) : (op.exec s).ofOwner ownerId = s.ofOwner ownerId := by
  have hnot : ∀ k ∈ (s.ofOwner ownerId).keys, k.id ≠ op.subject := by
    intro k hk he
    obtain ⟨r, hr, howner, rfl⟩ := PropertyGraph.mem_keys_part.mp hk
    exact hsubject (he ▸ (h r hr).mp (of_decide_eq_true howner))
  cases op with
  | upsert node text =>
    refine PropertyGraph.part_merge_outside (fun howner => hop node text rfl (of_decide_eq_true howner)) (fun r hr hkey howner => ?_)
    exact hsubject ((owner_of_key h hr hkey).mp (of_decide_eq_true howner))
  | link source rel target =>
    refine PropertyGraph.part_link.trans (PropertyGraph.link_of_not_mem (fun k hk hsource => ?_))
    exact hnot k hk (of_decide_eq_true hsource)
  | setClaimStatus claimId status =>
    refine (PropertyGraph.part_modify (key_status status) (owner_status status)).trans
      (PropertyGraph.modify_of_not_mem (key_status status) ?_)
    exact fun hin => hnot _ hin rfl

theorem ofOwner_execAll (h : Split mine ownerId s)
    (hops : ∀ node text, .upsert node text ∈ ops → node.ownerId = ownerId ∧ mine node.id) :
    (execAll ops s).ofOwner ownerId = execAll ops (s.ofOwner ownerId) := by
  induction ops generalizing s with
  | nil => rfl
  | cons op ops ih =>
    have hop : ∀ node text, op = .upsert node text → node.ownerId = ownerId ∧ mine node.id :=
      fun node text he => hops node text (he ▸ List.mem_cons_self)
    have hstep := h.exec (fun node text he => iff_of_true (hop node text he).1 (hop node text he).2)
    rw [execAll_cons, ih hstep (fun node text hin => hops node text (List.mem_cons_of_mem _ hin)), ofOwner_exec h hop]
    rfl

theorem ofOwner_execAll_other (h : Split mine ownerId s) (hsubject : ∀ op ∈ ops, ¬ mine op.subject)
    (hops : ∀ node text, .upsert node text ∈ ops → node.ownerId ≠ ownerId) :
    (execAll ops s).ofOwner ownerId = s.ofOwner ownerId := by
  induction ops generalizing s with
  | nil => rfl
  | cons op ops ih =>
    have hout := hsubject op List.mem_cons_self
    have hop : ∀ node text, op = .upsert node text → node.ownerId ≠ ownerId :=
      fun node text he => hops node text (he ▸ List.mem_cons_self)
    have hstep := h.exec (fun node text he => iff_of_false (hop node text he) (by subst he; exact hout))
    rw [execAll_cons, ih hstep (fun op hin => hsubject op (List.mem_cons_of_mem _ hin))
      (fun node text hin => hops node text (List.mem_cons_of_mem _ hin)), ofOwner_exec_other h hout hop]

end Statements
end Memorai.Storage
