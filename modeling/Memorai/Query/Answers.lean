import Memorai.Query.Graph
import Memorai.Schema.Grants

/-! What a query answers with: the permitted part of what was retrieved, in its order, and for the rest an id and a reason. -/
namespace Memorai.Query
open Schema Storage Text Wire Retrieval
open History (Denial)
open Gateway (scopeIntrospect)

/-- What the answer says of the candidates: those that are let through are cited, the others are named with a reason. -/
structure Accounts (scope : Scope) (nowMs : Int) (candidates : List MemoryNode) (answer : QueryAnswer) : Prop where
  answered : answer.answered ↔ ∃ node ∈ candidates, evaluate scope node.acl nowMs = .allow
  citations : answer.citations = (candidates.filter (fun node => permits scope node.acl nowMs)).map citationOf
  denied : answer.denied = candidates.filterMap (fun node => (Nearby.verdict scope nowMs node).map (Denial.mk node.id))
  considered : answer.considered = candidates.length

section Check
variable {scope : Scope} {nowMs : Int} {candidates : List MemoryNode}

theorem permits_iff {acl : ObjectAcl} : permits scope acl nowMs = true ↔ evaluate scope acl nowMs = .allow := decide_eq_true_iff

theorem checkPermissions_eq : checkPermissions scope nowMs candidates =
    (candidates.filter (fun node => permits scope node.acl nowMs),
      candidates.filterMap (fun node => (Nearby.verdict scope nowMs node).map (Denial.mk node.id))) := by
  have hstep : ∀ (checked : List MemoryNode × List Denial) (cs : List MemoryNode), cs.foldl (checkOne scope nowMs) checked =
      (checked.1 ++ cs.filter (fun node => permits scope node.acl nowMs),
        checked.2 ++ cs.filterMap (fun node => (Nearby.verdict scope nowMs node).map (Denial.mk node.id))) := by
    intro checked cs
    induction cs generalizing checked with
    | nil => simp
    | cons node cs ih =>
      rw [List.foldl_cons, ih]
      cases h : evaluate scope node.acl nowMs with
      | allow => simp [checkOne, h, permits, PermissionDecision.allowed, Nearby.verdict]
      | deny reason => simp [checkOne, h, permits, PermissionDecision.allowed, Nearby.verdict]
  rw [checkPermissions, hstep, List.nil_append, List.nil_append]

theorem answerFrom_accounts (scope : Scope) (nowMs : Int) (candidates : List MemoryNode) (question : String) :
    Accounts scope nowMs candidates (answerFrom scope question nowMs candidates) := by
  have hcheck : answerFrom scope question nowMs candidates = assemble question candidates.length
      (candidates.filter (fun node => permits scope node.acl nowMs))
      (candidates.filterMap (fun node => (Nearby.verdict scope nowMs node).map (Denial.mk node.id))) := by
    rw [answerFrom, checkPermissions_eq]
  have hnone : candidates.filter (fun node => permits scope node.acl nowMs) = [] ↔
      ¬ ∃ node ∈ candidates, evaluate scope node.acl nowMs = .allow := by
    rw [List.filter_eq_nil_iff]
    simp only [permits_iff, not_exists, not_and]
  rw [hcheck, assemble]
  split
  · rename_i hempty
    refine ⟨iff_of_false Bool.false_ne_true (hnone.mp hempty), ?_, rfl, rfl⟩
    rw [hempty]
    rfl
  · rename_i hsome
    exact ⟨iff_of_true rfl (not_not.mp (fun h => hsome (hnone.mpr h))), rfl, rfl, rfl⟩

/-- The objects that are not let through are named one by one. -/
theorem Accounts.ids {answer : QueryAnswer} (h : Accounts scope nowMs candidates answer) :
    answer.denied.map Denial.id = (candidates.filter (fun node => !permits scope node.acl nowMs)).map MemoryNode.id := by
  rw [h.denied]
  clear h
  induction candidates with
  | nil => rfl
  | cons node cs ih =>
    cases hnode : evaluate scope node.acl nowMs with
    | allow =>
      have hverdict : Nearby.verdict scope nowMs node = none := by rw [Nearby.verdict, hnode]
      simp only [List.filter_cons, permits_iff.mpr hnode, List.filterMap_cons, hverdict, Option.map_none]
      exact ih
    | deny reason =>
      have hpermits : permits scope node.acl nowMs = false := by
        rw [← Bool.not_eq_true, permits_iff, hnode]
        simp
      have hverdict : Nearby.verdict scope nowMs node = some reason := by rw [Nearby.verdict, hnode]
      simp only [List.filter_cons, hpermits, List.filterMap_cons, hverdict, Option.map_some, List.map_cons]
      exact congrArg _ ih

theorem Accounts.answered_iff {answer : QueryAnswer} (h : Accounts scope nowMs candidates answer) :
    answer.answered ↔ answer.citations ≠ [] := by
  rw [h.answered, h.citations, ne_eq, List.map_eq_nil_iff, List.filter_eq_nil_iff]
  simp only [permits_iff, not_forall, not_not, exists_prop]

/-- Each candidate is cited or denied, and none is both. -/
theorem Accounts.length {answer : QueryAnswer} (h : Accounts scope nowMs candidates answer) :
    answer.citations.length + answer.denied.length = answer.considered := by
  have hdenied : answer.denied.length = (candidates.filter (fun node => !permits scope node.acl nowMs)).length := by
    simpa only [List.length_map] using congrArg List.length h.ids
  rw [h.citations, h.considered, hdenied, List.length_map]
  exact (List.length_eq_length_filter_add _).symm

end Check

section Retrieve
variable {Vector : Type} {similarity : Vector → String → ℚ} {v : Vector} {exp : ℚ → ℚ} {found linked : Store}
  {index : VectorIndex similarity v found.nodes} {ownerId : String} {topK : Nat} {nowMs : Int} {ranked : List RankedNode}

theorem mem_vectorSearch {k : Nat} {candidate : Row × ℚ} (h : candidate ∈ vectorSearch index ownerId k) :
    candidate.1 ∈ found.nodes ∧ candidate.1.ownerId = ownerId := by
  rw [vectorSearch_eq] at h
  obtain ⟨r, hr, rfl⟩ := List.mem_map.mp h
  obtain ⟨hin, howner⟩ := List.mem_filter.mp (List.mem_of_mem_take hr)
  exact ⟨index.perm.mem_iff.mp (List.mem_of_mem_take hin), of_decide_eq_true howner⟩

/-- What is retrieved are nodes of the owner, at most as many as were asked for. -/
theorem retrieve_sound (h : retrieve exp found linked index ownerId topK nowMs = .ok ranked) :
    (∀ r ∈ ranked, r.node ∈ found.nodes ∧ r.node.ownerId = ownerId) ∧ ranked.length ≤ topK := by
  unfold retrieve at h
  dsimp only at h
  split at h
  · obtain rfl := Except.ok.inj h
    exact ⟨fun r hr => absurd hr List.not_mem_nil, Nat.zero_le _⟩
  · obtain ⟨all, hall, rfl⟩ := Results.map_ok h
    refine ⟨fun r hr => ?_, List.length_take_le _ _⟩
    have hevery := (forall_mem_rank_iff hall (P := fun node _ => node ∈ found.nodes ∧ node.ownerId = ownerId)).mpr
      (fun c hc => mem_vectorSearch hc)
    exact hevery r (List.mem_of_mem_take hr)

/-- Retrieval never fails, whatever is written between its two queries. -/
theorem exists_retrieve (exp : ℚ → ℚ) (linked : Store) (index : VectorIndex similarity v found.nodes) (ownerId : String)
    (topK : Nat) (nowMs : Int) : ∃ ranked, retrieve exp found linked index ownerId topK nowMs = .ok ranked := by
  unfold retrieve
  dsimp only
  split
  · exact ⟨[], rfl⟩
  · exact Results.exists_map_ok_iff.mpr (exists_rank exp _ nowMs)

end Retrieve

section Run
variable {Vector : Type} {similarity : Vector → String → ℚ} {v : Vector} {jwt : Jwt} {secret : String} {exp : ℚ → ℚ}
  {found linked : Store} {index : VectorIndex similarity v found.nodes} {scope : Scope} {question : String} {topK : Nat}
  {retrieved checked : Nat} {state : QueryState jwt} {clocks : Clocks} {answer : QueryAnswer}

theorem answerUnder_eq (exp : ℚ → ℚ) (linked : Store) (index : VectorIndex similarity v found.nodes) (scope : Scope)
    (question : String) (topK retrieved checked : Nat) : ∃ ranked, retrieve exp found linked index scope.ownerId topK retrieved = .ok ranked ∧
    answerUnder exp found linked index scope question topK retrieved checked =
      .ok (answerFrom scope question checked (ranked.map (fun r => r.node.payload))) := by
  obtain ⟨ranked, hranked⟩ := exists_retrieve exp linked index scope.ownerId topK retrieved
  exact ⟨ranked, hranked, by rw [answerUnder, hranked]⟩

theorem runQuery_ok_iff : runQuery exp found linked index jwt secret state clocks = .ok answer ↔
    ∃ scope, authorize jwt secret state clocks.introspected = .ok scope ∧
      answerUnder exp found linked index scope state.question state.topK clocks.retrieved clocks.checked = .ok answer := by
  unfold runQuery
  cases authorize jwt secret state clocks.introspected with
  | error e => simp
  | ok scope => simp

/-- The answer accounts for what was retrieved: nodes of the owner, at most as many as were asked for. -/
theorem answerUnder_accounts (h : answerUnder exp found linked index scope question topK retrieved checked = .ok answer) :
    ∃ ranked, retrieve exp found linked index scope.ownerId topK retrieved = .ok ranked ∧
      (∀ r ∈ ranked, r.node ∈ found.nodes ∧ r.node.ownerId = scope.ownerId) ∧ ranked.length ≤ topK ∧
      Accounts scope checked (ranked.map (fun r => r.node.payload)) answer := by
  obtain ⟨ranked, hranked, heq⟩ := answerUnder_eq exp linked index scope question topK retrieved checked
  obtain rfl := Except.ok.inj (heq.symm.trans h)
  obtain ⟨hnodes, hlength⟩ := retrieve_sound hranked
  exact ⟨ranked, hranked, hnodes, hlength, answerFrom_accounts scope checked _ question⟩

/-- What is cited is a node of the owner that the scope opens, and what is denied is one that it does not. -/
theorem answerUnder_sound (h : answerUnder exp found linked index scope question topK retrieved checked = .ok answer) :
    (∀ c ∈ answer.citations, ∃ r ∈ found.nodes, r.ownerId = scope.ownerId ∧
      evaluate scope r.payload.acl checked = .allow ∧ c = citationOf r.payload) ∧
    (∀ d ∈ answer.denied, ∃ r ∈ found.nodes, r.ownerId = scope.ownerId ∧
      evaluate scope r.payload.acl checked = .deny d.reason ∧ d.id = r.payload.id) := by
  obtain ⟨ranked, _, hnodes, _, haccounts⟩ := answerUnder_accounts h
  refine ⟨fun c hc => ?_, fun d hd => ?_⟩
  · rw [haccounts.citations] at hc
    obtain ⟨node, hnode, rfl⟩ := List.mem_map.mp hc
    obtain ⟨hin, hallow⟩ := List.mem_filter.mp hnode
    obtain ⟨r, hr, rfl⟩ := List.mem_map.mp hin
    exact ⟨r.node, (hnodes r hr).1, (hnodes r hr).2, permits_iff.mp hallow, rfl⟩
  · rw [haccounts.denied] at hd
    obtain ⟨node, hin, hdenial⟩ := List.mem_filterMap.mp hd
    obtain ⟨r, hr, rfl⟩ := List.mem_map.mp hin
    obtain ⟨reason, hverdict, rfl⟩ := Option.map_eq_some_iff.mp hdenial
    refine ⟨r.node, (hnodes r hr).1, (hnodes r hr).2, ?_, rfl⟩
    unfold Nearby.verdict at hverdict
    split at hverdict
    · exact absurd hverdict (by simp)
    · rename_i hdeny
      rw [hdeny, Option.some.inj hverdict]

end Run

/-- A query that was let in never fails, whatever is written while it runs. Of the candidates it retrieved, nodes of the
owner, it cites those that its grant opens at the time of the check, names each of the others with the reason, and counts
them all. -/
theorem query_confined {Vector : Type} {similarity : Vector → String → ℚ} {v : Vector} (jwt : Jwt) (secret : String)
    (exp : ℚ → ℚ) (found linked : Store) (index : VectorIndex similarity v found.nodes) (state : QueryState jwt)
    (clocks : Clocks) :
    ((∃ answer, runQuery exp found linked index jwt secret state clocks = .ok answer) ↔
        ∃ scope, authorize jwt secret state clocks.introspected = .ok scope) ∧
      ∀ answer, runQuery exp found linked index jwt secret state clocks = .ok answer →
        ∃ scope ranked, authorize jwt secret state clocks.introspected = .ok scope ∧
          retrieve exp found linked index scope.ownerId state.topK clocks.retrieved = .ok ranked ∧
          (∀ r ∈ ranked, r.node ∈ found.nodes ∧ r.node.ownerId = scope.ownerId) ∧ ranked.length ≤ state.topK ∧
          Accounts scope clocks.checked (ranked.map (fun r => r.node.payload)) answer ∧
          (∀ c ∈ answer.citations, ∃ r ∈ found.nodes, r.ownerId = scope.ownerId ∧
            evaluate scope r.payload.acl clocks.checked = .allow ∧ c = citationOf r.payload) ∧
          (∀ d ∈ answer.denied, ∃ r ∈ found.nodes, r.ownerId = scope.ownerId ∧
            evaluate scope r.payload.acl clocks.checked = .deny d.reason ∧ d.id = r.payload.id) ∧
          (answer.answered ↔ answer.citations ≠ []) ∧
          answer.citations.length + answer.denied.length = answer.considered ∧ answer.considered ≤ state.topK := by
  constructor
  · constructor
    · rintro ⟨answer, h⟩
      obtain ⟨scope, hscope, _⟩ := runQuery_ok_iff.mp h
      exact ⟨scope, hscope⟩
    · rintro ⟨scope, hscope⟩
      obtain ⟨_, _, h⟩ := answerUnder_eq exp linked index scope state.question state.topK clocks.retrieved clocks.checked
      exact ⟨_, runQuery_ok_iff.mpr ⟨scope, hscope, h⟩⟩
  · intro answer h
    obtain ⟨scope, hscope, hanswer⟩ := runQuery_ok_iff.mp h
    obtain ⟨ranked, hranked, hnodes, hlength, haccounts⟩ := answerUnder_accounts hanswer
    have hconsidered : answer.considered ≤ state.topK := by
      rw [haccounts.considered, List.length_map]
      exact hlength
    obtain ⟨hcited, hdenied⟩ := answerUnder_sound hanswer
    exact ⟨scope, ranked, hscope, hranked, hnodes, hlength, haccounts, hcited, hdenied, haccounts.answered_iff,
      haccounts.length, hconsidered⟩

section Narrow
variable {narrow wide : Scope} {now later : Int}

/-- What a narrower grant opens later on, the wider one opens now. -/
theorem allow_of_narrows (h : narrow.grant.Narrows wide.grant) (htime : now ≤ later) {acl : ObjectAcl}
    (hallow : evaluate narrow acl later = .allow) : evaluate wide acl now = .allow := by
  rw [evaluate_allow_iff_opens] at hallow ⊢
  exact hallow.mono h ⟨rfl, ⟨hallow.sources.1, subset_rfl⟩, ⟨hallow.kinds.1, subset_rfl⟩, rfl, subset_rfl, le_rfl⟩ htime

end Narrow

/-- A grant for whatever is not confidential that soon ends. -/
def endingSoon : Scope := { Nearby.personalOnly with expiresAtMs := some 5 }

end Memorai.Query
