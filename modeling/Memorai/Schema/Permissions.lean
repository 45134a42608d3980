import Memorai.Schema.Enums

/-! Query-time permission model: a pure, total check of one object's ACL against one scope. -/
namespace Memorai.Schema

structure ObjectAcl where
  ownerId : String
  /-- Plural: a resolved object can draw on several sources. -/
  sources : List SourceId := []
  sensitivity : Sensitivity := .personal
  entityKinds : List EntityKind := []
  occurredAtMs : Int
  deniedAgents : List String := []
  deriving DecidableEq, Repr

structure Scope where
  agentId : String
  ownerId : String
  sources : List SourceId := []
  entityKinds : List EntityKind := []
  notBeforeMs : Option Int := none
  notAfterMs : Option Int := none
  maxSensitivity : Sensitivity := .personal
  expiresAtMs : Option Int := none
  deriving DecidableEq, Repr

inductive PermissionDecision where
  | allow
  | deny (reason : DenyReason)
  deriving DecidableEq, Repr

def PermissionDecision.allowed (d : PermissionDecision) : Bool := d = .allow

def evaluate (scope : Scope) (acl : ObjectAcl) (nowMs : Int) : PermissionDecision :=
  if scope.ownerId ≠ acl.ownerId then .deny .wrongOwner
  else if scope.expiresAtMs.any (fun expiry => expiry ≤ nowMs) then .deny .grantExpired
  else if scope.agentId ∈ acl.deniedAgents then .deny .agentRevoked
  else if acl.sources = [] ∨ ¬ acl.sources.all (· ∈ scope.sources) then .deny .sourceNotInScope
  else if acl.entityKinds = [] ∨ ¬ acl.entityKinds.all (· ∈ scope.entityKinds) then
    .deny .entityKindNotInScope
  else if scope.notBeforeMs.any (fun start => acl.occurredAtMs < start) then .deny .outsideTimeWindow
  else if scope.notAfterMs.any (fun stop => stop < acl.occurredAtMs) then .deny .outsideTimeWindow
  else if scope.maxSensitivity.rank < acl.sensitivity.rank then .deny .tooSensitive
  else .allow

def permits (scope : Scope) (acl : ObjectAcl) (nowMs : Int) : Bool := (evaluate scope acl nowMs).allowed

/-- The check as a conjunction: every clause that can deny is one conjunct. -/
theorem evaluate_allow_iff (scope : Scope) (acl : ObjectAcl) (nowMs : Int) :
    evaluate scope acl nowMs = .allow ↔
      scope.ownerId = acl.ownerId ∧ (∀ expiry ∈ scope.expiresAtMs, nowMs < expiry) ∧
      scope.agentId ∉ acl.deniedAgents ∧
      (acl.sources ≠ [] ∧ ∀ s ∈ acl.sources, s ∈ scope.sources) ∧
      (acl.entityKinds ≠ [] ∧ ∀ k ∈ acl.entityKinds, k ∈ scope.entityKinds) ∧
      (∀ start ∈ scope.notBeforeMs, start ≤ acl.occurredAtMs) ∧
      (∀ stop ∈ scope.notAfterMs, acl.occurredAtMs ≤ stop) ∧
      acl.sensitivity.rank ≤ scope.maxSensitivity.rank := by
  unfold evaluate
  constructor
  · intro h
    repeat' split at h
    all_goals cases h
    simp_all [Option.any_eq_true]
  · rintro ⟨h1, h2, h3, ⟨h4, h5⟩, ⟨h6, h7⟩, h8, h9, h10⟩
    rw [if_neg (by simpa using h1), if_neg (by simpa [Option.any_eq_true] using h2), if_neg h3,
      if_neg (by simpa [h4] using h5), if_neg (by simpa [h6] using h7),
      if_neg (by simpa [Option.any_eq_true] using h8), if_neg (by simpa [Option.any_eq_true] using h9),
      if_neg (by omega)]

/-- Two guards of one owner that differ in their entity kinds at most: what opens one leaves only the
kinds to close the other. -/
theorem evaluate_of_other_kinds {scope : Scope} {acl other : ObjectAcl} {nowMs : Int}
    (h : evaluate scope acl nowMs = .allow) (howner : scope.ownerId = other.ownerId)
    (hrest : { other with ownerId := acl.ownerId, entityKinds := acl.entityKinds } = acl) :
    evaluate scope other nowMs = .allow ∨ evaluate scope other nowMs = .deny .entityKindNotInScope := by
  have hfields : other.sources = acl.sources ∧ other.sensitivity = acl.sensitivity ∧
      other.occurredAtMs = acl.occurredAtMs ∧ other.deniedAgents = acl.deniedAgents := by
    rw [← hrest]
    exact ⟨rfl, rfl, rfl, rfl⟩
  obtain ⟨hsources, hsens, htime, hagents⟩ := hfields
  obtain ⟨_, h2, h3, ⟨h4, h5⟩, _, h8, h9, h10⟩ := (evaluate_allow_iff _ _ _).mp h
  rw [← hagents] at h3
  rw [← hsources] at h4 h5
  rw [← htime] at h8 h9
  rw [← hsens] at h10
  by_cases hk : other.entityKinds ≠ [] ∧ ∀ k ∈ other.entityKinds, k ∈ scope.entityKinds
  · exact Or.inl ((evaluate_allow_iff _ _ _).mpr ⟨howner, h2, h3, ⟨h4, h5⟩, hk, h8, h9, h10⟩)
  · have hclosed : other.entityKinds = [] ∨ ¬ other.entityKinds.all (· ∈ scope.entityKinds) := by
      by_contra hn
      rw [not_or, not_not, List.all_eq_true] at hn
      exact hk ⟨hn.1, fun k hin => by simpa using hn.2 k hin⟩
    right
    unfold evaluate
    rw [if_neg (by simpa using howner), if_neg (by simpa [Option.any_eq_true] using h2), if_neg h3,
      if_neg (by simpa [h4] using h5), if_pos hclosed]

end Memorai.Schema
