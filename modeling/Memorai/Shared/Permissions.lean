import Memorai.Shared.Scopes

/-! The permission check as the gateway and the enclave have it. -/
namespace Memorai.Shared
open Schema (EntityKind Sensitivity)

structure ObjectAcl where
  ownerId : String
  sources : List SourceId
  sensitivity : Sensitivity
  entityKinds : List EntityKind
  occurredAtMs : UInt64
  deniedAgents : List String := []
  deriving DecidableEq, Repr

/-- The derived order compares these. -/
def discriminant : Sensitivity → Nat
  | .public => 0
  | .personal => 1
  | .confidential => 2
  | .restricted => 3

inductive DenyReason where
  | wrongOwner | grantExpired | agentRevoked | sourceNotInScope | entityKindNotInScope
  | outsideTimeWindow | tooSensitive
  deriving DecidableEq, Repr

def DenyReason.value : DenyReason → String
  | .wrongOwner => "wrong_owner"
  | .grantExpired => "grant_expired"
  | .agentRevoked => "agent_revoked"
  | .sourceNotInScope => "source_not_in_scope"
  | .entityKindNotInScope => "entity_kind_not_in_scope"
  | .outsideTimeWindow => "outside_time_window"
  | .tooSensitive => "too_sensitive"

inductive PermissionDecision where
  | allow
  | deny (reason : DenyReason)
  deriving DecidableEq, Repr

def PermissionDecision.isAllowed : PermissionDecision → Bool
  | .allow => true
  | .deny _ => false

def evaluate (scope : Scope) (acl : ObjectAcl) (nowMs : UInt64) : PermissionDecision :=
  if scope.ownerId ≠ acl.ownerId then .deny .wrongOwner
  else if scope.expiresAtMs.any (fun expiry => nowMs ≥ expiry) then .deny .grantExpired
  else if acl.deniedAgents.any (fun a => a = scope.agentId) then .deny .agentRevoked
  else if acl.sources.isEmpty || !acl.sources.all (fun s => scope.sources.contains s) then .deny .sourceNotInScope
  else if acl.entityKinds.isEmpty || !acl.entityKinds.all (fun k => scope.entityKinds.contains k) then
    .deny .entityKindNotInScope
  else if scope.notBeforeMs.any (fun nb => acl.occurredAtMs < nb) then .deny .outsideTimeWindow
  else if scope.notAfterMs.any (fun na => acl.occurredAtMs > na) then .deny .outsideTimeWindow
  else if discriminant acl.sensitivity > discriminant scope.maxSensitivity then .deny .tooSensitive
  else .allow

def permits (scope : Scope) (acl : ObjectAcl) (nowMs : UInt64) : Bool := (evaluate scope acl nowMs).isAllowed

end Memorai.Shared
