import Mathlib.Data.List.Basic

/-! Wire-level enums shared by the memory schema and the permission model. -/
namespace Memorai.Schema

/-- `_check_source_id`: the pattern's `$` also matches in front of one final newline. -/
def checkSourceId (value : String) : Bool :=
  let chars := value.toList
  let body := if chars.getLast? = some '\n' then chars.dropLast else chars
  (1 ≤ body.length && body.length ≤ 64) &&
    body.all (fun c => ('a' ≤ c && c ≤ 'z') || ('0' ≤ c && c ≤ '9') || c = '_' || c = '-')

theorem checkSourceId_mock : checkSourceId "mock" = true := by decide

/-- An open source identifier. Only a checked string is one. -/
abbrev SourceId := { value : String // checkSourceId value = true }

inductive EntityKind where
  | person | project | artifact | organization | topic
  deriving DecidableEq, Repr

def EntityKind.value : EntityKind → String
  | .person => "person"
  | .project => "project"
  | .artifact => "artifact"
  | .organization => "organization"
  | .topic => "topic"

def EntityKind.ofValue (value : String) : Option EntityKind :=
  [person, project, artifact, organization, topic].find? (fun kind => kind.value = value)

theorem EntityKind.ofValue_value (kind : EntityKind) : EntityKind.ofValue kind.value = some kind := by
  cases kind <;> decide

inductive ClaimStatus where
  | active | superseded | contradicted | reconciled
  deriving DecidableEq, Repr

def ClaimStatus.value : ClaimStatus → String
  | .active => "active"
  | .superseded => "superseded"
  | .contradicted => "contradicted"
  | .reconciled => "reconciled"

def ClaimStatus.ofValue (value : String) : Option ClaimStatus :=
  [active, superseded, contradicted, reconciled].find? (fun status => status.value = value)

theorem ClaimStatus.ofValue_value (status : ClaimStatus) : ClaimStatus.ofValue status.value = some status := by
  cases status <;> decide

/-- Whether a commitment happened, a separate axis from `ClaimStatus`. -/
inductive FulfillmentStatus where
  | «open» | fulfilled | dropped
  deriving DecidableEq, Repr

def FulfillmentStatus.value : FulfillmentStatus → String
  | .open => "open"
  | .fulfilled => "fulfilled"
  | .dropped => "dropped"

def FulfillmentStatus.ofValue (value : String) : Option FulfillmentStatus :=
  [.open, fulfilled, dropped].find? (fun status => status.value = value)

theorem FulfillmentStatus.ofValue_value (status : FulfillmentStatus) :
    FulfillmentStatus.ofValue status.value = some status := by
  cases status <;> decide

inductive Sensitivity where
  | «public» | personal | confidential | restricted
  deriving DecidableEq, Repr

def Sensitivity.rank : Sensitivity → Nat
  | .public => 0
  | .personal => 1
  | .confidential => 2
  | .restricted => 3

def Sensitivity.value : Sensitivity → String
  | .public => "public"
  | .personal => "personal"
  | .confidential => "confidential"
  | .restricted => "restricted"

def Sensitivity.ofValue (value : String) : Option Sensitivity :=
  [.public, personal, confidential, restricted].find? (fun s => s.value = value)

theorem Sensitivity.ofValue_value (s : Sensitivity) : Sensitivity.ofValue s.value = some s := by
  cases s <;> decide

inductive DenyReason where
  | wrongOwner | grantExpired | agentRevoked | sourceNotInScope | entityKindNotInScope
  | outsideTimeWindow | tooSensitive
  deriving DecidableEq, Repr

def DenyReason.value : DenyReason → String
  | .wrongOwner => "wrong_owner"
  | .grantExpired => "grant_expired"
  | .agentRevoked => "agent_revoked"
  | .sourceNotInScope => "source_not_in_scope"
  | .entityKindNotInScope => "entity_kind_not_in_scope"
  | .outsideTimeWindow => "outside_time_window"
  | .tooSensitive => "too_sensitive"

end Memorai.Schema
