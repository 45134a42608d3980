import Mathlib
import Memorai.Access.Grants
import Memorai.Schema.Permissions

/-! The permission check as a grant that opens a guard. -/
namespace Memorai.Schema
open Access

def Scope.grant (scope : Scope) : Grant String String SourceId EntityKind Int Nat where
  owner := scope.ownerId
  agent := scope.agentId
  sources := {s | s ∈ scope.sources}
  kinds := {k | k ∈ scope.entityKinds}
  notBefore := lower scope.notBeforeMs
  notAfter := upper scope.notAfterMs
  ceiling := scope.maxSensitivity.rank
  expiry := upper scope.expiresAtMs

def ObjectAcl.guard (acl : ObjectAcl) : Guard String String SourceId EntityKind Int Nat where
  owner := acl.ownerId
  sources := {s | s ∈ acl.sources}
  kinds := {k | k ∈ acl.entityKinds}
  occurred := acl.occurredAtMs
  denied := {a | a ∈ acl.deniedAgents}
  level := acl.sensitivity.rank

theorem evaluate_allow_iff_opens (scope : Scope) (acl : ObjectAcl) (nowMs : Int) :
    evaluate scope acl nowMs = .allow ↔ scope.grant.Opens acl.guard nowMs := by
  rw [evaluate_allow_iff]
  constructor
  · rintro ⟨howner, hlive, hagent, hsources, hkinds, hbegun, hended, hlevel⟩
    exact ⟨howner, lt_upper_iff.mpr hlive, hagent, covers_mem_iff.mpr hsources, covers_mem_iff.mpr hkinds,
      lower_le_iff.mpr hbegun, le_upper_iff.mpr hended, hlevel⟩
  · intro h
    exact ⟨h.owner, lt_upper_iff.mp h.live, h.agent, covers_mem_iff.mp h.sources, covers_mem_iff.mp h.kinds,
      lower_le_iff.mp h.begun, le_upper_iff.mp h.ended, h.level⟩

end Memorai.Schema
