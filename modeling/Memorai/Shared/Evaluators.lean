import Memorai.Schema.Grants
import Memorai.Shared.Mirror
import Memorai.Shared.Permissions

/-! The two permission checks side by side: what they decide, and that narrowing opens nothing. -/
namespace Memorai.Shared
open Access
open Schema (EntityKind)

def DenyReason.mirror : DenyReason → Schema.DenyReason
  | .wrongOwner => .wrongOwner
  | .grantExpired => .grantExpired
  | .agentRevoked => .agentRevoked
  | .sourceNotInScope => .sourceNotInScope
  | .entityKindNotInScope => .entityKindNotInScope
  | .outsideTimeWindow => .outsideTimeWindow
  | .tooSensitive => .tooSensitive

theorem DenyReason.value_mirror (reason : DenyReason) : reason.mirror.value = reason.value := by
  cases reason <;> rfl

def PermissionDecision.mirror : PermissionDecision → Schema.PermissionDecision
  | .allow => .allow
  | .deny reason => .deny reason.mirror

/-- Field for field the same guard. -/
structure ObjectAcl.Mirrors (acl : ObjectAcl) (mirrored : Schema.ObjectAcl) : Prop where
  ownerId : mirrored.ownerId = acl.ownerId
  sources : mirrored.sources.map Subtype.val = acl.sources.map SourceId.raw
  sensitivity : mirrored.sensitivity = acl.sensitivity
  entityKinds : mirrored.entityKinds = acl.entityKinds
  occurredAtMs : mirrored.occurredAtMs = (acl.occurredAtMs.toNat : Int)
  deniedAgents : mirrored.deniedAgents = acl.deniedAgents

section Agreement

theorem discriminant_eq_rank (s : Schema.Sensitivity) : discriminant s = s.rank := by
  cases s <;> rfl

/-- Bounds of 64 bits compare as the numbers they are. -/
private theorem any_map_toNat {bound : Option UInt64} {p : UInt64 → Bool} {q : Int → Bool} (h : ∀ n, q (n.toNat : Int) = p n) :
    (bound.map (fun n => (n.toNat : Int))).any q = bound.any p := by
  cases bound with
  | none => rfl
  | some n => exact h n

/-- An id is among the checked ones if it is among the raw ones. -/
private theorem mem_mirrored {checked : List Schema.SourceId} {raw : List SourceId}
    (h : checked.map Subtype.val = raw.map SourceId.raw) (s : Schema.SourceId) : s ∈ checked ↔ SourceId.mk s.val ∈ raw := by
  have hchecked : s ∈ checked ↔ s.val ∈ checked.map Subtype.val := by
    rw [List.mem_map_of_injective Subtype.val_injective]
  have hraw : SourceId.mk s.val ∈ raw ↔ s.val ∈ raw.map SourceId.raw := by
    rw [← List.mem_map_of_injective (f := SourceId.raw) (fun a b hab => by cases a; cases b; simpa using hab)]
  rw [hchecked, h, hraw]

private theorem covered_mirrored {granted needed : List Schema.SourceId} {rawGranted rawNeeded : List SourceId}
    (hgranted : granted.map Subtype.val = rawGranted.map SourceId.raw)
    (hneeded : needed.map Subtype.val = rawNeeded.map SourceId.raw) :
    (needed = [] ∨ ¬ needed.all (· ∈ granted)) ↔
      (rawNeeded.isEmpty || !rawNeeded.all (fun s => rawGranted.contains s)) = true := by
  have hempty : needed = [] ↔ rawNeeded = [] := by
    rw [← List.map_eq_nil_iff (f := Subtype.val), hneeded, List.map_eq_nil_iff]
  have hall : (∀ s ∈ needed, s ∈ granted) ↔ ∀ s ∈ rawNeeded, s ∈ rawGranted := by
    constructor
    · intro h s hs
      have hraw : s.raw ∈ needed.map Subtype.val := hneeded ▸ List.mem_map_of_mem hs
      obtain ⟨c, hc, hval⟩ := List.mem_map.mp hraw
      have hgranted := (mem_mirrored hgranted c).mp (h c hc)
      rwa [hval] at hgranted
    · intro h c hc
      exact (mem_mirrored hgranted c).mpr (h _ ((mem_mirrored hneeded c).mp hc))
  have hcovered : needed.all (· ∈ granted) = rawNeeded.all (fun s => rawGranted.contains s) := by
    rw [Bool.eq_iff_iff, List.all_eq_true, List.all_eq_true]
    simp only [decide_eq_true_eq, List.contains_iff_mem]
    exact hall
  rw [hempty, hcovered]
  simp

/-- Of one grant, one guard and one time, both checks make the same decision for the same reason. -/
theorem evaluate_mirror {scope : Scope} {acl : ObjectAcl} {mirroredScope : Schema.Scope} {mirroredAcl : Schema.ObjectAcl}
    (hscope : scope.Mirrors mirroredScope) (hacl : acl.Mirrors mirroredAcl) (nowMs : UInt64) :
    Schema.evaluate mirroredScope mirroredAcl nowMs.toNat = (evaluate scope acl nowMs).mirror := by
  have hexpiry : mirroredScope.expiresAtMs.any (fun expiry => expiry ≤ (nowMs.toNat : Int)) =
      scope.expiresAtMs.any (fun expiry => nowMs ≥ expiry) := by
    rw [hscope.expiresAtMs]
    exact any_map_toNat (fun n => by simp [UInt64.le_iff_toNat_le])
  have hstart : mirroredScope.notBeforeMs.any (fun start => mirroredAcl.occurredAtMs < start) =
      scope.notBeforeMs.any (fun nb => acl.occurredAtMs < nb) := by
    rw [hscope.notBeforeMs, hacl.occurredAtMs]
    exact any_map_toNat (fun n => by simp [UInt64.lt_iff_toNat_lt])
  have hstop : mirroredScope.notAfterMs.any (fun stop => stop < mirroredAcl.occurredAtMs) =
      scope.notAfterMs.any (fun na => acl.occurredAtMs > na) := by
    rw [hscope.notAfterMs, hacl.occurredAtMs]
    exact any_map_toNat (fun n => by simp [UInt64.lt_iff_toNat_lt])
  have hagents : mirroredScope.agentId ∈ mirroredAcl.deniedAgents ↔
      acl.deniedAgents.any (fun a => a = scope.agentId) = true := by
    rw [hscope.agentId, hacl.deniedAgents]
    simp
  have hkinds : (mirroredAcl.entityKinds = [] ∨ ¬ mirroredAcl.entityKinds.all (· ∈ mirroredScope.entityKinds)) ↔
      (acl.entityKinds.isEmpty || !acl.entityKinds.all (fun k => scope.entityKinds.contains k)) = true := by
    rw [hacl.entityKinds, hscope.entityKinds]
    simp
  have hlevel : mirroredScope.maxSensitivity.rank < mirroredAcl.sensitivity.rank ↔
      discriminant acl.sensitivity > discriminant scope.maxSensitivity := by
    rw [hscope.maxSensitivity, hacl.sensitivity, discriminant_eq_rank, discriminant_eq_rank]
  rw [Schema.evaluate, evaluate]
  simp only [hscope.ownerId, hacl.ownerId, hexpiry, hstart, hstop, hagents, hkinds, hlevel,
    covered_mirrored hscope.sources hacl.sources]
  -- Both sides ask the same questions in the same order.
  simp only [apply_ite PermissionDecision.mirror]
  rfl

/-- A grant of one source until a time. -/
def slackScope (stop : UInt64) : Scope where
  agentId := "agent"
  ownerId := "alice"
  sources := [⟨"slack"⟩]
  entityKinds := [.project, .person]
  notBeforeMs := none
  notAfterMs := some stop
  maxSensitivity := .confidential
  expiresAtMs := some 50

def slackAcl (kinds : List EntityKind) : ObjectAcl where
  ownerId := "alice"
  sources := [⟨"slack"⟩]
  sensitivity := .personal
  entityKinds := kinds
  occurredAtMs := 7

def mirroredAcl (kinds : List EntityKind) : Schema.ObjectAcl where
  ownerId := "alice"
  sources := [⟨"slack", by decide⟩]
  sensitivity := .personal
  entityKinds := kinds
  occurredAtMs := 7

/-- Outside the window and too late: the time of the grant is looked at first. -/
theorem evaluate_mirror_expired :
    Schema.evaluate ((slackScope 5).mirror (by decide)) (mirroredAcl [.project]) (UInt64.toNat 50) = .deny .grantExpired ∧
      evaluate (slackScope 5) (slackAcl [.project]) 50 = .deny .grantExpired := by
  have hacl : (slackAcl [.project]).Mirrors (mirroredAcl [.project]) := ⟨rfl, rfl, rfl, rfl, rfl, rfl⟩
  exact ⟨(evaluate_mirror (Scope.mirrors_mirror (by decide)) hacl 50).trans (by decide), by decide⟩

end Agreement

section Narrowing

/-- The grant a scope is, its times and levels as numbers. -/
def Scope.grant (scope : Scope) : Grant String String SourceId EntityKind Nat Nat where
  owner := scope.ownerId
  agent := scope.agentId
  sources := {s | s ∈ scope.sources}
  kinds := {k | k ∈ scope.entityKinds}
  notBefore := lower (scope.notBeforeMs.map UInt64.toNat)
  notAfter := upper (scope.notAfterMs.map UInt64.toNat)
  ceiling := discriminant scope.maxSensitivity
  expiry := upper (scope.expiresAtMs.map UInt64.toNat)

def ObjectAcl.guard (acl : ObjectAcl) : Guard String String SourceId EntityKind Nat Nat where
  owner := acl.ownerId
  sources := {s | s ∈ acl.sources}
  kinds := {k | k ∈ acl.entityKinds}
  occurred := acl.occurredAtMs.toNat
  denied := {a | a ∈ acl.deniedAgents}
  level := discriminant acl.sensitivity

/-- A check that comes first has to pass, and so do the others. -/
private theorem ite_deny_eq_allow {c : Prop} [Decidable c] {reason : DenyReason} {rest : PermissionDecision} :
    (if c then .deny reason else rest) = PermissionDecision.allow ↔ ¬ c ∧ rest = .allow := by
  by_cases h : c <;> simp [h]

private theorem not_any_iff {bound : Option UInt64} {p : UInt64 → Bool} {q : Nat → Prop}
    (h : ∀ n, p n = false ↔ q n.toNat) : ¬ bound.any p = true ↔ ∀ n ∈ bound.map UInt64.toNat, q n := by
  cases bound with
  | none => simp
  | some n => simp [h]

private theorem not_uncovered_iff {β : Type} [BEq β] [LawfulBEq β] {granted needed : List β} :
    ¬ (needed.isEmpty || !needed.all (fun x => granted.contains x)) = true ↔ Covers {x | x ∈ granted} {x | x ∈ needed} := by
  rw [covers_mem_iff]
  simp

theorem evaluate_allow_iff_opens (scope : Scope) (acl : ObjectAcl) (nowMs : UInt64) :
    evaluate scope acl nowMs = .allow ↔ scope.grant.Opens acl.guard nowMs.toNat := by
  have hlive : ¬ scope.expiresAtMs.any (fun expiry => nowMs ≥ expiry) = true ↔ (nowMs.toNat : WithTop Nat) < scope.grant.expiry :=
    (not_any_iff (fun n => by simp [UInt64.lt_iff_toNat_lt])).trans lt_upper_iff.symm
  have hbegun : ¬ scope.notBeforeMs.any (fun nb => acl.occurredAtMs < nb) = true ↔ scope.grant.notBefore ≤ acl.guard.occurred :=
    (not_any_iff (fun n => by simp [UInt64.le_iff_toNat_le, ObjectAcl.guard])).trans lower_le_iff.symm
  have hended : ¬ scope.notAfterMs.any (fun na => acl.occurredAtMs > na) = true ↔
      (acl.guard.occurred : WithTop Nat) ≤ scope.grant.notAfter :=
    (not_any_iff (fun n => by simp [UInt64.le_iff_toNat_le, ObjectAcl.guard])).trans le_upper_iff.symm
  have hagent : ¬ acl.deniedAgents.any (fun a => a = scope.agentId) = true ↔ scope.grant.agent ∉ acl.guard.denied := by
    simp [Scope.grant, ObjectAcl.guard]
  unfold evaluate
  simp only [ite_deny_eq_allow, hlive, hbegun, hended, hagent, not_uncovered_iff, not_not, gt_iff_lt, not_lt, and_true]
  constructor
  · rintro ⟨howner, hlive, hagent, hsources, hkinds, hbegun, hended, hlevel⟩
    exact ⟨howner, hlive, hagent, hsources, hkinds, hbegun, hended, hlevel⟩
  · intro h
    exact ⟨h.owner, h.live, h.agent, h.sources, h.kinds, h.begun, h.ended, h.level⟩

/-- A narrower grant or a tighter guard opens nothing that was closed, of either check. -/
theorem narrowing_opens_nothing :
    (∀ (narrow wide : Schema.Scope) (tight loose : Schema.ObjectAcl) (now later : Int),
      narrow.grant.Narrows wide.grant → tight.guard.Tightens loose.guard → now ≤ later →
        Schema.evaluate narrow tight later = .allow → Schema.evaluate wide loose now = .allow) ∧
    ∀ (narrow wide : Scope) (tight loose : ObjectAcl) (now later : UInt64),
      narrow.grant.Narrows wide.grant → tight.guard.Tightens loose.guard → now ≤ later →
        evaluate narrow tight later = .allow → evaluate wide loose now = .allow := by
  constructor
  · intro narrow wide tight loose now later hscope hacl htime h
    rw [Schema.evaluate_allow_iff_opens] at h ⊢
    exact h.mono hscope hacl htime
  · intro narrow wide tight loose now later hscope hacl htime h
    rw [evaluate_allow_iff_opens] at h ⊢
    exact h.mono hscope hacl (UInt64.le_iff_toNat_le.mp htime)

theorem narrowing_opens_nothing_slack :
    evaluate (slackScope 9) (slackAcl [.project]) 3 = .allow ∧
      Schema.evaluate ((slackScope 9).mirror (by decide)) (mirroredAcl [.project]) 3 = .allow := by
  have hscope : (slackScope 8).grant.Narrows (slackScope 9).grant :=
    ⟨rfl, rfl, subset_rfl, subset_rfl, le_rfl, WithTop.coe_le_coe.mpr (by decide), le_rfl, le_rfl⟩
  have hmirrored : Schema.Scope.grant ((slackScope 8).mirror (by decide)) |>.Narrows
      (Schema.Scope.grant ((slackScope 9).mirror (by decide))) :=
    ⟨rfl, rfl, subset_rfl, subset_rfl, le_rfl, WithTop.coe_le_coe.mpr (by decide), le_rfl, le_rfl⟩
  have hkinds : Covers {k | k ∈ [EntityKind.project, EntityKind.person]} {k | k ∈ [EntityKind.project]} :=
    covers_mem_iff.mpr (by decide)
  have hacl : (slackAcl [.project, .person]).guard.Tightens (slackAcl [.project]).guard :=
    ⟨rfl, covers_mem_iff.mpr (by decide), hkinds, rfl, subset_rfl, le_rfl⟩
  have hmirroredAcl : (mirroredAcl [.project, .person]).guard.Tightens (mirroredAcl [.project]).guard :=
    ⟨rfl, covers_mem_iff.mpr (by decide), hkinds, rfl, subset_rfl, le_rfl⟩
  exact ⟨narrowing_opens_nothing.2 _ _ _ _ 3 4 hscope hacl (by decide) (by decide),
    narrowing_opens_nothing.1 _ _ _ _ 3 4 hmirrored hmirroredAcl (by decide) (by decide)⟩

end Narrowing
end Memorai.Shared
