import Mathlib.Algebra.Group.Nat.Defs
import Memorai.Gateway.Grants
import Memorai.Shared.Mirror

/-! How long a grant lasts. Its end is computed in 64 bits, from a lifetime that the request is free to choose. -/
namespace Memorai.Gateway
open Shared Wire
open Schema (evaluate_allow_iff checkSourceId checkSourceId_mock)

/-- The orchestrator lets an object through under this scope. -/
def Allows (scope : Scope) (acl : Schema.ObjectAcl) (nowMs : Nat) : Prop :=
  ∃ validated, Schema.Scope.modelValidate scope.toJson = some validated ∧ Schema.evaluate validated acl nowMs = .allow

/-- The grant is resolved, and the orchestrator lets the object through under what comes back. -/
def Granted (jwt : Jwt) (secret : String) (token : jwt.Token) (acl : Schema.ObjectAcl) (nowMs : Nat) : Prop :=
  ∃ resp, scopeIntrospect jwt secret token (nowMs / 1000) = .ok resp ∧ Allows resp.scope acl nowMs

/-- The end of a lifetime, in milliseconds and without any bound. -/
def endMs (mintedAt ttlSecs : UInt64) : Nat := 1000 * (mintedAt.toNat + ttlSecs.toNat)

section Expiry
variable {scope : Scope} {acl : Schema.ObjectAcl} {nowMs : Nat} {mintedAt ttlSecs expiresAtSecs : UInt64}

/-- The end of a lifetime as the gateway computes it. -/
theorem toNat_endMs (mintedAt ttlSecs : UInt64) :
    ((mintedAt + ttlSecs) * 1000).toNat = endMs mintedAt ttlSecs % 2 ^ 64 := by
  rw [UInt64.toNat_mul, UInt64.toNat_add, Nat.mod_mul_mod, endMs, Nat.mul_comm]
  rfl

theorem allows_iff_of_checked (h : ∀ source ∈ scope.sources, checkSourceId source.raw = true) :
    Allows scope acl nowMs ↔ Schema.evaluate (scope.mirror h) acl nowMs = .allow := by
  rw [Allows, Scope.modelValidate_toJson h]
  constructor
  · rintro ⟨_, hvalid, hallow⟩
    obtain rfl := Option.some.inj hvalid
    exact hallow
  · intro hallow
    exact ⟨_, rfl, hallow⟩

theorem not_allows_of_unchecked {source : SourceId} (hsource : source ∈ scope.sources)
    (h : ¬ checkSourceId source.raw = true) : ¬ Allows scope acl nowMs := by
  rw [Allows, Scope.modelValidate_eq_none hsource h]
  rintro ⟨_, hvalid, _⟩
  exact absurd hvalid (by simp)

theorem lt_min_iff (n : Nat) (a b : UInt64) : n < (min a b).toNat ↔ n < a.toNat ∧ n < b.toNat := by
  have hmin : min a b = if a ≤ b then a else b := rfl
  rw [hmin]
  split
  · rename_i hle
    have hle := UInt64.le_iff_toNat_le.mp hle
    omega
  · rename_i hlt
    have hlt := UInt64.le_iff_toNat_le.not.mp hlt
    omega

theorem lt_expiryMs_iff : nowMs < (expiryMs scope expiresAtSecs).toNat ↔
    (∀ existing ∈ scope.expiresAtMs, nowMs < existing.toNat) ∧ nowMs < (expiresAtSecs * 1000).toNat := by
  rw [expiryMs]
  cases scope.expiresAtMs with
  | none => simp
  | some existing => simp [lt_min_iff]

/-- A scope that is cut off allows what it allowed, until then. -/
theorem allows_cutOff_iff : Allows (cutOff scope expiresAtSecs) acl nowMs ↔
    Allows scope acl nowMs ∧ nowMs < (expiresAtSecs * 1000).toNat := by
  by_cases h : ∀ source ∈ scope.sources, checkSourceId source.raw = true
  · have hcut : ∀ source ∈ (cutOff scope expiresAtSecs).sources, checkSourceId source.raw = true := h
    have hexpiry : (∀ expiry ∈ ((cutOff scope expiresAtSecs).mirror hcut).expiresAtMs, (nowMs : Int) < expiry) ↔
        (∀ expiry ∈ (scope.mirror h).expiresAtMs, (nowMs : Int) < expiry) ∧ nowMs < (expiresAtSecs * 1000).toNat := by
      have hlt := (lt_expiryMs_iff : nowMs < (expiryMs scope expiresAtSecs).toNat ↔ _)
      simpa [Scope.mirror, cutOff] using hlt
    rw [allows_iff_of_checked h, allows_iff_of_checked hcut, evaluate_allow_iff, evaluate_allow_iff, hexpiry]
    -- The expiry is the only field that differs.
    constructor
    · rintro ⟨howner, ⟨hexp, hend⟩, hrest⟩
      exact ⟨⟨howner, hexp, hrest⟩, hend⟩
    · rintro ⟨⟨howner, hexp, hrest⟩, hend⟩
      exact ⟨howner, ⟨hexp, hend⟩, hrest⟩
  · obtain ⟨source, hsource, hbad⟩ : ∃ source ∈ scope.sources, ¬ checkSourceId source.raw = true := by
      simpa using h
    have hcut : source ∈ (cutOff scope expiresAtSecs).sources := hsource
    exact iff_of_false (not_allows_of_unchecked hcut hbad) (fun hallow => not_allows_of_unchecked hsource hbad hallow.1)

/-- A minted grant lets through what the requested scope would, up to the end that was computed. -/
theorem granted_iff {jwt : Jwt} (hjwt : jwt.Faithful) {secret : String} :
    Granted jwt secret (issueGrantToken jwt secret scope ttlSecs mintedAt).1 acl nowMs ↔
      Allows scope acl nowMs ∧ nowMs < endMs mintedAt ttlSecs % 2 ^ 64 := by
  rw [← toNat_endMs]
  constructor
  · rintro ⟨resp, hresp, hallow⟩
    rw [scope_of_introspect hjwt hresp] at hallow
    exact allows_cutOff_iff.mp hallow
  · rintro ⟨hallow, hend⟩
    have hfresh : nowMs / 1000 ≤ (mintedAt + ttlSecs).toNat + defaultLeeway := by
      have hle : ((mintedAt + ttlSecs) * 1000).toNat ≤ (mintedAt + ttlSecs).toNat * 1000 := by
        rw [UInt64.toNat_mul]
        exact Nat.mod_le _ _
      omega
    exact ⟨_, introspect_fresh hjwt hfresh, allows_cutOff_iff.mpr ⟨hallow, hend⟩⟩

end Expiry

/-- A minted grant is the requested scope cut off at its lifetime, exactly if the end of that lifetime fits
into 64 bits of milliseconds, or what the scope allows does not tell the two ends apart. -/
theorem cut_off_at_lifetime_iff (jwt : Jwt) (hjwt : jwt.Faithful) (secret : String) (scope : Scope)
    (ttlSecs mintedAt : UInt64) (acl : Schema.ObjectAcl) (nowMs : Nat) :
    (Granted jwt secret (issueGrantToken jwt secret scope ttlSecs mintedAt).1 acl nowMs ↔
        Allows scope acl nowMs ∧ nowMs < endMs mintedAt ttlSecs) ↔
      (endMs mintedAt ttlSecs < 2 ^ 64 ∨ ¬ Allows scope acl nowMs ∨ nowMs < endMs mintedAt ttlSecs % 2 ^ 64 ∨
        endMs mintedAt ttlSecs ≤ nowMs) := by
  rw [granted_iff hjwt]
  have hle : endMs mintedAt ttlSecs % 2 ^ 64 ≤ endMs mintedAt ttlSecs := Nat.mod_le _ _
  constructor
  · intro h
    by_contra hno
    rw [not_or, not_or, not_or, not_not] at hno
    obtain ⟨_, hallow, hafter, hbefore⟩ := hno
    exact hafter (h.mpr ⟨hallow, by omega⟩).2
  · rintro (hfits | hdenied | hbefore | hafter)
    · rw [Nat.mod_eq_of_lt hfits]
    · exact iff_of_false (fun h => hdenied h.1) (fun h => hdenied h.1)
    · exact and_congr_right (fun _ => ⟨fun h => by omega, fun _ => hbefore⟩)
    · exact iff_of_false (fun h => by omega) (fun h => by omega)

/-- A request for the projects of the mock source. -/
def projectsScope : Scope where
  agentId := "agent"
  ownerId := "alice"
  sources := [⟨"mock"⟩]
  entityKinds := [.project]
  notBeforeMs := none
  notAfterMs := none
  maxSensitivity := .personal
  expiresAtMs := none

def projectAcl : Schema.ObjectAcl where
  ownerId := "alice"
  sources := [⟨"mock", checkSourceId_mock⟩]
  entityKinds := [.project]
  occurredAtMs := 1

theorem cut_off_at_lifetime_iff_hour :
    (Granted Jwt.exposed "secret" (issueGrantToken Jwt.exposed "secret" projectsScope 3600 1700000000).1 projectAcl
        1700000000000 ↔ Allows projectsScope projectAcl 1700000000000 ∧ 1700000000000 < endMs 1700000000 3600) ↔
      (endMs 1700000000 3600 < 2 ^ 64 ∨ ¬ Allows projectsScope projectAcl 1700000000000 ∨
        1700000000000 < endMs 1700000000 3600 % 2 ^ 64 ∨ endMs 1700000000 3600 ≤ 1700000000000) :=
  cut_off_at_lifetime_iff Jwt.exposed Jwt.exposed_faithful "secret" projectsScope 3600 1700000000 projectAcl 1700000000000

/-- A grant asked for with the longest lifetime is over before it is minted. -/
theorem longest_lifetime_is_over : ¬ ∀ (jwt : Jwt), jwt.Faithful → ∀ (secret : String) (scope : Scope)
    (ttlSecs mintedAt : UInt64) (acl : Schema.ObjectAcl) (nowMs : Nat), 1000 * mintedAt.toNat ≤ nowMs →
      (Granted jwt secret (issueGrantToken jwt secret scope ttlSecs mintedAt).1 acl nowMs ↔
        Allows scope acl nowMs ∧ nowMs < endMs mintedAt ttlSecs) := by
  intro h
  have hclaim := h Jwt.exposed Jwt.exposed_faithful "secret" projectsScope 18446744073709551615 1700000000 projectAcl 1700000000000 (by decide)
  have hallow : Allows projectsScope projectAcl 1700000000000 := by
    refine (allows_iff_of_checked (by decide)).mpr ?_
    decide
  have hgranted := hclaim.mpr ⟨hallow, by decide⟩
  exact absurd ((granted_iff Jwt.exposed_faithful).mp hgranted).2 (by decide)

end Memorai.Gateway
