import Memorai.Gateway.Lifetime

/-! What introspection calls an active grant. The token decides that, and the expiry of the scope is left to the check. -/
namespace Memorai.Gateway
open Shared Wire
open Schema (evaluate_allow_iff checkSourceId)

section Times
variable {jwt : Jwt} {secret : String} {scope : Scope} {ttlSecs mintedAt : UInt64} {nowMs : Nat}

/-- Without an overflow, the token ends when its lifetime does. -/
theorem toNat_expiry_of_fits (hfits : endMs mintedAt ttlSecs < 2 ^ 64) :
    1000 * (mintedAt + ttlSecs).toNat = endMs mintedAt ttlSecs ∧ ((mintedAt + ttlSecs) * 1000).toNat = endMs mintedAt ttlSecs := by
  have hsum : (mintedAt + ttlSecs).toNat = mintedAt.toNat + ttlSecs.toNat := by
    rw [UInt64.toNat_add]
    rw [endMs] at hfits
    omega
  exact ⟨by rw [hsum, endMs], by rw [toNat_endMs, Nat.mod_eq_of_lt hfits]⟩

/-- A grant is resolved up to a leeway after its lifetime, and not later. -/
theorem introspect_ok_iff (hjwt : jwt.Faithful) (hexpires : jwt.Expires) (hfits : endMs mintedAt ttlSecs < 2 ^ 64) :
    (∃ resp, scopeIntrospect jwt secret (issueGrantToken jwt secret scope ttlSecs mintedAt).1 (nowMs / 1000) = .ok resp) ↔
      nowMs < endMs mintedAt ttlSecs + 1000 * (defaultLeeway + 1) := by
  obtain ⟨hend, -⟩ := toNat_expiry_of_fits hfits
  constructor
  · rintro ⟨resp, hresp⟩
    by_contra hlate
    have hlate : (mintedAt + ttlSecs).toNat + defaultLeeway < nowMs / 1000 := by omega
    unfold scopeIntrospect validateGrantToken at hresp
    cases hverify : jwt.verify GrantClaims.ofJson secret defaultLeeway (nowMs / 1000)
        (issueGrantToken jwt secret scope ttlSecs mintedAt).1 with
    | error e =>
      rw [hverify] at hresp
      exact absurd hresp (by simp [bind, Except.bind])
    | ok claims => exact Jwt.verify_late hexpires (GrantClaims.exp?_toJson _) hlate hverify
  · intro hnow
    exact ⟨_, introspect_fresh hjwt (by omega)⟩

theorem active_of_introspect {token : jwt.Token} {nowSecs : Nat} {resp : ScopeIntrospectResponse}
    (h : scopeIntrospect jwt secret token nowSecs = .ok resp) : resp.active = true := by
  unfold scopeIntrospect at h
  split at h
  · exact absurd h (by simp)
  · rw [← Except.ok.inj h]

theorem expiryMs_le_endMs (hfits : endMs mintedAt ttlSecs < 2 ^ 64) :
    (expiryMs scope (mintedAt + ttlSecs)).toNat ≤ endMs mintedAt ttlSecs := by
  by_contra hlater
  have hend := (lt_expiryMs_iff.mp (Nat.lt_of_not_le hlater)).2
  rw [(toNat_expiry_of_fits hfits).2] at hend
  exact absurd hend (Nat.lt_irrefl _)

/-- Nothing passes the check under a scope that has expired. -/
theorem not_allows_of_expired {expiry : UInt64} (hexpiry : scope.expiresAtMs = some expiry) (hnow : expiry.toNat ≤ nowMs)
    (acl : Schema.ObjectAcl) : ¬ Allows scope acl nowMs := by
  by_cases h : ∀ source ∈ scope.sources, checkSourceId source.raw = true
  · rw [allows_iff_of_checked h, evaluate_allow_iff]
    rintro ⟨-, hbefore, -⟩
    have hmirror : (scope.mirror h).expiresAtMs = some (expiry.toNat : Int) := by simp [Scope.mirror, hexpiry]
    have hlt := hbefore _ hmirror
    omega
  · obtain ⟨source, hsource, hbad⟩ : ∃ source ∈ scope.sources, ¬ checkSourceId source.raw = true := by simpa using h
    exact not_allows_of_unchecked hsource hbad

end Times

/-- A grant is called active as long as its token decodes, which is up to a leeway after its lifetime. It is over before
that if its scope says so: from the expiry it comes back with on, it is called active and allows nothing. -/
theorem active_while_decodable (jwt : Jwt) (hjwt : jwt.Faithful) (hexpires : jwt.Expires) (secret : String) (scope : Scope)
    (ttlSecs mintedAt : UInt64) (hfits : endMs mintedAt ttlSecs < 2 ^ 64) (nowMs : Nat) :
    ((∃ resp, scopeIntrospect jwt secret (issueGrantToken jwt secret scope ttlSecs mintedAt).1 (nowMs / 1000) = .ok resp ∧
        resp.active = true) ↔ nowMs < endMs mintedAt ttlSecs + 1000 * (defaultLeeway + 1)) ∧
      ∀ resp, scopeIntrospect jwt secret (issueGrantToken jwt secret scope ttlSecs mintedAt).1 (nowMs / 1000) = .ok resp →
        ∃ expiry, resp.scope.expiresAtMs = some expiry ∧ expiry.toNat ≤ endMs mintedAt ttlSecs ∧
          (nowMs < expiry.toNat ∨ ∀ acl, ¬ Allows resp.scope acl nowMs) := by
  constructor
  · rw [← introspect_ok_iff hjwt hexpires hfits]
    constructor
    · rintro ⟨resp, hresp, -⟩
      exact ⟨resp, hresp⟩
    · rintro ⟨resp, hresp⟩
      exact ⟨resp, hresp, active_of_introspect hresp⟩
  · intro resp hresp
    have hexpiry : resp.scope.expiresAtMs = some (expiryMs scope (mintedAt + ttlSecs)) := by
      rw [scope_of_introspect hjwt hresp]
      rfl
    refine ⟨_, hexpiry, expiryMs_le_endMs hfits, ?_⟩
    rcases Nat.lt_or_ge nowMs (expiryMs scope (mintedAt + ttlSecs)).toNat with hbefore | hafter
    · exact .inl hbefore
    · exact .inr (not_allows_of_expired hexpiry hafter)

/-- A request for the projects of the mock source that is over a second after it is made. -/
def secondScope : Scope := { projectsScope with expiresAtMs := some 1700000001000 }

theorem active_while_decodable_second :
    endMs 1700000000 3600 < 2 ^ 64 ∧
      ∃ resp, scopeIntrospect Jwt.exposed "secret" (issueGrantToken Jwt.exposed "secret" secondScope 3600 1700000000).1
        (1700000000500 / 1000) = .ok resp ∧ resp.active = true := by
  have hfits : endMs 1700000000 3600 < 2 ^ 64 := by decide
  refine ⟨hfits, ?_⟩
  exact (active_while_decodable Jwt.exposed Jwt.exposed_faithful Jwt.exposed_expires "secret" secondScope 3600 1700000000 hfits
    1700000000500).1.mpr (by decide)

/-- Two seconds after the request its scope has expired, and it is called active. -/
theorem active_after_a_second : ¬ ∀ (jwt : Jwt), jwt.Faithful → jwt.Expires → ∀ (secret : String) (scope : Scope)
    (ttlSecs mintedAt : UInt64), endMs mintedAt ttlSecs < 2 ^ 64 → ∀ nowMs, 1000 * mintedAt.toNat ≤ nowMs → ∀ resp,
      scopeIntrospect jwt secret (issueGrantToken jwt secret scope ttlSecs mintedAt).1 (nowMs / 1000) = .ok resp →
        resp.active = true → ∀ expiry ∈ resp.scope.expiresAtMs, nowMs < expiry.toNat := by
  intro h
  have hresp : scopeIntrospect Jwt.exposed "secret" (issueGrantToken Jwt.exposed "secret" secondScope 3600 1700000000).1
      (1700000002000 / 1000) = .ok { active := true, scope := cutOff secondScope (1700000000 + 3600) } :=
    introspect_fresh Jwt.exposed_faithful (by decide)
  exact absurd (h Jwt.exposed Jwt.exposed_faithful Jwt.exposed_expires "secret" secondScope 3600 1700000000 (by decide)
    1700000002000 (by decide) _ hresp rfl 1700000001000 (by decide)) (by decide)

end Memorai.Gateway
