import Memorai.Gateway.Grants
import Memorai.Shared.Mirror

/-! What the orchestrator makes of a grant. The gateway takes any string for a source id, the orchestrator does not. -/
namespace Memorai.Gateway
open Shared Text Wire
open Schema (checkSourceId)

/-- The scope that was minted validates, and comes out field for field. -/
def Usable (minted : Scope) (resp : ScopeIntrospectResponse) : Prop :=
  ∃ validated, Schema.Scope.modelValidate resp.scope.toJson = some validated ∧ minted.Mirrors validated

theorem usable_iff {minted : Scope} {resp : ScopeIntrospectResponse} (h : resp.scope = minted) :
    Usable minted resp ↔ ∀ source ∈ minted.sources, checkSourceId source.raw = true := by
  rw [Usable, h]
  constructor
  · rintro ⟨validated, hvalid, _⟩ source hsource
    by_contra hbad
    rw [Scope.modelValidate_eq_none hsource hbad] at hvalid
    exact absurd hvalid (by simp)
  · intro hchecked
    exact ⟨_, Scope.modelValidate_toJson hchecked, Scope.mirrors_mirror hchecked⟩

/-- Whatever body a grant is minted for, the scope it is resolved to is usable, exactly if each of the source
ids in the body passes the check of the orchestrator. -/
theorem minted_grant_usable_iff (jwt : Jwt) (hjwt : jwt.Faithful) (secret : String) (bearer : Option jwt.Token)
    (body : Json) (checkedAt : Nat) (mintedAt : UInt64) (granted : ScopeGrantResponse jwt)
    (hgrant : postScopeGrant jwt secret bearer body checkedAt mintedAt = .ok granted) (nowSecs : Nat)
    (resp : ScopeIntrospectResponse) (hresp : scopeIntrospect jwt secret granted.grantToken nowSecs = .ok resp) :
    ∃ req, ScopeGrantRequest.ofJson body = some req ∧ (Usable (cutOff req.scope (mintedAt + req.ttlSecs)) resp ↔
      ∀ source ∈ req.scope.sources, checkSourceId source.raw = true) := by
  obtain ⟨req, hreq, htoken⟩ := token_of_postScopeGrant hgrant
  rw [htoken] at hresp
  exact ⟨req, hreq, usable_iff (scope_of_introspect hjwt hresp)⟩

/-- The body of a request for one source. -/
def bodyFor (source : String) : Json :=
  .obj [("scope", .obj [("agent_id", .str "agent"), ("owner_id", .str "alice"), ("sources", .arr [.str source]),
      ("entity_kinds", .arr [.str "project"]), ("max_sensitivity", .str "personal")]),
    ("ttl_secs", .int 3600)]

def requestFor (source : String) : ScopeGrantRequest where
  scope :=
    { agentId := "agent"
      ownerId := "alice"
      sources := [⟨source⟩]
      entityKinds := [.project]
      notBeforeMs := none
      notAfterMs := none
      maxSensitivity := .personal
      expiresAtMs := none }
  ttlSecs := 3600

/-- Alice is logged in. -/
def aliceSession : Jwt.exposed.Token := issueSessionToken Jwt.exposed "secret" "alice" 3600 100

def grantedFor (source : String) : ScopeGrantResponse Jwt.exposed where
  grantToken := (issueGrantToken Jwt.exposed "secret" (requestFor source).scope 3600 100).1
  expiresAtMs := (issueGrantToken Jwt.exposed "secret" (requestFor source).scope 3600 100).2

section For
variable (source : String)

theorem ofJson_bodyFor : ScopeGrantRequest.ofJson (bodyFor source) = some (requestFor source) := rfl

theorem postScopeGrant_bodyFor :
    postScopeGrant Jwt.exposed "secret" (some aliceSession) (bodyFor source) 100 100 = .ok (grantedFor source) := by
  have hsession : requireSession Jwt.exposed "secret" (some aliceSession) 100 = .ok _ :=
    requireSession_fresh Jwt.exposed_faithful (by decide)
  have howner : ¬ (requestFor source).scope.ownerId ≠ "alice" := not_not.mpr rfl
  have hagent : ¬ isBlank (requestFor source).scope.agentId = true := by
    rw [show (requestFor source).scope.agentId = "agent" from rfl]
    decide
  rw [postScopeGrant, ofJson_bodyFor]
  dsimp only
  rw [scopeGrant, hsession]
  dsimp only
  rw [if_neg howner, if_neg hagent]
  rfl

theorem scopeIntrospect_grantedFor : scopeIntrospect Jwt.exposed "secret" (grantedFor source).grantToken 100 =
    .ok { active := true, scope := cutOff (requestFor source).scope (100 + 3600) } :=
  introspect_fresh Jwt.exposed_faithful (by decide)

end For

theorem minted_grant_usable_iff_mock : ∃ req, ScopeGrantRequest.ofJson (bodyFor "mock") = some req ∧
    (Usable (cutOff req.scope (100 + req.ttlSecs))
        { active := true, scope := cutOff (requestFor "mock").scope (100 + 3600) } ↔
      ∀ source ∈ req.scope.sources, checkSourceId source.raw = true) :=
  minted_grant_usable_iff Jwt.exposed Jwt.exposed_faithful "secret" (some aliceSession) (bodyFor "mock") 100 100
    (grantedFor "mock") (postScopeGrant_bodyFor "mock") 100 _ (scopeIntrospect_grantedFor "mock")

/-- A grant for a source id with capital letters is minted and resolved, and does not validate. -/
theorem capital_letters_unusable : ¬ ∀ (jwt : Jwt), jwt.Faithful → ∀ (secret : String) (bearer : Option jwt.Token)
    (body : Json) (checkedAt : Nat) (mintedAt : UInt64) (granted : ScopeGrantResponse jwt),
      postScopeGrant jwt secret bearer body checkedAt mintedAt = .ok granted → ∀ (nowSecs : Nat) (resp : ScopeIntrospectResponse),
        scopeIntrospect jwt secret granted.grantToken nowSecs = .ok resp →
          ∃ req, ScopeGrantRequest.ofJson body = some req ∧ Usable (cutOff req.scope (mintedAt + req.ttlSecs)) resp := by
  intro h
  obtain ⟨req, hreq, husable⟩ := h Jwt.exposed Jwt.exposed_faithful "secret" (some aliceSession) (bodyFor "GitHub") 100
    100 _ (postScopeGrant_bodyFor "GitHub") 100 _ (scopeIntrospect_grantedFor "GitHub")
  obtain rfl : requestFor "GitHub" = req := Option.some.inj hreq
  have hchecked := (usable_iff rfl).mp husable ⟨"GitHub"⟩ (List.mem_singleton_self _)
  exact absurd hchecked (by decide)

end Memorai.Gateway
