import Memorai.Shared.Scopes
import Memorai.Text.Strings
import Memorai.Wire.SignedTokens

/-! Grants. The scope travels inside a signed token, minted for the owner of the memory and handed back to
whoever introspects it. -/
namespace Memorai.Gateway
open Shared Text Wire

inductive GatewayError where
  | badRequest (message : String)
  | unauthorized (message : String)
  | enclaveUnreachable (message : String)
  | internal (message : String)
  deriving DecidableEq, Repr

/-- The leeway of a default validation, in seconds. -/
def defaultLeeway : Nat := 60

structure SessionClaims where
  typ : String := ""
  ownerId : String
  exp : UInt64

namespace SessionClaims

def fields (claims : SessionClaims) : Fields :=
  [("typ", .str claims.typ), ("owner_id", .str claims.ownerId), ("exp", .u64 claims.exp)]

def toJson (claims : SessionClaims) : Json := .obj claims.fields

def ofJson (j : Json) : Option SessionClaims := do
  let fields ← j.record ["typ", "owner_id", "exp"]
  return {
    typ := ← fields.withDefault "typ" Json.string? ""
    ownerId := ← fields.required "owner_id" Json.string?
    exp := ← fields.required "exp" Json.u64? }

theorem ofJson_toJson (claims : SessionClaims) : ofJson claims.toJson = some claims := by
  have hrecord : claims.toJson.record ["typ", "owner_id", "exp"] = some claims.fields := record_obj rfl (by decide)
  rw [ofJson, hrecord]
  simp [fields, Fields.required, Fields.withDefault, Json.string?, List.lookup_cons]

theorem exp?_toJson (claims : SessionClaims) : claims.toJson.exp? = some claims.exp := by
  simp [toJson, fields, Json.exp?, List.lookup_cons]

end SessionClaims

structure GrantClaims where
  typ : String := ""
  scope : Scope
  exp : UInt64

namespace GrantClaims

def fields (claims : GrantClaims) : Fields :=
  [("typ", .str claims.typ), ("scope", claims.scope.toJson), ("exp", .u64 claims.exp)]

def toJson (claims : GrantClaims) : Json := .obj claims.fields

def ofJson (j : Json) : Option GrantClaims := do
  let fields ← j.record ["typ", "scope", "exp"]
  return {
    typ := ← fields.withDefault "typ" Json.string? ""
    scope := ← fields.required "scope" Scope.ofJson
    exp := ← fields.required "exp" Json.u64? }

theorem ofJson_toJson (claims : GrantClaims) : ofJson claims.toJson = some claims := by
  have hrecord : claims.toJson.record ["typ", "scope", "exp"] = some claims.fields := record_obj rfl (by decide)
  rw [ofJson, hrecord]
  simp [fields, Fields.required, Fields.withDefault, Json.string?, List.lookup_cons, Scope.ofJson_toJson]

theorem exp?_toJson (claims : GrantClaims) : claims.toJson.exp? = some claims.exp := by
  simp [toJson, fields, Json.exp?, List.lookup_cons]

end GrantClaims

structure ScopeGrantRequest where
  scope : Scope
  ttlSecs : UInt64

def ScopeGrantRequest.ofJson (j : Json) : Option ScopeGrantRequest := do
  let fields ← j.record ["scope", "ttl_secs"]
  return {
    scope := ← fields.required "scope" Scope.ofJson
    ttlSecs := ← fields.required "ttl_secs" Json.u64? }

structure ScopeIntrospectResponse where
  active : Bool
  scope : Scope

section Tokens
variable (jwt : Jwt) (secret : String)

structure ScopeGrantResponse where
  grantToken : jwt.Token
  expiresAtMs : UInt64

def issueSessionToken (ownerId : String) (ttlSecs nowSecs : UInt64) : jwt.Token :=
  jwt.encode secret (SessionClaims.toJson { typ := "session", ownerId := ownerId, exp := nowSecs + ttlSecs })

def validateSessionToken (token : jwt.Token) (nowSecs : Nat) : Except String SessionClaims := do
  let claims ← jwt.verify SessionClaims.ofJson secret defaultLeeway nowSecs token
  if claims.typ ≠ "session" then throw "token is not an owner session token"
  return claims

/-- The owner session of an `Authorization: Bearer` header. -/
def requireSession (bearer : Option jwt.Token) (nowSecs : Nat) : Except GatewayError SessionClaims :=
  match bearer with
  | none => .error (.unauthorized "missing Authorization: Bearer <session token> header")
  | some raw =>
    match validateSessionToken jwt secret raw nowSecs with
    | .error e => .error (.unauthorized ("invalid session: " ++ e))
    | .ok claims => .ok claims

/-- When a grant ends, in milliseconds: with its token, or before if the scope says so. -/
def expiryMs (scope : Scope) (expiresAtSecs : UInt64) : UInt64 :=
  match scope.expiresAtMs with
  | some existing => min existing (expiresAtSecs * 1000)
  | none => expiresAtSecs * 1000

def cutOff (scope : Scope) (expiresAtSecs : UInt64) : Scope :=
  { scope with expiresAtMs := some (expiryMs scope expiresAtSecs) }

/-- The claims of a grant that ends `ttlSecs` from now. Sums and products of 64 bits wrap around. -/
def grantClaims (scope : Scope) (ttlSecs nowSecs : UInt64) : GrantClaims where
  typ := "grant"
  scope := cutOff scope (nowSecs + ttlSecs)
  exp := nowSecs + ttlSecs

def issueGrantToken (scope : Scope) (ttlSecs nowSecs : UInt64) : jwt.Token × UInt64 :=
  (jwt.encode secret (grantClaims scope ttlSecs nowSecs).toJson, expiryMs scope (nowSecs + ttlSecs))

def validateGrantToken (token : jwt.Token) (nowSecs : Nat) : Except String Scope := do
  let claims ← jwt.verify GrantClaims.ofJson secret defaultLeeway nowSecs token
  if claims.typ ≠ "grant" then throw "token is not an agent grant token"
  return claims.scope

/-- Mints a grant for a named agent. Only the owner can, and over their own memory only. -/
def scopeGrant (bearer : Option jwt.Token) (req : ScopeGrantRequest) (checkedAt : Nat) (mintedAt : UInt64) :
    Except GatewayError (ScopeGrantResponse jwt) :=
  match requireSession jwt secret bearer checkedAt with
  | .error e => .error e
  | .ok session =>
    if req.scope.ownerId ≠ session.ownerId then
      .error (.unauthorized "cannot grant a scope over another owner's memory")
    else if isBlank req.scope.agentId then .error (.badRequest "scope.agent_id is required")
    else
      let (grantToken, expiresAtMs) := issueGrantToken jwt secret req.scope req.ttlSecs mintedAt
      .ok { grantToken := grantToken, expiresAtMs := expiresAtMs }

/-- A request is turned down because of its body, before the route runs, or by the route. -/
inductive Rejection where
  | body
  | route (error : GatewayError)
  deriving DecidableEq, Repr

/-- `POST /memory/scope/grant` -/
def postScopeGrant (bearer : Option jwt.Token) (body : Json) (checkedAt : Nat) (mintedAt : UInt64) :
    Except Rejection (ScopeGrantResponse jwt) :=
  match ScopeGrantRequest.ofJson body with
  | none => .error .body
  | some req => (scopeGrant jwt secret bearer req checkedAt mintedAt).mapError .route

/-- Resolves a grant back to the scope inside it. -/
def scopeIntrospect (token : jwt.Token) (nowSecs : Nat) : Except GatewayError ScopeIntrospectResponse :=
  match validateGrantToken jwt secret token nowSecs with
  | .error e => .error (.unauthorized ("invalid grant: " ++ e))
  | .ok scope => .ok { active := true, scope := scope }

end Tokens

section Laws
variable {jwt : Jwt} {secret : String} {scope : Scope} {ttlSecs mintedAt : UInt64} {nowSecs : Nat}

theorem requireSession_fresh (hjwt : jwt.Faithful) {ownerId : String}
    (hnow : nowSecs ≤ (mintedAt + ttlSecs).toNat + defaultLeeway) :
    requireSession jwt secret (some (issueSessionToken jwt secret ownerId ttlSecs mintedAt)) nowSecs =
      .ok { typ := "session", ownerId := ownerId, exp := mintedAt + ttlSecs } := by
  have hverify : jwt.verify SessionClaims.ofJson secret defaultLeeway nowSecs
      (issueSessionToken jwt secret ownerId ttlSecs mintedAt) =
        .ok { typ := "session", ownerId := ownerId, exp := mintedAt + ttlSecs } :=
    Jwt.verify_fresh hjwt (SessionClaims.ofJson_toJson _) (SessionClaims.exp?_toJson _) hnow
  rw [requireSession, validateSessionToken, hverify]
  rfl

/-- What a minted grant is resolved to is the scope that was minted. -/
theorem scope_of_introspect (hjwt : jwt.Faithful) {resp : ScopeIntrospectResponse}
    (h : scopeIntrospect jwt secret (issueGrantToken jwt secret scope ttlSecs mintedAt).1 nowSecs = .ok resp) :
    resp.scope = cutOff scope (mintedAt + ttlSecs) := by
  unfold scopeIntrospect validateGrantToken at h
  cases hverify : jwt.verify GrantClaims.ofJson secret defaultLeeway nowSecs
      (issueGrantToken jwt secret scope ttlSecs mintedAt).1 with
  | error e =>
    rw [hverify] at h
    exact absurd h (by simp [bind, Except.bind])
  | ok claims =>
    obtain rfl := Jwt.verify_encode hjwt (GrantClaims.ofJson_toJson _) hverify
    rw [hverify] at h
    simp only [grantClaims, bind, Except.bind, ne_eq, not_true_eq_false, if_false, pure, Except.pure, Except.ok.injEq] at h
    rw [← h]

/-- It is resolved as long as it is not too old. -/
theorem introspect_fresh (hjwt : jwt.Faithful) (hnow : nowSecs ≤ (mintedAt + ttlSecs).toNat + defaultLeeway) :
    scopeIntrospect jwt secret (issueGrantToken jwt secret scope ttlSecs mintedAt).1 nowSecs =
      .ok { active := true, scope := cutOff scope (mintedAt + ttlSecs) } := by
  have hverify : jwt.verify GrantClaims.ofJson secret defaultLeeway nowSecs
      (issueGrantToken jwt secret scope ttlSecs mintedAt).1 = .ok (grantClaims scope ttlSecs mintedAt) :=
    Jwt.verify_fresh hjwt (GrantClaims.ofJson_toJson _) (GrantClaims.exp?_toJson _) hnow
  rw [scopeIntrospect, validateGrantToken, hverify]
  rfl

theorem token_of_scopeGrant {bearer : Option jwt.Token} {req : ScopeGrantRequest} {checkedAt : Nat}
    {granted : ScopeGrantResponse jwt} (h : scopeGrant jwt secret bearer req checkedAt mintedAt = .ok granted) :
    granted.grantToken = (issueGrantToken jwt secret req.scope req.ttlSecs mintedAt).1 := by
  unfold scopeGrant at h
  split at h
  · exact absurd h (by simp)
  · split at h
    · exact absurd h (by simp)
    · split at h
      · exact absurd h (by simp)
      · rw [← Except.ok.inj h]
        rfl

theorem token_of_postScopeGrant {bearer : Option jwt.Token} {body : Json} {checkedAt : Nat}
    {granted : ScopeGrantResponse jwt} (h : postScopeGrant jwt secret bearer body checkedAt mintedAt = .ok granted) :
    ∃ req, ScopeGrantRequest.ofJson body = some req ∧
      granted.grantToken = (issueGrantToken jwt secret req.scope req.ttlSecs mintedAt).1 := by
  unfold postScopeGrant at h
  cases hreq : ScopeGrantRequest.ofJson body with
  | none =>
    rw [hreq] at h
    exact absurd h (by simp)
  | some req =>
    rw [hreq] at h
    dsimp only at h
    refine ⟨req, rfl, ?_⟩
    cases hgrant : scopeGrant jwt secret bearer req checkedAt mintedAt with
    | error e =>
      rw [hgrant] at h
      exact absurd h (by simp [Except.mapError])
    | ok granted' =>
      rw [hgrant] at h
      obtain rfl := Except.ok.inj h
      exact token_of_scopeGrant hgrant

end Laws
end Memorai.Gateway
