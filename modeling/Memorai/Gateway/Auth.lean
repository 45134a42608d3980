import Memorai.Gateway.PendingAuth
import Memorai.Shared.OAuth
import Memorai.Text.Bytes

/-! The redirect flow up to the enclave: consent is asked for, and what comes back is redeemed for a request. -/
namespace Memorai.Gateway
open Shared Text Wire

structure Config where
  sessionJwtSecret : String
  sessionTtlSecs : UInt64
  oauthStateSecret : String
  oauthStateTtlSecs : UInt64
  googleClientId : String
  googleRedirectUri : String
  githubClientId : String
  githubRedirectUri : String

namespace Config

def mock : Config where
  sessionJwtSecret := "test-secret"
  sessionTtlSecs := 3600
  oauthStateSecret := "test-state-secret"
  oauthStateTtlSecs := 600
  googleClientId := "mock-google-client-id"
  googleRedirectUri := "http://127.0.0.1:8080/auth/callback"
  githubClientId := "mock-github-client-id"
  githubRedirectUri := "http://127.0.0.1:8080/auth/callback"

def clientId (config : Config) : Provider → String
  | .google => config.googleClientId
  | .gitHub => config.githubClientId

def redirectUri (config : Config) : Provider → String
  | .google => config.googleRedirectUri
  | .gitHub => config.githubRedirectUri

end Config

/-- A byte that a URL can hold as it is. -/
def isUnreserved (b : UInt8) : Bool :=
  let n := b.toNat
  (65 ≤ n && n ≤ 90) || (97 ≤ n && n ≤ 122) || (48 ≤ n && n ≤ 57) || n = 45 || n = 95 || n = 46 || n = 126

def percentEncode (input : String) : String :=
  String.ofList ((utf8 input).flatMap (fun b =>
    if isUnreserved b then [Char.ofNat b.toNat] else '%' :: (hexDigits b).map Char.toUpper))

def urlencode (params : List (String × String)) : String :=
  join "&" (params.map (fun (k, v) => percentEncode k ++ "=" ++ percentEncode v))

section Routes
variable (jwt : Jwt) (s256 : String → String) (config : Config)

structure AuthorizeResponse where
  provider : String
  authorizeUrl : String
  state : jwt.Token
  scopes : List String
  expiresAtMs : UInt64

structure AuthCallbackQuery where
  code : String
  state : jwt.Token

/-- `spell` is a token as it stands in a URL. -/
def authorizeUrl (spell : jwt.Token → String) (provider : Provider) (issued : IssuedState jwt) : String :=
  let params := [
    ("client_id", config.clientId provider),
    ("redirect_uri", config.redirectUri provider),
    ("response_type", "code"),
    ("scope", provider.scopeParam),
    ("state", spell issued.stateToken),
    ("code_challenge", issued.codeChallenge),
    ("code_challenge_method", "S256")]
  let offline := if provider = .google then [("access_type", "offline"), ("prompt", "consent")] else []
  provider.authorizeEndpoint ++ "?" ++ urlencode (params ++ offline)

/-- `GET /auth/authorize`. The clock is read for the token, for the entry and by the store. -/
def authorize (spell : jwt.Token → String) (store : PendingAuthStore) (provider : String) (draw : Draw)
    (issuedAt datedAt insertedAt : UInt64) : Except GatewayError (AuthorizeResponse jwt) × PendingAuthStore :=
  match Provider.parse provider with
  | none => (.error (.badRequest ("unknown provider '" ++ provider ++ "'; expected google or github")), store)
  | some provider =>
    if config.clientId provider = "" then
      (.error (.badRequest (provider.asStr.toUpper ++ "_CLIENT_ID is not configured")), store)
    else
      let issued := issueState jwt config.oauthStateSecret s256 provider.asStr config.oauthStateTtlSecs issuedAt draw
      let expiresAtSecs := datedAt + config.oauthStateTtlSecs
      let pending := {
        provider := provider.asStr
        codeVerifier := issued.codeVerifier
        redirectUri := config.redirectUri provider
        expiresAtSecs := expiresAtSecs }
      let response := {
        provider := provider.asStr
        authorizeUrl := authorizeUrl jwt config spell provider issued
        state := issued.stateToken
        scopes := provider.scopes
        expiresAtMs := expiresAtSecs * 1000 }
      (.ok response, store.insert issued.stateId insertedAt pending)

/-- What the enclave is asked for, with the entry that was taken. -/
def redeem (claims : OAuthStateClaims) (pending : PendingAuth) (code : String) :
    Except GatewayError (Provider × OAuthExchangeRequest) :=
  if pending.provider ≠ claims.provider then .error (.unauthorized "oauth state provider mismatch")
  else
    match Provider.parse claims.provider with
    | none => .error (.unauthorized "oauth state names no known provider")
    | some provider => .ok (provider, {
        provider := provider.asStr
        code := code
        redirectUri := pending.redirectUri
        codeVerifier := pending.codeVerifier })

/-- `GET /auth/callback` up to the enclave. The state is consumed before the code goes anywhere. -/
def callbackRequest (store : PendingAuthStore) (query : AuthCallbackQuery jwt) (presentedAt takenAt : UInt64) :
    Except GatewayError (Provider × OAuthExchangeRequest) × PendingAuthStore :=
  match validateState jwt config.oauthStateSecret query.state presentedAt.toNat with
  | .error e => (.error e, store)
  | .ok claims =>
    match store.take claims.stateId takenAt with
    | (none, store) => (.error (.unauthorized "oauth state is unknown, expired, or has already been used"), store)
    | (some pending, store) => (redeem claims pending query.code, store)

end Routes

/-- The enclave is asked at the provider that the state names. -/
theorem parse_of_redeem {claims : OAuthStateClaims} {pending : PendingAuth} {code : String} {provider : Provider}
    {request : OAuthExchangeRequest} (h : redeem claims pending code = .ok (provider, request)) :
    Provider.parse request.provider = some provider := by
  unfold redeem at h
  split at h
  · exact absurd h (by simp)
  · split at h
    · exact absurd h (by simp)
    · obtain ⟨hprovider, rfl⟩ := Prod.mk.inj (Except.ok.inj h)
      rw [← hprovider]
      exact Provider.parse_asStr _

end Memorai.Gateway
