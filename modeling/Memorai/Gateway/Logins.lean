import Memorai.Gateway.Accounts
import Memorai.Gateway.Sealing

/-! Logging in, by a token of an account or by coming back from a provider. Either way a session is of an owner whose
account the enclave has seen. -/
namespace Memorai.Gateway
open Shared Wire Results
open Enclave (AppState Endpoints deriveOwnerId)

/-- A gateway with this enclave behind it. -/
def deployed (jwt : Jwt) (config : Config) (enclave : AppState) (jsonText : Json → String) : Deployment where
  jwt := jwt
  secret := config.sessionJwtSecret
  enclave := enclave
  jsonText := jsonText

section Routes
variable (jwt : Jwt) (config : Config) (enclave : AppState) (jsonText : Json → String) (endpoints : Endpoints)

structure SessionResponse where
  sessionToken : jwt.Token
  identity : OwnerIdentity
  attestation : String

/-- `POST /identity/verify`, handed through to the enclave. -/
def verifyIdentity (req : IdentityVerifyRequest) : Except GatewayError IdentityVerifyResponse :=
  postJson (deployed jwt config enclave jsonText) (Enclave.verify enclave endpoints req)

/-- `POST /auth/session` -/
def session (req : IdentityVerifyRequest) (nowSecs : UInt64) : Except GatewayError (SessionResponse jwt) := do
  let verified ← verifyIdentity jwt config enclave jsonText endpoints req
  return {
    sessionToken :=
      issueSessionToken jwt config.sessionJwtSecret verified.identity.ownerId config.sessionTtlSecs nowSecs
    identity := verified.identity
    attestation := verified.attestation }

/-- `GET /auth/callback` from the request to the enclave on. -/
def completeCallback (store : InMemoryTokenStore) (provider : Provider) (request : OAuthExchangeRequest) (nowMs nowSecs : UInt64) :
    Except GatewayError (AuthCallbackResponse jwt) × InMemoryTokenStore :=
  match postJson (deployed jwt config enclave jsonText)
      (Enclave.exchange enclave (Enclave.client enclave.config endpoints) request nowMs) with
  | .error e => (.error e, store)
  | .ok exchanged => finishCallback jwt enclave.base64 config store provider exchanged nowSecs

end Routes

/-- A client of the enclave has vouched for an account that the owner id is made from. -/
def Vouched (config : Enclave.Config) (ownerId : String) : Prop :=
  ∃ endpoints provider token signal, (Enclave.client config endpoints provider).verify token = .ok signal ∧
    ∃ hsignal, ownerId = deriveOwnerId [signal] hsignal

section Laws
variable {jwt : Jwt} {config : Config} {enclave : AppState} {jsonText : Json → String} {endpoints : Endpoints}

theorem vouched_of_verify {req : IdentityVerifyRequest} {login : IdentityVerifyResponse}
    (h : Enclave.verify enclave endpoints req = .ok login) : Vouched enclave.config login.identity.ownerId := by
  unfold Enclave.verify at h
  obtain ⟨google, hgoogle, h⟩ := bind_ok h
  obtain ⟨gitHub, hgitHub, h⟩ := bind_ok h
  obtain ⟨hsignals, rfl⟩ := Enclave.answerLogin_ok h
  -- The owner id is that of the account of Google, if there is one.
  cases htoken : req.googleToken with
  | some token =>
    rw [htoken] at hgoogle
    obtain ⟨signal, hsignal, rfl⟩ := map_ok hgoogle
    exact ⟨endpoints, .google, token, signal, hsignal, List.cons_ne_nil _ _, rfl⟩
  | none =>
    rw [htoken] at hgoogle
    obtain rfl := Except.ok.inj hgoogle
    cases htoken' : req.githubToken with
    | some token =>
      rw [htoken'] at hgitHub
      obtain ⟨signal, hsignal, rfl⟩ := map_ok hgitHub
      exact ⟨endpoints, .gitHub, token, signal, hsignal, List.cons_ne_nil _ _, rfl⟩
    | none =>
      rw [htoken'] at hgitHub
      obtain rfl := Except.ok.inj hgitHub
      exact absurd rfl hsignals

theorem vouched_of_exchange {request : OAuthExchangeRequest} {nowMs : UInt64} {response : OAuthExchangeResponse}
    (h : Enclave.exchange enclave (Enclave.client enclave.config endpoints) request nowMs = .ok response) :
    Vouched enclave.config response.identity.ownerId := by
  obtain ⟨provider, issued, signal, _, _, hsignal, rfl⟩ := Enclave.exchange_ok h
  exact ⟨endpoints, provider, issued.accessToken, signal, hsignal, List.cons_ne_nil _ _, rfl⟩

theorem session_ok {req : IdentityVerifyRequest} {nowSecs : UInt64} {response : SessionResponse jwt}
    (h : session jwt config enclave jsonText endpoints req nowSecs = .ok response) :
    response.sessionToken =
        issueSessionToken jwt config.sessionJwtSecret response.identity.ownerId config.sessionTtlSecs nowSecs ∧
      Vouched enclave.config response.identity.ownerId := by
  obtain ⟨verified, hverified, h⟩ := bind_ok h
  obtain rfl := Except.ok.inj h
  exact ⟨rfl, vouched_of_verify (mapError_ok hverified)⟩

/-- A callback that is answered hands out a session of the account it was exchanged for, and stores at most a row of it. -/
theorem completeCallback_ok {store store' : InMemoryTokenStore} {provider : Provider} {request : OAuthExchangeRequest}
    {nowMs nowSecs : UInt64} {response : AuthCallbackResponse jwt}
    (h : completeCallback jwt config enclave jsonText endpoints store provider request nowMs nowSecs = (.ok response, store')) :
    response.sessionToken =
        issueSessionToken jwt config.sessionJwtSecret response.identity.ownerId config.sessionTtlSecs nowSecs ∧
      Vouched enclave.config response.identity.ownerId ∧
      ∀ ownerId name row, store'.get ownerId name = some row →
        ownerId = response.identity.ownerId ∨ store.get ownerId name = some row := by
  unfold completeCallback at h
  split at h
  · exact absurd (Prod.mk.inj h).1 (by simp)
  · rename_i exchanged hexchanged
    have hvouched := vouched_of_exchange (mapError_ok hexchanged)
    have hstore : store' = (finishCallback jwt enclave.base64 config store provider exchanged nowSecs).2 := by rw [h]
    unfold finishCallback at h
    split at h
    · exact absurd (Prod.mk.inj h).1 (by simp)
    · obtain rfl := Except.ok.inj (Prod.mk.inj h).1
      refine ⟨rfl, hvouched, fun ownerId name row hrow => ?_⟩
      rw [hstore] at hrow
      obtain ⟨hsealed, rfl, _⟩ | hold := get_finishCallback hrow
      · exact .inl (ownerId_of_sealedToken hsealed)
      · exact .inr hold

/-- A callback that fails stores nothing. -/
theorem completeCallback_error {store store' : InMemoryTokenStore} {provider : Provider} {request : OAuthExchangeRequest}
    {nowMs nowSecs : UInt64} {e : GatewayError}
    (h : completeCallback jwt config enclave jsonText endpoints store provider request nowMs nowSecs = (.error e, store')) :
    store' = store := by
  unfold completeCallback at h
  split at h
  · exact (Prod.mk.inj h).2.symm
  · unfold finishCallback at h
    split at h
    · exact (Prod.mk.inj h).2.symm
    · exact absurd (Prod.mk.inj h).1 (by simp)

end Laws
end Memorai.Gateway
