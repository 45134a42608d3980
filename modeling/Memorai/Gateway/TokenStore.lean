import Memorai.Gateway.Auth
import Memorai.Wire.Base64

/-! Sealed refresh tokens by owner and provider, and the redirect flow from the enclave's answer on. -/
namespace Memorai.Gateway
open Shared Wire

structure SealedOAuthToken where
  ownerId : String
  provider : String
  sealedRefreshToken : List UInt8
  keyId : String
  scheme : String
  scopes : List String
  grantedAtMs : Int64
  expiresAtMs : Option Int64

structure InMemoryTokenStore where
  rows : String × String → Option SealedOAuthToken

namespace InMemoryTokenStore

def empty : InMemoryTokenStore := ⟨fun _ => none⟩

/-- A new consent replaces the row of the one before. -/
def upsert (store : InMemoryTokenStore) (record : SealedOAuthToken) : InMemoryTokenStore :=
  ⟨Function.update store.rows (record.ownerId, record.provider) (some record)⟩

def get (store : InMemoryTokenStore) (ownerId provider : String) : Option SealedOAuthToken := store.rows (ownerId, provider)

theorem get_upsert_self (store : InMemoryTokenStore) (record : SealedOAuthToken) :
    (store.upsert record).get record.ownerId record.provider = some record := Function.update_self ..

theorem get_upsert_of_ne (store : InMemoryTokenStore) {record : SealedOAuthToken} {ownerId provider : String}
    (h : (ownerId, provider) ≠ (record.ownerId, record.provider)) :
    (store.upsert record).get ownerId provider = store.get ownerId provider := Function.update_of_ne h ..

theorem eq_of_get_upsert (store : InMemoryTokenStore) {record row : SealedOAuthToken} {ownerId provider : String}
    (h : (store.upsert record).get ownerId provider = some row) :
    row = record ∧ record.ownerId = ownerId ∧ record.provider = provider ∨ store.get ownerId provider = some row := by
  by_cases hkey : (ownerId, provider) = (record.ownerId, record.provider)
  · obtain ⟨rfl, rfl⟩ := Prod.mk.inj hkey
    rw [get_upsert_self] at h
    exact .inl ⟨(Option.some.inj h).symm, rfl, rfl⟩
  · rw [get_upsert_of_ne store hkey] at h
    exact .inr h

end InMemoryTokenStore

section Callback
variable (jwt : Jwt) (base64 : Base64) (config : Config)

structure AuthCallbackResponse where
  provider : String
  sessionToken : jwt.Token
  identity : OwnerIdentity
  scopes : List String
  grantedAtMs : UInt64
  sealedKeyId : Option String
  sealScheme : Option String
  sealedTokenBytes : Nat
  attestation : String

/-- The row of an exchange, if it came with a refresh token. -/
def sealedToken (provider : Provider) (exchanged : OAuthExchangeResponse) : Except GatewayError (Option SealedOAuthToken) :=
  match exchanged.sealedRefreshTokenB64 with
  | none => .ok none
  | some b64 =>
    match base64.decode b64 with
    | .error e => .error (.internal ("enclave returned bad base64: " ++ e))
    | .ok ciphertext => .ok (some {
        ownerId := exchanged.identity.ownerId
        provider := provider.asStr
        sealedRefreshToken := ciphertext
        keyId := exchanged.sealedKeyId.getD ""
        scheme := exchanged.sealScheme.getD ""
        scopes := exchanged.scopes
        grantedAtMs := exchanged.grantedAtMs.toInt64
        expiresAtMs := exchanged.accessTokenExpiresAtMs.map UInt64.toInt64 })

def callbackResponse (provider : Provider) (exchanged : OAuthExchangeResponse) (row : Option SealedOAuthToken)
    (nowSecs : UInt64) : AuthCallbackResponse jwt where
  provider := provider.asStr
  sessionToken :=
    issueSessionToken jwt config.sessionJwtSecret exchanged.identity.ownerId config.sessionTtlSecs nowSecs
  identity := exchanged.identity
  scopes := exchanged.scopes
  grantedAtMs := exchanged.grantedAtMs
  sealedKeyId := exchanged.sealedKeyId
  sealScheme := exchanged.sealScheme
  sealedTokenBytes := row.elim 0 (fun r => r.sealedRefreshToken.length)
  attestation := exchanged.attestation

/-- `GET /auth/callback` from the enclave's answer on. -/
def finishCallback (store : InMemoryTokenStore) (provider : Provider) (exchanged : OAuthExchangeResponse) (nowSecs : UInt64) :
    Except GatewayError (AuthCallbackResponse jwt) × InMemoryTokenStore :=
  match sealedToken base64 provider exchanged with
  | .error e => (.error e, store)
  | .ok row => (.ok (callbackResponse jwt config provider exchanged row nowSecs), row.elim store store.upsert)

end Callback

section Laws
variable {jwt : Jwt} {base64 : Base64} {config : Config} {store : InMemoryTokenStore} {provider : Provider}
  {exchanged : OAuthExchangeResponse}

/-- Without a refresh token nothing is stored. -/
theorem finishCallback_of_none (h : exchanged.sealedRefreshTokenB64 = none) (nowSecs : UInt64) :
    (finishCallback jwt base64 config store provider exchanged nowSecs).2 = store := by
  rw [finishCallback, sealedToken, h]
  rfl

/-- A row that is there after a callback was there before, or is the row of its exchange. -/
theorem get_finishCallback {nowSecs : UInt64} {ownerId name : String} {row : SealedOAuthToken}
    (h : (finishCallback jwt base64 config store provider exchanged nowSecs).2.get ownerId name = some row) :
    sealedToken base64 provider exchanged = .ok (some row) ∧ row.ownerId = ownerId ∧ row.provider = name ∨
      store.get ownerId name = some row := by
  unfold finishCallback at h
  cases hrow : sealedToken base64 provider exchanged with
  | error e =>
    rw [hrow] at h
    exact .inr h
  | ok written =>
    rw [hrow] at h
    cases written with
    | none => exact .inr h
    | some record =>
      obtain ⟨rfl, howner, hname⟩ | hold := store.eq_of_get_upsert h
      · exact .inl ⟨rfl, howner, hname⟩
      · exact .inr hold

end Laws
end Memorai.Gateway
