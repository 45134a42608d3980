import Memorai.Enclave.Seal
import Memorai.Wire.Base64

/-! Logging in and connecting a source, as the enclave does them. -/
namespace Memorai.Enclave
open Shared Text Wire Results

/-- The running enclave, with the libraries it calls. -/
structure AppState where
  config : Config
  publicKey : List UInt8
  blake2b256 : List UInt8 → Digest
  base64 : Base64
  /-- `serde_json::to_vec` -/
  serialize : OwnerIdentity → List UInt8

/-- A mock enclave with a constant for a hash. -/
def AppState.mock : AppState where
  config := .mock
  publicKey := []
  blake2b256 _ := ⟨List.replicate 32 0, List.length_replicate⟩
  base64 := .standard
  serialize _ := []

section Verify
variable (state : AppState) (endpoints : Endpoints)

/-- The account of a token, if one is presented. -/
def verifyPresented (provider : OAuthProvider) : Option String → Except EnclaveError (List OAuthSignal)
  | none => .ok []
  | some token => (provider.verify token).map (fun signal => [signal])

/-- The answer to a login with these accounts. -/
def verifyResponse (signals : List OAuthSignal) (hsignals : signals ≠ []) : IdentityVerifyResponse :=
  let identity := computeIdentity (deriveOwnerId signals hsignals) signals
  { identity := identity, attestation := getAttestation (state.publicKey ++ state.serialize identity) }

/-- A login has to have an account, and nothing that cannot be verified yet. -/
def answerLogin (req : IdentityVerifyRequest) (signals : List OAuthSignal) : Except EnclaveError IdentityVerifyResponse :=
  if req.walletSignature.isSome then .error (.badRequest "wallet_signature verification is not implemented in Phase 1")
  else if req.domainProof.isSome then .error (.badRequest "domain_proof verification is not implemented in Phase 1")
  else if hsignals : signals = [] then
    .error (.badRequest "at least one of google_token or github_token is required")
  else .ok (verifyResponse state signals hsignals)

/-- `POST /identity/verify` -/
def verify (req : IdentityVerifyRequest) : Except EnclaveError IdentityVerifyResponse := do
  let google ← verifyPresented (GoogleProvider state.config endpoints) req.googleToken
  let gitHub ← verifyPresented (GitHubProvider state.config endpoints) req.githubToken
  answerLogin state req (google ++ gitHub)

end Verify

section Exchange
variable (state : AppState)

/-- What leaves the enclave when a code is exchanged: the access token does not, the refresh token does sealed. -/
def exchangeResponse (provider : Provider) (exchanged : TokenExchange) (signal : OAuthSignal) (nowMs : UInt64) :
    OAuthExchangeResponse :=
  let ownerId := deriveOwnerId [signal] (List.cons_ne_nil signal [])
  let sealing := exchanged.refreshToken.map (fun refreshToken => encrypt state.blake2b256 ownerId (utf8 refreshToken))
  let committed := state.publicKey ++ utf8 ownerId ++ utf8 provider.asStr ++ sealing.elim [] (fun s => utf8 s.keyId)
  { provider := provider.asStr
    identity := computeIdentity ownerId [signal]
    sealedRefreshTokenB64 := sealing.map (fun s => state.base64.encode s.ciphertext)
    sealedKeyId := sealing.map SealEncrypted.keyId
    sealScheme := sealing.map SealEncrypted.scheme
    scopes := exchanged.scopes
    grantedAtMs := nowMs
    accessTokenExpiresAtMs := exchanged.expiresInSecs.map (fun s => nowMs + s * 1000)
    attestation := getAttestation committed }

/-- `POST /oauth/exchange`. The account is that of the access token that was just obtained. -/
def exchange (client : Provider → OAuthProvider) (req : OAuthExchangeRequest) (nowMs : UInt64) :
    Except EnclaveError OAuthExchangeResponse :=
  match Provider.parse req.provider with
  | none => .error (.badRequest ("unknown oauth provider: " ++ req.provider))
  | some provider =>
    if isBlank req.code then .error (.badRequest "code is required")
    else do
      let exchanged ← (client provider).exchangeCode req.code req.redirectUri req.codeVerifier
      let signal ← (client provider).verify exchanged.accessToken
      return exchangeResponse state provider exchanged signal nowMs

end Exchange

section Laws
variable {state : AppState} {endpoints : Endpoints} {client : Provider → OAuthProvider}

theorem answerLogin_ok {req : IdentityVerifyRequest} {signals : List OAuthSignal} {login : IdentityVerifyResponse}
    (h : answerLogin state req signals = .ok login) : ∃ hsignals, login = verifyResponse state signals hsignals := by
  unfold answerLogin at h
  split at h
  · exact absurd h (by simp)
  · split at h
    · exact absurd h (by simp)
    · split at h
      · exact absurd h (by simp)
      · rename_i hsignals
        exact ⟨hsignals, (Except.ok.inj h).symm⟩

/-- A login with a token of each provider is a login with both accounts, that of Google first. -/
theorem verify_both {googleToken githubToken : String} {walletSignature domainProof : Option String}
    {login : IdentityVerifyResponse}
    (h : verify state endpoints ⟨some googleToken, some githubToken, walletSignature, domainProof⟩ = .ok login) :
    ∃ google gitHub, (GoogleProvider state.config endpoints).verify googleToken = .ok google ∧
      (GitHubProvider state.config endpoints).verify githubToken = .ok gitHub ∧
      login = verifyResponse state [google, gitHub] (by simp) := by
  unfold verify at h
  obtain ⟨_, hpresented, h⟩ := bind_ok h
  obtain ⟨google, hgoogle, rfl⟩ := map_ok hpresented
  obtain ⟨_, hpresented, h⟩ := bind_ok h
  obtain ⟨gitHub, hgitHub, rfl⟩ := map_ok hpresented
  obtain ⟨_, hlogin⟩ := answerLogin_ok h
  exact ⟨google, gitHub, hgoogle, hgitHub, hlogin⟩

/-- An exchange that succeeds answers for the account of the access token. -/
theorem exchange_ok {req : OAuthExchangeRequest} {nowMs : UInt64} {response : OAuthExchangeResponse}
    (h : exchange state client req nowMs = .ok response) : ∃ provider exchanged signal,
      Provider.parse req.provider = some provider ∧
      (client provider).exchangeCode req.code req.redirectUri req.codeVerifier = .ok exchanged ∧
      (client provider).verify exchanged.accessToken = .ok signal ∧
      response = exchangeResponse state provider exchanged signal nowMs := by
  unfold exchange at h
  cases hprovider : Provider.parse req.provider with
  | none =>
    rw [hprovider] at h
    exact absurd h (by simp)
  | some provider =>
    rw [hprovider] at h
    dsimp only at h
    split at h
    · exact absurd h (by simp)
    · obtain ⟨exchanged, hexchanged, h⟩ := bind_ok h
      obtain ⟨signal, hsignal, h⟩ := bind_ok h
      exact ⟨provider, exchanged, signal, rfl, hexchanged, hsignal, (Except.ok.inj h).symm⟩

theorem exchange_of_ok {provider : Provider} {req : OAuthExchangeRequest} {exchanged : TokenExchange} {signal : OAuthSignal}
    (hprovider : Provider.parse req.provider = some provider) (hcode : isBlank req.code = false)
    (hexchanged : (client provider).exchangeCode req.code req.redirectUri req.codeVerifier = .ok exchanged)
    (hsignal : (client provider).verify exchanged.accessToken = .ok signal) (nowMs : UInt64) :
    exchange state client req nowMs = .ok (exchangeResponse state provider exchanged signal nowMs) := by
  rw [exchange, hprovider]
  dsimp only
  rw [if_neg (by rw [hcode]; exact Bool.false_ne_true), hexchanged]
  change ((client provider).verify exchanged.accessToken >>= _) = _
  rw [hsignal]
  rfl

/-- A login with an account of each provider succeeds if both are verified. -/
theorem verify_of_ok {googleToken githubToken : String} {google gitHub : OAuthSignal}
    (hgoogle : (GoogleProvider state.config endpoints).verify googleToken = .ok google)
    (hgitHub : (GitHubProvider state.config endpoints).verify githubToken = .ok gitHub) :
    verify state endpoints ⟨some googleToken, some githubToken, none, none⟩ =
      .ok (verifyResponse state [google, gitHub] (by simp)) := by
  rw [verify, verifyPresented, verifyPresented, hgoogle, hgitHub]
  rfl

end Laws
end Memorai.Enclave
