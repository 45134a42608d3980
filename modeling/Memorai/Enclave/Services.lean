import Memorai.Collections.Results
import Memorai.Shared.OAuth
import Memorai.Text.Bytes

/-! What the enclave's routes rest on: attestation stubs, owner ids, and the clients of the two providers. The build is
the one without the hardware. -/
namespace Memorai.Enclave
open Shared Text Results

inductive EnclaveError where
  | badRequest (message : String)
  | upstream (message : String)
  | internal (message : String)
  deriving DecidableEq, Repr

def getAttestation (committed : List UInt8) : String := "MOCK_ATTESTATION_" ++ hexEncode committed

section OwnerIds

/-- What an account is known by. -/
def named : OAuthSignal → String
  | .google subject _ => "google:" ++ subject
  | .gitHub subject _ => "github:" ++ subject
  | .wallet address => "wallet:" ++ address
  | .domain domain => "domain:" ++ domain

/-- The owner id is that of the first signal, of which the caller guarantees that there is one. -/
def deriveOwnerId (signals : List OAuthSignal) (hsignals : signals ≠ []) : String :=
  hexEncode (utf8 (named (signals.head hsignals)))

def computeIdentity (ownerId : String) (signals : List OAuthSignal) : OwnerIdentity where
  ownerId := ownerId
  signals := signals
  trustTier := .fromSignals signals

theorem deriveOwnerId_eq_iff {signals signals' : List OAuthSignal} (h : signals ≠ []) (h' : signals' ≠ []) :
    deriveOwnerId signals h = deriveOwnerId signals' h' ↔ named (signals.head h) = named (signals'.head h') :=
  (hexEncode_injective.comp utf8_injective).eq_iff

/-- No account of one provider is known by the name of an account of the other. -/
theorem named_google_ne_gitHub (subject email subject' login : String) :
    named (.google subject email) ≠ named (.gitHub subject' login) := by
  intro h
  have hchars := congrArg String.toList h
  simp [named, String.toList_append] at hchars

end OwnerIds

structure TokenExchange where
  accessToken : String
  refreshToken : Option String
  expiresInSecs : Option UInt64
  scopes : List String

structure TokenEndpointResponse where
  accessToken : String
  refreshToken : Option String
  expiresIn : Option UInt64
  scope : Option String

def TokenExchange.ofResponse (r : TokenEndpointResponse) : TokenExchange where
  accessToken := r.accessToken
  refreshToken := r.refreshToken
  expiresInSecs := r.expiresIn
  scopes := splitNonempty [' ', ','] (r.scope.getD "")

/-- A provider, which verifies accounts by access token and exchanges codes for tokens. -/
structure OAuthProvider where
  verify : (token : String) → Except EnclaveError OAuthSignal
  exchangeCode : (code redirectUri codeVerifier : String) → Except EnclaveError TokenExchange

structure Config where
  enclaveMode : String
  googleClientId : String
  googleClientSecret : String
  githubClientId : String
  githubClientSecret : String

namespace Config

def mock : Config := ⟨"mock", "", "", "", ""⟩

def isMock (config : Config) : Bool := config.enclaveMode != "nitro"

end Config

structure TokenInfo where
  sub : String
  email : String

structure GitHubUser where
  id : UInt64
  login : String

/-- What the providers' endpoints answer. A call that fails fails with the enclave's error for it. -/
structure Endpoints where
  tokenInfo : (token : String) → Except EnclaveError TokenInfo
  user : (token : String) → Except EnclaveError GitHubUser
  token : Provider → (clientId clientSecret code redirectUri codeVerifier : String) → Except EnclaveError TokenEndpointResponse

/-- Nobody answers. -/
def Endpoints.silent : Endpoints where
  tokenInfo _ := .error (.upstream "google tokeninfo call failed")
  user _ := .error (.upstream "github /user call failed")
  token _ _ _ _ _ _ := .error (.upstream "token exchange failed")

section Requests
variable (mock : Bool) (start form : String)

/-- In mock mode the account is made up from the token. -/
def verifyToken {α : Type} (fake : String → OAuthSignal) (answer : String → Except EnclaveError α) (signal : α → OAuthSignal)
    (token : String) : Except EnclaveError OAuthSignal :=
  if mock then
    match stripPrefix start token with
    | some account => .ok (fake account)
    | none => .error (.badRequest ("mock mode expects a token of the form " ++ form))
  else (answer token).map signal

/-- In mock mode the tokens are made up from the code. Otherwise it takes the client secret to ask for them. -/
def exchangeToken (fake : String → TokenExchange) (secretName clientSecret : String)
    (answer : Except EnclaveError TokenEndpointResponse) (code : String) : Except EnclaveError TokenExchange :=
  if mock then
    match stripPrefix start code with
    | some account => .ok (fake account)
    | none => .error (.badRequest ("mock mode expects a code of the form " ++ form))
  else if clientSecret = "" then
    .error (.internal (secretName ++ " is not set inside the enclave; code exchange cannot happen anywhere else"))
  else answer.map .ofResponse

variable {mock start form}

theorem signal_of_verifyToken {α : Type} {fake : String → OAuthSignal} {answer : String → Except EnclaveError α}
    {signal : α → OAuthSignal} {token : String} {verified : OAuthSignal}
    (h : verifyToken mock start form fake answer signal token = .ok verified) :
    (∃ account, verified = fake account) ∨ ∃ a, verified = signal a := by
  unfold verifyToken at h
  split at h
  · split at h
    · exact .inl ⟨_, (Except.ok.inj h).symm⟩
    · exact absurd h (by simp)
  · obtain ⟨a, _, rfl⟩ := map_ok h
    exact .inr ⟨a, rfl⟩

theorem verifyToken_mock {α : Type} {fake : String → OAuthSignal} {answer : String → Except EnclaveError α}
    {signal : α → OAuthSignal} (hmock : mock = true) (account : String) :
    verifyToken mock start form fake answer signal (start ++ account) = .ok (fake account) := by
  rw [verifyToken, if_pos hmock, stripPrefix_append]

theorem exchangeToken_mock {fake : String → TokenExchange} {secretName clientSecret : String}
    {answer : Except EnclaveError TokenEndpointResponse} (hmock : mock = true) (account : String) :
    exchangeToken mock start form fake secretName clientSecret answer (start ++ account) = .ok (fake account) := by
  rw [exchangeToken, if_pos hmock, stripPrefix_append]

end Requests

section Clients

/-- The account that a mock token of Google is for. -/
def mockGoogleAccount (fakeSub : String) : OAuthSignal := .google fakeSub (fakeSub ++ "@mock.local")

def mockGoogleTokens (subject : String) : TokenExchange where
  accessToken := "mock_google_" ++ subject
  refreshToken := some ("mock_refresh_google_" ++ subject)
  expiresInSecs := some 3600
  scopes := Provider.google.scopes

def mockGitHubAccount (fakeLogin : String) : OAuthSignal := .gitHub ("mock-" ++ fakeLogin) fakeLogin

def mockGitHubTokens (login : String) : TokenExchange where
  accessToken := "mock_github_" ++ login
  refreshToken := some ("mock_refresh_github_" ++ login)
  expiresInSecs := none
  scopes := Provider.gitHub.scopes

variable (config : Config) (endpoints : Endpoints)

def GoogleProvider : OAuthProvider where
  verify := verifyToken config.isMock "mock_google_" "mock_google_<subject>" mockGoogleAccount
    endpoints.tokenInfo (fun info => .google info.sub info.email)
  exchangeCode code redirectUri codeVerifier :=
    exchangeToken config.isMock "mock_code_google_" "mock_code_google_<subject>" mockGoogleTokens
      "GOOGLE_CLIENT_SECRET" config.googleClientSecret
      (endpoints.token .google config.googleClientId config.googleClientSecret code redirectUri codeVerifier) code

def GitHubProvider : OAuthProvider where
  verify := verifyToken config.isMock "mock_github_" "mock_github_<login>" mockGitHubAccount
    endpoints.user (fun user => .gitHub (toString user.id.toNat) user.login)
  exchangeCode code redirectUri codeVerifier :=
    exchangeToken config.isMock "mock_code_github_" "mock_code_github_<login>" mockGitHubTokens
      "GITHUB_CLIENT_SECRET" config.githubClientSecret
      (endpoints.token .gitHub config.githubClientId config.githubClientSecret code redirectUri codeVerifier) code

def client : Provider → OAuthProvider
  | .google => GoogleProvider config endpoints
  | .gitHub => GitHubProvider config endpoints

variable {config endpoints}

theorem google_verify_mock (hmock : config.isMock = true) (fakeSub : String) :
    (GoogleProvider config endpoints).verify ("mock_google_" ++ fakeSub) = .ok (mockGoogleAccount fakeSub) :=
  verifyToken_mock hmock fakeSub

theorem google_exchangeCode_mock (hmock : config.isMock = true) (subject redirectUri codeVerifier : String) :
    (GoogleProvider config endpoints).exchangeCode ("mock_code_google_" ++ subject) redirectUri codeVerifier =
      .ok (mockGoogleTokens subject) := exchangeToken_mock hmock subject

theorem gitHub_verify_mock (hmock : config.isMock = true) (fakeLogin : String) :
    (GitHubProvider config endpoints).verify ("mock_github_" ++ fakeLogin) = .ok (mockGitHubAccount fakeLogin) :=
  verifyToken_mock hmock fakeLogin

theorem gitHub_exchangeCode_mock (hmock : config.isMock = true) (login redirectUri codeVerifier : String) :
    (GitHubProvider config endpoints).exchangeCode ("mock_code_github_" ++ login) redirectUri codeVerifier =
      .ok (mockGitHubTokens login) := exchangeToken_mock hmock login

/-- Each client vouches for accounts of its own provider. -/
theorem google_of_verify {token : String} {signal : OAuthSignal}
    (h : (GoogleProvider config endpoints).verify token = .ok signal) : ∃ subject email, signal = .google subject email := by
  obtain ⟨fakeSub, rfl⟩ | ⟨info, rfl⟩ := signal_of_verifyToken h
  · exact ⟨_, _, rfl⟩
  · exact ⟨_, _, rfl⟩

theorem gitHub_of_verify {token : String} {signal : OAuthSignal}
    (h : (GitHubProvider config endpoints).verify token = .ok signal) : ∃ subject login, signal = .gitHub subject login := by
  obtain ⟨fakeLogin, rfl⟩ | ⟨user, rfl⟩ := signal_of_verifyToken h
  · exact ⟨_, _, rfl⟩
  · exact ⟨_, _, rfl⟩

end Clients
end Memorai.Enclave
