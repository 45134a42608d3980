import Memorai.Enclave.Routes
import Memorai.Gateway.TokenStore

/-! Where a user lands. Logging in and connecting a source derive the owner id from different accounts. -/
namespace Memorai.Gateway
open Shared Wire
open Enclave (AppState Endpoints)

/-- A user's accounts, by subject. -/
structure User where
  google : String
  gitHub : String

def User.Holds (user : User) : OAuthSignal → Prop
  | .google subject _ => subject = user.google
  | .gitHub subject _ => subject = user.gitHub
  | .wallet _ => False
  | .domain _ => False

section Landing
variable (state : AppState) (endpoints : Endpoints) (user : User)

/-- The user presents a token of each account at `/identity/verify`. -/
def LogsIn (login : IdentityVerifyResponse) : Prop :=
  ∃ googleToken githubToken walletSignature domainProof,
    Enclave.verify state endpoints ⟨some googleToken, some githubToken, walletSignature, domainProof⟩ = .ok login ∧
    ∀ signal ∈ login.identity.signals, user.Holds signal

/-- The user connects the account at a provider, through `/oauth/exchange`. -/
def Connects (provider : Provider) (response : OAuthExchangeResponse) : Prop :=
  ∃ code redirectUri codeVerifier nowMs,
    Enclave.exchange state (Enclave.client state.config endpoints) ⟨provider.asStr, code, redirectUri, codeVerifier⟩ nowMs =
      .ok response ∧
    ∀ signal ∈ response.identity.signals, user.Holds signal

/-- What is connected belongs to whom is logged in, and so does the row that the callback stores. -/
def LandsOn (login : IdentityVerifyResponse) (provider : Provider) (response : OAuthExchangeResponse) : Prop :=
  response.identity.ownerId = login.identity.ownerId ∧
  ∀ row, sealedToken state.base64 provider response = .ok (some row) → row.ownerId = login.identity.ownerId

end Landing

section Laws
variable {state : AppState} {endpoints endpoints' : Endpoints} {user : User} {provider : Provider}
  {login : IdentityVerifyResponse} {response : OAuthExchangeResponse}

/-- The owner id of a login with both accounts is that of the Google account. -/
theorem ownerId_of_logsIn (h : LogsIn state endpoints user login) (email : String) :
    login.identity.ownerId = Enclave.deriveOwnerId [.google user.google email] (by simp) := by
  obtain ⟨googleToken, githubToken, walletSignature, domainProof, hverify, hheld⟩ := h
  obtain ⟨google, gitHub, hgoogle, _, rfl⟩ := Enclave.verify_both hverify
  obtain ⟨subject, email', rfl⟩ := Enclave.google_of_verify hgoogle
  have hsubject : subject = user.google := hheld _ List.mem_cons_self
  rw [hsubject]
  exact (Enclave.deriveOwnerId_eq_iff _ _).mpr rfl

/-- The owner id of a connection is that of the account that is connected. -/
theorem ownerId_of_connects (h : Connects state endpoints user provider response) (name : String) :
    response.identity.ownerId = match provider with
      | .google => Enclave.deriveOwnerId [.google user.google name] (by simp)
      | .gitHub => Enclave.deriveOwnerId [.gitHub user.gitHub name] (by simp) := by
  obtain ⟨code, redirectUri, codeVerifier, nowMs, hexchange, hheld⟩ := h
  obtain ⟨parsed, exchanged, signal, hparse, _, hsignal, rfl⟩ := Enclave.exchange_ok hexchange
  rw [Provider.parse_asStr] at hparse
  obtain rfl := Option.some.inj hparse
  have hholds : user.Holds signal := hheld _ List.mem_cons_self
  cases provider with
  | google =>
    obtain ⟨subject, email, rfl⟩ := Enclave.google_of_verify hsignal
    obtain rfl : subject = user.google := hholds
    exact (Enclave.deriveOwnerId_eq_iff _ _).mpr rfl
  | gitHub =>
    obtain ⟨subject, login, rfl⟩ := Enclave.gitHub_of_verify hsignal
    obtain rfl : subject = user.gitHub := hholds
    exact (Enclave.deriveOwnerId_eq_iff _ _).mpr rfl

theorem ownerId_of_sealedToken {base64 : Base64} {row : SealedOAuthToken}
    (h : sealedToken base64 provider response = .ok (some row)) : row.ownerId = response.identity.ownerId := by
  unfold sealedToken at h
  split at h
  · exact absurd h (by simp)
  · split at h
    · exact absurd h (by simp)
    · rw [← Option.some.inj (Except.ok.inj h)]

theorem ownerId_eq_iff (hlogin : LogsIn state endpoints user login) (hconnect : Connects state endpoints' user provider response) :
    response.identity.ownerId = login.identity.ownerId ↔ provider = .google := by
  rw [ownerId_of_logsIn hlogin "", ownerId_of_connects hconnect ""]
  cases provider with
  | google => exact iff_of_true rfl rfl
  | gitHub =>
    refine iff_of_false ?_ (by simp)
    intro hid
    exact Enclave.named_google_ne_gitHub _ _ _ _ ((Enclave.deriveOwnerId_eq_iff _ _).mp hid).symm

end Laws

/-- A user who logs in with both accounts and connects one of them lands on the owner id of the login exactly if it is
the Google account that is connected. -/
theorem lands_on_login_iff (state : AppState) (endpoints endpoints' : Endpoints) (user : User) (provider : Provider)
    (login : IdentityVerifyResponse) (response : OAuthExchangeResponse) (hlogin : LogsIn state endpoints user login)
    (hconnect : Connects state endpoints' user provider response) :
    LandsOn state login provider response ↔ provider = .google := by
  rw [← ownerId_eq_iff hlogin hconnect]
  constructor
  · exact fun h => h.1
  · intro hid
    exact ⟨hid, fun row hrow => (ownerId_of_sealedToken hrow).trans hid⟩

section Mock
open Enclave (mockGoogleAccount mockGoogleTokens mockGitHubAccount mockGitHubTokens)

/-- A user of the mock providers. -/
def mockUser (subject login : String) : User := ⟨subject, "mock-" ++ login⟩

variable {state : AppState} {endpoints : Endpoints} (hmock : state.config.isMock = true) (subject login : String)
include hmock

theorem logsIn_mock : LogsIn state endpoints (mockUser subject login)
    (Enclave.verifyResponse state [mockGoogleAccount subject, mockGitHubAccount login] (by simp)) := by
  refine ⟨_, _, none, none,
    Enclave.verify_of_ok (Enclave.google_verify_mock hmock subject) (Enclave.gitHub_verify_mock hmock login), ?_⟩
  intro signal hsignal
  rcases List.mem_cons.mp hsignal with rfl | hsignal
  · rfl
  · obtain rfl := List.mem_singleton.mp hsignal
    rfl

theorem connects_google_mock : Connects state endpoints (mockUser subject login) .google
    (Enclave.exchangeResponse state .google (mockGoogleTokens subject) (mockGoogleAccount subject) 0) := by
  have hcode : Text.isBlank ("mock_code_google_" ++ subject) = false := by
    rw [Text.isBlank, String.toList_append, List.all_append]
    exact Bool.and_eq_false_iff.mpr (.inl (by decide))
  refine ⟨_, "uri", "verifier", 0, Enclave.exchange_of_ok rfl hcode (Enclave.google_exchangeCode_mock hmock subject _ _)
    (Enclave.google_verify_mock hmock subject) 0, ?_⟩
  intro signal hsignal
  obtain rfl := List.mem_singleton.mp hsignal
  rfl

theorem connects_gitHub_mock : Connects state endpoints (mockUser subject login) .gitHub
    (Enclave.exchangeResponse state .gitHub (mockGitHubTokens login) (mockGitHubAccount login) 0) := by
  have hcode : Text.isBlank ("mock_code_github_" ++ login) = false := by
    rw [Text.isBlank, String.toList_append, List.all_append]
    exact Bool.and_eq_false_iff.mpr (.inl (by decide))
  refine ⟨_, "uri", "verifier", 0, Enclave.exchange_of_ok rfl hcode (Enclave.gitHub_exchangeCode_mock hmock login _ _)
    (Enclave.gitHub_verify_mock hmock login) 0, ?_⟩
  intro signal hsignal
  obtain rfl := List.mem_singleton.mp hsignal
  rfl

end Mock

theorem lands_on_login_iff_google :
    LandsOn .mock (Enclave.verifyResponse .mock [Enclave.mockGoogleAccount "alice", Enclave.mockGitHubAccount "alice"] (by simp))
      .google (Enclave.exchangeResponse .mock .google (Enclave.mockGoogleTokens "alice") (Enclave.mockGoogleAccount "alice") 0) ↔
        Provider.google = .google :=
  lands_on_login_iff .mock .silent .silent (mockUser "alice" "alice") .google _ _ (logsIn_mock (by decide) "alice" "alice")
    (connects_google_mock (by decide) "alice" "alice")

/-- A user who connects the GitHub account lands elsewhere. -/
theorem gitHub_lands_elsewhere : ¬ ∀ (state : AppState) (endpoints endpoints' : Endpoints) (user : User)
    (provider : Provider) (login : IdentityVerifyResponse) (response : OAuthExchangeResponse),
    LogsIn state endpoints user login → Connects state endpoints' user provider response →
      LandsOn state login provider response := by
  intro h
  have hlogin : LogsIn .mock .silent (mockUser "alice" "alice") _ := logsIn_mock (by decide) "alice" "alice"
  have hconnect : Connects .mock .silent (mockUser "alice" "alice") .gitHub _ := connects_gitHub_mock (by decide) "alice" "alice"
  have hlands := h .mock .silent .silent _ _ _ _ hlogin hconnect
  exact absurd ((ownerId_eq_iff hlogin hconnect).mp hlands.1) (by decide)

end Memorai.Gateway
