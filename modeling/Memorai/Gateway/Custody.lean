import Memorai.Enclave.Routes
import Memorai.Gateway.TokenStore

/-! Every stored refresh token is its owner's. Codes are exchanged and rows are stored in any order, and the providers
answer what they like. -/
namespace Memorai.Gateway.Custody
open Shared Text Wire
open Enclave (AppState TokenExchange OAuthProvider Digest deriveOwnerId deriveSeed mockKeyId mockSealMarker xorKeystream
  encrypt decrypt decrypt_encrypt keyId_of_decrypt exchange exchangeResponse exchange_ok)

/-- A code that was exchanged: what the provider issued, whom it vouched for, and what the enclave answered. -/
structure Exchanged where
  provider : Provider
  issued : TokenExchange
  signal : OAuthSignal
  response : OAuthExchangeResponse

def Exchanged.ownerId (exchanged : Exchanged) : String := deriveOwnerId [exchanged.signal] (List.cons_ne_nil _ _)

/-- The stored rows, the callbacks that wait for their answer to be stored, and all that was ever exchanged. -/
structure System where
  tokens : InMemoryTokenStore
  waiting : List Exchanged
  log : List Exchanged

def System.start : System := ⟨.empty, [], []⟩

section Runs
variable (jwt : Jwt) (config : Config) (state : AppState)

inductive Step (s : System) : System → Prop
  | exchange {x : Exchanged} {claims pending code request} (client : Provider → OAuthProvider) (nowMs)
      (hrequest : redeem claims pending code = .ok (x.provider, request))
      (hissued : (client x.provider).exchangeCode request.code request.redirectUri request.codeVerifier = .ok x.issued)
      (hsignal : (client x.provider).verify x.issued.accessToken = .ok x.signal)
      (hresponse : exchange state client request nowMs = .ok x.response) :
      Step s { s with waiting := x :: s.waiting, log := x :: s.log }
  | store {before x after} (hwaiting : s.waiting = before ++ x :: after) (nowSecs) :
      Step s { s with
        tokens := (finishCallback jwt state.base64 config s.tokens x.provider x.response nowSecs).2
        waiting := before ++ after }

inductive Reachable : System → Prop
  | start : Reachable .start
  | step {s s'} (hs : Reachable s) (hstep : Step jwt config state s s') : Reachable s'

end Runs

/-- The row is that of the owner and the provider, and holds a refresh token that the provider issued for an account
of the owner. It opens as the owner's, and under no other key id. -/
structure Owned (state : AppState) (log : List Exchanged) (ownerId provider : String) (row : SealedOAuthToken) : Prop where
  ofOwner : row.ownerId = ownerId
  ofProvider : row.provider = provider
  issued : ∃ x ∈ log, x.provider.asStr = provider ∧ x.ownerId = ownerId ∧ ∃ refreshToken body,
    x.issued.refreshToken = some refreshToken ∧ row.sealedRefreshToken = mockSealMarker ++ body ∧
    ∀ scheme, decrypt state.blake2b256 ownerId ⟨row.sealedRefreshToken, row.keyId, scheme⟩ = .ok (utf8 refreshToken)
  only : ∀ other scheme plaintext,
    decrypt state.blake2b256 other ⟨row.sealedRefreshToken, row.keyId, scheme⟩ = .ok plaintext →
      mockKeyId (deriveSeed state.blake2b256 other) = mockKeyId (deriveSeed state.blake2b256 ownerId)

section Laws
variable {jwt : Jwt} {config : Config} {state : AppState} {s : System}

theorem Owned.logged {log : List Exchanged} {ownerId provider : String} {row : SealedOAuthToken} (x : Exchanged)
    (h : Owned state log ownerId provider row) : Owned state (x :: log) ownerId provider row :=
  { h with issued := h.issued.imp (fun _ ⟨hmem, hrest⟩ => ⟨List.mem_cons_of_mem _ hmem, hrest⟩) }

/-- What the enclave answers about an exchange. -/
def Answered (state : AppState) (x : Exchanged) : Prop :=
  ∃ nowMs, x.response = exchangeResponse state x.provider x.issued x.signal nowMs

theorem answered_of_exchange {client : Provider → OAuthProvider} {x : Exchanged} {claims : OAuthStateClaims}
    {pending : PendingAuth} {code : String} {request : OAuthExchangeRequest} {nowMs : UInt64}
    (hrequest : redeem claims pending code = .ok (x.provider, request))
    (hissued : (client x.provider).exchangeCode request.code request.redirectUri request.codeVerifier = .ok x.issued)
    (hsignal : (client x.provider).verify x.issued.accessToken = .ok x.signal)
    (hresponse : exchange state client request nowMs = .ok x.response) : Answered state x := by
  obtain ⟨provider, issued, signal, hparse, hissued', hsignal', hanswer⟩ := exchange_ok hresponse
  obtain rfl : x.provider = provider := Option.some.inj ((parse_of_redeem hrequest).symm.trans hparse)
  obtain rfl : x.issued = issued := Except.ok.inj (hissued.symm.trans hissued')
  obtain rfl : x.signal = signal := Except.ok.inj (hsignal.symm.trans hsignal')
  exact ⟨nowMs, hanswer⟩

/-- The row of an answer is its owner's, as the enclave sealed it. -/
theorem owned_of_sealedToken (hbase64 : state.base64.RoundTrips) {x : Exchanged} (hanswered : Answered state x)
    {log : List Exchanged} (hlog : x ∈ log) {row : SealedOAuthToken}
    (hrow : sealedToken state.base64 x.provider x.response = .ok (some row)) :
    Owned state log row.ownerId row.provider row := by
  obtain ⟨nowMs, hresponse⟩ := hanswered
  cases htoken : x.issued.refreshToken with
  | none =>
    rw [sealedToken, hresponse, exchangeResponse, htoken] at hrow
    exact absurd hrow (by simp)
  | some refreshToken =>
    rw [sealedToken, hresponse, exchangeResponse, htoken] at hrow
    have hdecode : ∀ bytes, state.base64.decode (state.base64.encode bytes) = .ok bytes := hbase64
    simp only [Option.map_some, hdecode, Option.getD_some] at hrow
    obtain rfl := Option.some.inj (Except.ok.inj hrow)
    refine ⟨rfl, rfl, ⟨x, hlog, rfl, rfl, refreshToken, _, htoken, rfl, fun scheme => decrypt_encrypt scheme⟩, ?_⟩
    intro other scheme plaintext hopens
    exact (keyId_of_decrypt hopens).symm

/-- The rows are their owners', and what waits was exchanged and is as the enclave answered it. -/
structure Inv (state : AppState) (s : System) : Prop where
  rows : ∀ ownerId provider row, s.tokens.get ownerId provider = some row → Owned state s.log ownerId provider row
  logged : ∀ x ∈ s.waiting, x ∈ s.log
  answered : ∀ x ∈ s.waiting, Answered state x

theorem Inv.step (hbase64 : state.base64.RoundTrips) (h : Inv state s) {s' : System} (hstep : Step jwt config state s s') :
    Inv state s' := by
  cases hstep with
  | @exchange x claims pending code request client nowMs hrequest hissued hsignal hresponse =>
    constructor
    · exact fun ownerId provider row hrow => (h.rows ownerId provider row hrow).logged x
    · intro y hy
      rcases List.mem_cons.mp hy with rfl | hy
      · exact List.mem_cons_self
      · exact List.mem_cons_of_mem _ (h.logged y hy)
    · intro y hy
      rcases List.mem_cons.mp hy with rfl | hy
      · exact answered_of_exchange hrequest hissued hsignal hresponse
      · exact h.answered y hy
  | @store before x after hwaiting nowSecs =>
    have hx : x ∈ s.waiting := by
      rw [hwaiting]
      exact List.mem_append_right _ List.mem_cons_self
    have hrest : ∀ y ∈ before ++ after, y ∈ s.waiting := by
      intro y hy
      rw [hwaiting]
      exact (List.mem_append.mp hy).elim (List.mem_append_left _)
        (fun hy => List.mem_append_right _ (List.mem_cons_of_mem _ hy))
    constructor
    · intro ownerId provider row hget
      obtain ⟨hrow, rfl, rfl⟩ | hold := get_finishCallback hget
      · exact owned_of_sealedToken hbase64 (h.answered x hx) (h.logged x hx) hrow
      · exact h.rows ownerId provider row hold
    · exact fun y hy => h.logged y (hrest y hy)
    · exact fun y hy => h.answered y (hrest y hy)

theorem inv_of_reachable (hbase64 : state.base64.RoundTrips) (hs : Reachable jwt config state s) : Inv state s := by
  induction hs with
  | start =>
    exact ⟨fun _ _ _ hrow => absurd hrow (by simp [System.start, InMemoryTokenStore.get, InMemoryTokenStore.empty]),
      fun _ hx => absurd hx List.not_mem_nil, fun _ hx => absurd hx List.not_mem_nil⟩
  | step _ hstep ih => exact ih.step hbase64 hstep

end Laws

/-- Every row is its owner's, and a callback whose exchange came without a refresh token leaves the rows as they are. -/
theorem refresh_tokens_owned (jwt : Jwt) (config : Config) (state : AppState) (hbase64 : state.base64.RoundTrips)
    (s : System) (hs : Reachable jwt config state s) :
    (∀ ownerId provider row, s.tokens.get ownerId provider = some row → Owned state s.log ownerId provider row) ∧
    ∀ x ∈ s.waiting, x.issued.refreshToken = none → ∀ nowSecs,
      (finishCallback jwt state.base64 config s.tokens x.provider x.response nowSecs).2 = s.tokens := by
  have hinv := inv_of_reachable hbase64 hs
  refine ⟨hinv.rows, ?_⟩
  intro x hx hnone nowSecs
  obtain ⟨nowMs, hresponse⟩ := hinv.answered x hx
  apply finishCallback_of_none
  rw [hresponse, exchangeResponse, hnone]
  rfl

/-- The code of a mock account, exchanged. -/
def aliceExchanged : Exchanged where
  provider := .google
  issued := Enclave.mockGoogleTokens "alice"
  signal := Enclave.mockGoogleAccount "alice"
  response := exchangeResponse .mock .google (Enclave.mockGoogleTokens "alice") (Enclave.mockGoogleAccount "alice") 0

def aliceWaiting : System := ⟨.empty, [aliceExchanged], [aliceExchanged]⟩

def aliceStored : System where
  tokens := (finishCallback Jwt.exposed .standard .mock .empty .google aliceExchanged.response 0).2
  waiting := []
  log := [aliceExchanged]

theorem aliceStored_reachable : Reachable Jwt.exposed .mock .mock aliceStored := by
  let client := Enclave.client .mock .silent
  have hissued : (client .google).exchangeCode ("mock_code_google_" ++ "alice") "uri" "verifier" = .ok aliceExchanged.issued :=
    Enclave.google_exchangeCode_mock (by decide) _ _ _
  have hsignal : (client .google).verify aliceExchanged.issued.accessToken = .ok aliceExchanged.signal :=
    Enclave.google_verify_mock (by decide) _
  have hresponse : exchange .mock client ⟨"google", "mock_code_google_" ++ "alice", "uri", "verifier"⟩ 0 =
      .ok aliceExchanged.response := Enclave.exchange_of_ok rfl (by decide) hissued hsignal 0
  have hrequest : redeem ⟨"oauth_state", "sid", "google", 0⟩ ⟨"google", "verifier", "uri", 0⟩ ("mock_code_google_" ++ "alice") =
      .ok (.google, ⟨"google", "mock_code_google_" ++ "alice", "uri", "verifier"⟩) := rfl
  have hexchange : Step Jwt.exposed .mock .mock .start aliceWaiting := .exchange client 0 hrequest hissued hsignal hresponse
  have hwaiting : aliceWaiting.waiting = [] ++ aliceExchanged :: [] := rfl
  have hstore : Step Jwt.exposed .mock .mock aliceWaiting aliceStored := .store hwaiting 0
  exact .step (.step .start hexchange) hstore

theorem refresh_tokens_owned_alice :
    (∀ ownerId provider row, aliceStored.tokens.get ownerId provider = some row →
      Owned .mock aliceStored.log ownerId provider row) ∧
    ∀ x ∈ aliceStored.waiting, x.issued.refreshToken = none → ∀ nowSecs,
      (finishCallback Jwt.exposed AppState.mock.base64 .mock aliceStored.tokens x.provider x.response nowSecs).2 =
        aliceStored.tokens :=
  refresh_tokens_owned Jwt.exposed .mock .mock Base64.standard_roundTrips aliceStored aliceStored_reachable

end Memorai.Gateway.Custody
