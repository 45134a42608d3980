import Memorai.Collections.Histories
import Memorai.Gateway.Lifetime
import Memorai.Gateway.Logins
import Memorai.Gateway.SingleUse

/-! What a grant rests on. Requests come in any order and present what they like, but nobody else can sign. -/
namespace Memorai.Gateway.Authority
open Shared Text Wire Histories
open Enclave (AppState Endpoints)

/-- A session that was handed out. It may have come back from a provider, with what was redeemed there. -/
structure Login where
  ownerId : String
  issuedAt : UInt64
  redeemed : Option OAuthExchangeRequest

/-- A grant that was handed out, and the session that asked for it. -/
structure Mint (jwt : Jwt) where
  bearer : jwt.Token
  request : ScopeGrantRequest
  checkedAt : Nat
  mintedAt : UInt64

inductive Event (jwt : Jwt)
  | began (flow : Flow)
  | loggedIn (login : Login)
  | granted (mint : Mint jwt)

/-- The gateway, with the callbacks that wait for the enclave and all that it has signed, newest first. -/
structure System (jwt : Jwt) where
  pending : PendingAuthStore
  tokens : InMemoryTokenStore
  waiting : List (Provider × OAuthExchangeRequest)
  log : List (Event jwt)

def System.start (jwt : Jwt) : System jwt := ⟨.empty, .empty, [], []⟩

section Tokens
variable {jwt : Jwt} (config : Config)

def Login.claims (login : Login) : SessionClaims where
  typ := "session"
  ownerId := login.ownerId
  exp := login.issuedAt + config.sessionTtlSecs

def Login.token (login : Login) : jwt.Token :=
  issueSessionToken jwt config.sessionJwtSecret login.ownerId config.sessionTtlSecs login.issuedAt

def Mint.claims (mint : Mint jwt) : GrantClaims := grantClaims mint.request.scope mint.request.ttlSecs mint.mintedAt

def Mint.token (mint : Mint jwt) : jwt.Token :=
  (issueGrantToken jwt config.sessionJwtSecret mint.request.scope mint.request.ttlSecs mint.mintedAt).1

/-- The claims of the token that an event hands out. -/
def Event.claims : Event jwt → Json
  | .began flow => (flow.claims config).toJson
  | .loggedIn login => (login.claims config).toJson
  | .granted mint => mint.claims.toJson

/-- States may be signed under the same secret as sessions and grants. A token that decodes under that is one of these. -/
def Genuine (log : List (Event jwt)) (token : jwt.Token) : Prop :=
  ∀ leeway nowSecs claims, jwt.decode config.sessionJwtSecret leeway nowSecs token = .ok claims →
    ∃ event ∈ log, token = jwt.encode config.sessionJwtSecret (event.claims config)

end Tokens

section Runs
variable (jwt : Jwt) (s256 : String → String) (spell : jwt.Token → String) (jsonText : Json → String) (config : Config)
  (enclave : AppState)

/-- A callback whose state is redeemed asks the enclave. -/
def System.callback (s : System jwt) (query : AuthCallbackQuery jwt) (presentedAt takenAt : UInt64) : System jwt :=
  match callbackRequest jwt config s.pending query presentedAt takenAt with
  | (.error _, pending) => { s with pending := pending }
  | (.ok asked, pending) => { s with pending := pending, waiting := asked :: s.waiting }

/-- The enclave answers one that waited. -/
def System.complete (s : System jwt) (endpoints : Endpoints) (provider : Provider) (request : OAuthExchangeRequest)
    (nowMs nowSecs : UInt64) : System jwt :=
  match completeCallback jwt config enclave jsonText endpoints s.tokens provider request nowMs nowSecs with
  | (.error _, tokens) => { s with tokens := tokens }
  | (.ok response, tokens) =>
    { s with tokens := tokens, log := .loggedIn ⟨response.identity.ownerId, nowSecs, some request⟩ :: s.log }

def System.session (s : System jwt) (endpoints : Endpoints) (req : IdentityVerifyRequest) (nowSecs : UInt64) : System jwt :=
  match Gateway.session jwt config enclave jsonText endpoints req nowSecs with
  | .error _ => s
  | .ok response => { s with log := .loggedIn ⟨response.identity.ownerId, nowSecs, none⟩ :: s.log }

def System.grant (s : System jwt) (bearer : jwt.Token) (req : ScopeGrantRequest) (checkedAt : Nat) (mintedAt : UInt64) : System jwt :=
  match scopeGrant jwt config.sessionJwtSecret (some bearer) req checkedAt mintedAt with
  | .error _ => s
  | .ok _ => { s with log := .granted ⟨bearer, req, checkedAt, mintedAt⟩ :: s.log }

/-- The requests that leave something behind. Any clock may have been read for them. -/
inductive Step (s : System jwt) : System jwt → Prop
  | authorize {flow : Flow} {provider response pending insertedAt} (hprovider : Provider.parse provider = some flow.provider)
      (hok : authorize jwt s256 config spell s.pending provider flow.draw flow.issuedAt flow.datedAt insertedAt =
        (.ok response, pending)) : Step s { s with pending := pending, log := .began flow :: s.log }
  | callback (query presentedAt takenAt) : Step s (s.callback jwt config query presentedAt takenAt)
  | complete {before provider request after} (hwaiting : s.waiting = before ++ (provider, request) :: after)
      (endpoints nowMs nowSecs) :
      Step s (System.complete jwt jsonText config enclave { s with waiting := before ++ after } endpoints provider request nowMs nowSecs)
  | session (endpoints req nowSecs) : Step s (s.session jwt jsonText config enclave endpoints req nowSecs)
  | grant {bearer} (hbearer : Genuine config s.log bearer) (req checkedAt mintedAt) :
      Step s (s.grant jwt config bearer req checkedAt mintedAt)

inductive Reachable : System jwt → Prop
  | start : Reachable (.start jwt)
  | step {s s'} (hs : Reachable s) (hstep : Step jwt s256 spell jsonText config enclave s s') : Reachable s'

end Runs

-- What is handed out is on the log.
section HandedOut
variable {jwt : Jwt} {jsonText : Json → String} {config : Config} {enclave : AppState} {endpoints : Endpoints} {s : System jwt}

theorem log_session {req : IdentityVerifyRequest} {nowSecs : UInt64} {response : SessionResponse jwt}
    (h : Gateway.session jwt config enclave jsonText endpoints req nowSecs = .ok response) :
    ∃ login, (s.session jwt jsonText config enclave endpoints req nowSecs).log = .loggedIn login :: s.log ∧
      response.sessionToken = login.token config := by
  rw [System.session, h]
  exact ⟨_, rfl, (session_ok h).1⟩

theorem log_complete {provider : Provider} {request : OAuthExchangeRequest} {nowMs nowSecs : UInt64}
    {response : AuthCallbackResponse jwt} {tokens : InMemoryTokenStore}
    (h : completeCallback jwt config enclave jsonText endpoints s.tokens provider request nowMs nowSecs = (.ok response, tokens)) :
    ∃ login, (s.complete jwt jsonText config enclave endpoints provider request nowMs nowSecs).log = .loggedIn login :: s.log ∧
      response.sessionToken = login.token config := by
  rw [System.complete, h]
  exact ⟨_, rfl, (completeCallback_ok h).1⟩

theorem log_grant {bearer : jwt.Token} {req : ScopeGrantRequest} {checkedAt : Nat} {mintedAt : UInt64} {granted : ScopeGrantResponse jwt}
    (h : scopeGrant jwt config.sessionJwtSecret (some bearer) req checkedAt mintedAt = .ok granted) :
    ∃ mint, (s.grant jwt config bearer req checkedAt mintedAt).log = .granted mint :: s.log ∧
      granted.grantToken = mint.token config := by
  rw [System.grant, h]
  exact ⟨_, rfl, token_of_scopeGrant h⟩

end HandedOut

section Reading
variable {jwt : Jwt} {config : Config} {log : List (Event jwt)} {token : jwt.Token} {nowSecs : Nat}

/-- A record without an owner id is not taken for a session. -/
theorem session_eq_none {fields : Fields} (h : fields.lookup "owner_id" = none) : SessionClaims.ofJson (.obj fields) = none := by
  have hrequired : fields.required "owner_id" Json.string? = none := by
    rw [Fields.required, h]
    rfl
  rw [SessionClaims.ofJson, Json.record]
  split
  · cases htyp : fields.withDefault "typ" Json.string? "" <;> simp [htyp, hrequired]
  · rfl

/-- A record without a scope is not taken for a grant. -/
theorem grant_eq_none {fields : Fields} (h : fields.lookup "scope" = none) : GrantClaims.ofJson (.obj fields) = none := by
  have hrequired : fields.required "scope" Scope.ofJson = none := by
    rw [Fields.required, h]
    rfl
  rw [GrantClaims.ofJson, Json.record]
  split
  · cases htyp : fields.withDefault "typ" Json.string? "" <;> simp [htyp, hrequired]
  · rfl

/-- What verifies was signed here, as claims that are read the same way. -/
theorem signed_of_verify {α : Type} {claims? : Json → Option α} {a : α} {leeway : Nat} (hjwt : jwt.Faithful)
    (hgenuine : Genuine config log token)
    (h : jwt.verify claims? config.sessionJwtSecret leeway nowSecs token = .ok a) :
    ∃ event ∈ log, token = jwt.encode config.sessionJwtSecret (event.claims config) ∧ claims? (event.claims config) = some a := by
  unfold Jwt.verify at h
  split at h
  · exact absurd h (by simp)
  · rename_i claims hdecode
    obtain ⟨event, hevent, rfl⟩ := hgenuine _ _ _ hdecode
    obtain rfl := hjwt.lossless hdecode
    refine ⟨event, hevent, rfl, ?_⟩
    split at h
    · rename_i hread
      rw [hread, Except.ok.inj h]
    · exact absurd h (by simp)

/-- What is taken for a session is the token of a login, and not too old. -/
theorem login_of_requireSession (hjwt : jwt.Faithful) (hexpires : jwt.Expires) (hgenuine : Genuine config log token)
    {session : SessionClaims} (h : requireSession jwt config.sessionJwtSecret (some token) nowSecs = .ok session) :
    ∃ login, .loggedIn login ∈ log ∧ token = login.token config ∧ session.ownerId = login.ownerId ∧
      nowSecs ≤ (login.issuedAt + config.sessionTtlSecs).toNat + defaultLeeway := by
  have hverify : jwt.verify SessionClaims.ofJson config.sessionJwtSecret defaultLeeway nowSecs token = .ok session := by
    unfold requireSession validateSessionToken at h
    dsimp only at h
    cases hverify : jwt.verify SessionClaims.ofJson config.sessionJwtSecret defaultLeeway nowSecs token with
    | error e =>
      rw [hverify] at h
      exact absurd h (by simp [bind, Except.bind])
    | ok claims =>
      rw [hverify] at h
      by_cases htyp : claims.typ = "session" <;> simp_all [bind, Except.bind, pure, Except.pure, throw, throwThe, MonadExceptOf.throw]
  obtain ⟨event, hevent, htoken, hread⟩ := signed_of_verify hjwt hgenuine hverify
  cases event with
  | began flow => exact absurd (hread.symm.trans (session_eq_none rfl)) (by simp)
  | granted mint => exact absurd (hread.symm.trans (session_eq_none rfl)) (by simp)
  | loggedIn login =>
    obtain rfl := Option.some.inj ((SessionClaims.ofJson_toJson _).symm.trans hread)
    refine ⟨login, hevent, htoken, rfl, ?_⟩
    by_contra hlate
    rw [htoken] at hverify
    exact Jwt.verify_late hexpires (SessionClaims.exp?_toJson _) (Nat.lt_of_not_le hlate) hverify

/-- What is taken for a grant is the token of a grant, with the scope that was cut off. -/
theorem mint_of_introspect (hjwt : jwt.Faithful) (hgenuine : Genuine config log token) {resp : ScopeIntrospectResponse}
    (h : scopeIntrospect jwt config.sessionJwtSecret token nowSecs = .ok resp) :
    ∃ mint, .granted mint ∈ log ∧ token = mint.token config ∧
      resp.scope = cutOff mint.request.scope (mint.mintedAt + mint.request.ttlSecs) := by
  have hverify : ∃ claims, jwt.verify GrantClaims.ofJson config.sessionJwtSecret defaultLeeway nowSecs token = .ok claims := by
    unfold scopeIntrospect validateGrantToken at h
    cases hverify : jwt.verify GrantClaims.ofJson config.sessionJwtSecret defaultLeeway nowSecs token with
    | error e =>
      rw [hverify] at h
      exact absurd h (by simp [bind, Except.bind])
    | ok claims => exact ⟨claims, rfl⟩
  obtain ⟨claims, hverify⟩ := hverify
  obtain ⟨event, hevent, htoken, hread⟩ := signed_of_verify hjwt hgenuine hverify
  cases event with
  | began flow => exact absurd (hread.symm.trans (grant_eq_none rfl)) (by simp)
  | loggedIn login => exact absurd (hread.symm.trans (grant_eq_none rfl)) (by simp)
  | granted mint =>
    refine ⟨mint, hevent, htoken, ?_⟩
    rw [htoken] at h
    exact scope_of_introspect hjwt h

end Reading
section Invariant
variable {jwt : Jwt} {s256 : String → String} {spell : jwt.Token → String} {jsonText : Json → String} {config : Config}
  {enclave : AppState}

/-- Why an event could happen after these. -/
def Justified (config : Config) (enclave : AppState) (before : List (Event jwt)) : Event jwt → Prop
  | .began _ => True
  | .loggedIn login => Vouched enclave.config login.ownerId ∧
      ∀ request ∈ login.redeemed, ∃ flow code, .began flow ∈ before ∧ request = flow.request config code
  | .granted mint => isBlank mint.request.scope.agentId = false ∧ ∃ login, .loggedIn login ∈ before ∧
      mint.bearer = login.token config ∧ mint.request.scope.ownerId = login.ownerId ∧
      mint.checkedAt ≤ (login.issuedAt + config.sessionTtlSecs).toNat + defaultLeeway

structure Inv (config : Config) (enclave : AppState) (s : System jwt) : Prop where
  grounded : Grounded (Justified config enclave) s.log
  begun : ∀ stateId pending, s.pending.entries stateId = some pending → ∃ flow, .began flow ∈ s.log ∧ pending = flow.pending config
  asked : ∀ asked ∈ s.waiting, ∃ flow code, .began flow ∈ s.log ∧ asked = (flow.provider, flow.request config code)
  owned : ∀ ownerId name row, s.tokens.get ownerId name = some row → ∃ login, .loggedIn login ∈ s.log ∧ login.ownerId = ownerId

theorem Inv.start : Inv config enclave (System.start jwt) where
  grounded := trivial
  begun _ _ h := absurd h (by simp [System.start, PendingAuthStore.empty])
  asked _ h := absurd h List.not_mem_nil
  owned _ _ _ h := absurd h (by simp [System.start, InMemoryTokenStore.get, InMemoryTokenStore.empty])

/-- What is redeemed is the entry that the state names. -/
theorem callbackRequest_ok {store store' : PendingAuthStore} {query : AuthCallbackQuery jwt} {presentedAt takenAt : UInt64}
    {asked : Provider × OAuthExchangeRequest}
    (h : callbackRequest jwt config store query presentedAt takenAt = (.ok asked, store')) :
    ∃ claims pending, store.entries claims.stateId = some pending ∧ redeem claims pending query.code = .ok asked := by
  unfold callbackRequest at h
  split at h
  · exact absurd (Prod.mk.inj h).1 (by simp)
  · rename_i claims _
    split at h
    · exact absurd (Prod.mk.inj h).1 (by simp)
    · rename_i pending _ htake
      have hfound : (store.take claims.stateId takenAt).1 = some pending := by rw [htake]
      exact ⟨claims, pending, (take_fst_eq_some_iff.mp hfound).1, (Prod.mk.inj h).1⟩

theorem entry_of_insert {store : PendingAuthStore} {stateId id : String} {now : UInt64} {pending new : PendingAuth}
    (h : (store.insert stateId now new).entries id = some pending) : pending = new ∨ store.entries id = some pending := by
  unfold PendingAuthStore.insert at h
  dsimp only at h
  by_cases hid : id = stateId
  · rw [hid, OneTime.insert_self] at h
    exact .inl (Option.some.inj h).symm
  · rw [OneTime.insert_of_ne hid] at h
    exact .inr (Option.filter_eq_some_iff.mp h).1

/-- A callback adds no entry. -/
theorem entry_of_callbackRequest {store : PendingAuthStore} {query : AuthCallbackQuery jwt} {presentedAt takenAt : UInt64}
    {stateId : String} {pending : PendingAuth}
    (h : (callbackRequest jwt config store query presentedAt takenAt).2.entries stateId = some pending) :
    store.entries stateId = some pending := by
  have hremoved : ∀ id, OneTime.remove id store.entries stateId = some pending → store.entries stateId = some pending := by
    intro id hid
    by_cases heq : stateId = id
    · rw [heq, OneTime.remove_self] at hid
      exact absurd hid (by simp)
    · rwa [OneTime.remove_of_ne heq] at hid
  unfold callbackRequest at h
  split at h
  · exact h
  · rename_i claims _
    have hleft := take_snd store claims.stateId takenAt
    split at h
    · rename_i htake
      rw [htake] at hleft
      exact hremoved _ (hleft ▸ h)
    · rename_i htake
      rw [htake] at hleft
      exact hremoved _ (hleft ▸ h)

/-- Only what a flow left behind is asked for, at its provider. -/
theorem request_of_redeem {flow : Flow} {claims : OAuthStateClaims} {code : String} {asked : Provider × OAuthExchangeRequest}
    (h : redeem claims (flow.pending config) code = .ok asked) : asked = (flow.provider, flow.request config code) := by
  have hprovider : (flow.pending config).provider = claims.provider := by
    by_contra hne
    rw [redeem, if_pos hne] at h
    exact absurd h (by simp)
  have hparse : Provider.parse claims.provider = some flow.provider := hprovider ▸ Provider.parse_asStr flow.provider
  rw [redeem, if_neg (not_not.mpr hprovider), hparse] at h
  exact (Except.ok.inj h).symm

/-- An event that is added keeps what rests on those before it. -/
theorem Inv.log {s : System jwt} (h : Inv config enclave s) (event : Event jwt) (hevent : Justified config enclave s.log event) :
    Inv config enclave { s with log := event :: s.log } where
  grounded := ⟨hevent, h.grounded⟩
  begun stateId pending hentry :=
    (h.begun stateId pending hentry).imp (fun _ ⟨hflow, heq⟩ => ⟨List.mem_cons_of_mem _ hflow, heq⟩)
  asked asked hasked := by
    obtain ⟨flow, code, hflow, heq⟩ := h.asked asked hasked
    exact ⟨flow, code, List.mem_cons_of_mem _ hflow, heq⟩
  owned ownerId name row hrow :=
    (h.owned ownerId name row hrow).imp (fun _ ⟨hlogin, heq⟩ => ⟨List.mem_cons_of_mem _ hlogin, heq⟩)

section Steps
variable {s : System jwt} (h : Inv config enclave s)
include h

theorem Inv.authorize {flow : Flow} {insertedAt : UInt64} : Inv config enclave { s with
    pending := s.pending.insert flow.stateId insertedAt (flow.pending config)
    log := .began flow :: s.log } :=
  { h.log (.began flow) trivial with
    begun := by
      intro stateId pending hentry
      obtain rfl | hkept := entry_of_insert hentry
      · exact ⟨flow, List.mem_cons_self, rfl⟩
      · obtain ⟨old, hold, heq⟩ := h.begun stateId pending hkept
        exact ⟨old, List.mem_cons_of_mem _ hold, heq⟩ }

theorem Inv.callback (query : AuthCallbackQuery jwt) (presentedAt takenAt : UInt64) :
    Inv config enclave (s.callback jwt config query presentedAt takenAt) := by
  have hleft : ∀ stateId pending,
      (callbackRequest jwt config s.pending query presentedAt takenAt).2.entries stateId = some pending →
        ∃ flow, .began flow ∈ s.log ∧ pending = flow.pending config :=
    fun stateId pending hentry => h.begun stateId pending (entry_of_callbackRequest hentry)
  unfold System.callback
  split
  · rename_i hanswer
    exact { h with begun := fun stateId pending hentry => hleft stateId pending (by rw [hanswer]; exact hentry) }
  · rename_i asked _ hanswer
    obtain ⟨claims, pending, hentry, hredeem⟩ := callbackRequest_ok hanswer
    obtain ⟨flow, hflow, rfl⟩ := h.begun _ _ hentry
    refine { h with
      begun := fun stateId pending hentry => hleft stateId pending (by rw [hanswer]; exact hentry)
      asked := fun asked' hasked => ?_ }
    rcases List.mem_cons.mp hasked with rfl | hasked
    · exact ⟨flow, query.code, hflow, request_of_redeem hredeem⟩
    · exact h.asked asked' hasked

theorem Inv.complete {provider : Provider} {request : OAuthExchangeRequest}
    (hrequest : ∃ flow code, .began flow ∈ s.log ∧ (provider, request) = (flow.provider, flow.request config code))
    (endpoints : Endpoints) (nowMs nowSecs : UInt64) :
    Inv config enclave (s.complete jwt jsonText config enclave endpoints provider request nowMs nowSecs) := by
  unfold System.complete
  split
  · rename_i hanswer
    rw [completeCallback_error hanswer]
    exact h
  · rename_i response tokens hanswer
    obtain ⟨_, hvouched, hrows⟩ := completeCallback_ok hanswer
    have hredeemed : ∀ r ∈ some request, ∃ flow code, .began flow ∈ s.log ∧ r = flow.request config code := by
      intro r hr
      obtain rfl := Option.mem_some_iff.mp hr
      obtain ⟨flow, code, hflow, heq⟩ := hrequest
      exact ⟨flow, code, hflow, (Prod.mk.inj heq).2⟩
    have hlog := h.log (.loggedIn ⟨response.identity.ownerId, nowSecs, some request⟩) ⟨hvouched, hredeemed⟩
    refine { hlog with owned := fun ownerId name row hrow => ?_ }
    obtain rfl | hold := hrows ownerId name row hrow
    · exact ⟨_, List.mem_cons_self, rfl⟩
    · exact hlog.owned ownerId name row hold

theorem Inv.session (endpoints : Endpoints) (req : IdentityVerifyRequest) (nowSecs : UInt64) :
    Inv config enclave (s.session jwt jsonText config enclave endpoints req nowSecs) := by
  unfold System.session
  split
  · exact h
  · rename_i response hok
    refine h.log _ ⟨(session_ok hok).2, fun r hr => ?_⟩
    exact absurd hr (by simp)

/-- Only an owner who is logged in is granted anything, and only over their own memory. -/
theorem Inv.grant (hjwt : jwt.Faithful) (hexpires : jwt.Expires) {bearer : jwt.Token} (hbearer : Genuine config s.log bearer)
    (req : ScopeGrantRequest) (checkedAt : Nat) (mintedAt : UInt64) :
    Inv config enclave (s.grant jwt config bearer req checkedAt mintedAt) := by
  unfold System.grant
  split
  · exact h
  · rename_i granted hok
    unfold scopeGrant at hok
    split at hok
    · exact absurd hok (by simp)
    · rename_i session hsession
      split at hok
      · exact absurd hok (by simp)
      · rename_i howner
        split at hok
        · exact absurd hok (by simp)
        · rename_i hagent
          obtain ⟨login, hlogin, htoken, hid, hfresh⟩ := login_of_requireSession hjwt hexpires hbearer hsession
          exact h.log _ ⟨Bool.eq_false_iff.mpr hagent, login, hlogin, htoken, (not_not.mp howner).trans hid, hfresh⟩

theorem Inv.step (hjwt : jwt.Faithful) (hexpires : jwt.Expires) {s' : System jwt}
    (hstep : Step jwt s256 spell jsonText config enclave s s') : Inv config enclave s' := by
  cases hstep with
  | authorize hprovider hok =>
    obtain ⟨_, rfl⟩ := authorize_ok hprovider hok
    exact h.authorize
  | callback query presentedAt takenAt => exact h.callback query presentedAt takenAt
  | @complete before provider request after hwaiting endpoints nowMs nowSecs =>
    have hrest : Inv config enclave { s with waiting := before ++ after } :=
      { h with
        asked := by
          intro asked hasked
          refine h.asked asked ?_
          rw [hwaiting]
          exact (List.mem_append.mp hasked).elim (List.mem_append_left _)
            (fun hafter => List.mem_append_right _ (List.mem_cons_of_mem _ hafter)) }
    refine hrest.complete (h.asked _ ?_) endpoints nowMs nowSecs
    rw [hwaiting]
    exact List.mem_append_right _ List.mem_cons_self
  | session endpoints req nowSecs => exact h.session endpoints req nowSecs
  | grant hbearer req checkedAt mintedAt => exact h.grant hjwt hexpires hbearer req checkedAt mintedAt

end Steps

theorem inv_of_reachable (hjwt : jwt.Faithful) (hexpires : jwt.Expires) {s : System jwt}
    (hs : Reachable jwt s256 spell jsonText config enclave s) : Inv config enclave s := by
  induction hs with
  | start => exact .start
  | step _ hstep ih => exact ih.step hjwt hexpires hstep

end Invariant

/-- A grant that was asked for by an owner who had logged in before, and whose account the enclave had seen. -/
structure Authorised {jwt : Jwt} (config : Config) (enclave : AppState) (log : List (Event jwt)) (mint : Mint jwt) (login : Login) :
    Prop where
  inOrder : ∃ after between before, log = after ++ .granted mint :: (between ++ .loggedIn login :: before) ∧
    ∀ request ∈ login.redeemed, ∃ flow code, .began flow ∈ before ∧ request = flow.request config code
  asked : mint.bearer = login.token config
  lasting : mint.checkedAt ≤ (login.issuedAt + config.sessionTtlSecs).toNat + defaultLeeway
  own : mint.request.scope.ownerId = login.ownerId
  named : isBlank mint.request.scope.agentId = false
  vouched : Vouched enclave.config login.ownerId

section Authorised
variable {jwt : Jwt} {config : Config} {enclave : AppState} {s : System jwt}

theorem Inv.authorised (h : Inv config enclave s) {mint : Mint jwt} (hmint : .granted mint ∈ s.log) :
    ∃ login, Authorised config enclave s.log mint login := by
  obtain ⟨after, before, hlog, hnamed, login, hlogin, hasked, hown, hlasting⟩ := h.grounded.exists_split hmint
  have hbefore : Grounded (Justified config enclave) before := (hlog ▸ h.grounded).of_append.2
  obtain ⟨between, earlier, rfl, hvouched, hredeemed⟩ := hbefore.exists_split hlogin
  exact ⟨login, ⟨after, between, earlier, hlog, hredeemed⟩, hasked, hlasting, hown, hnamed, hvouched⟩

end Authorised

/-- Whatever is presented as a grant and resolved was granted here, to an agent with a name, by an owner who had logged in
before. What is sealed is sealed for such an owner, and a refresh token is kept for such an owner. Every login is of an account
that the enclave had seen, and one that came back from a provider redeemed what began here before. -/
theorem rests_on_owners (jwt : Jwt) (hjwt : jwt.Faithful) (hexpires : jwt.Expires) (s256 : String → String)
    (spell : jwt.Token → String) (jsonText : Json → String) (config : Config) (enclave : AppState) (s : System jwt)
    (hs : Reachable jwt s256 spell jsonText config enclave s) :
    (∀ token, Genuine config s.log token → ∀ nowSecs resp,
      scopeIntrospect jwt config.sessionJwtSecret token nowSecs = .ok resp →
        ∃ mint login, Authorised config enclave s.log mint login ∧ token = mint.token config ∧
          resp.scope = cutOff mint.request.scope (mint.mintedAt + mint.request.ttlSecs)) ∧
    (∀ token, Genuine config s.log token → ∀ req nowSecs response,
      sealEncrypt (deployed jwt config enclave jsonText) (some token) req nowSecs = .ok response →
        ∃ login, .loggedIn login ∈ s.log ∧ token = login.token config ∧ Vouched enclave.config login.ownerId ∧
          Enclave.postSealEncrypt enclave ⟨login.ownerId, req.plaintextB64⟩ = .ok response) ∧
    (∀ ownerId provider row, s.tokens.get ownerId provider = some row →
      ∃ login, .loggedIn login ∈ s.log ∧ login.ownerId = ownerId ∧ Vouched enclave.config ownerId) ∧
    ∀ after login before, s.log = after ++ .loggedIn login :: before → Vouched enclave.config login.ownerId ∧
      ∀ request ∈ login.redeemed, ∃ flow code, .began flow ∈ before ∧ request = flow.request config code := by
  have hinv : Inv config enclave s := inv_of_reachable hjwt hexpires hs
  have hvouched : ∀ {login : Login}, .loggedIn login ∈ s.log → Vouched enclave.config login.ownerId := by
    intro login hlogin
    obtain ⟨_, _, _, hvouched, _⟩ := hinv.grounded.exists_split hlogin
    exact hvouched
  refine ⟨?_, ?_, ?_, ?_⟩
  · intro token htoken nowSecs resp hresp
    obtain ⟨mint, hmint, heq, hscope⟩ := mint_of_introspect hjwt htoken hresp
    obtain ⟨login, hlogin⟩ := hinv.authorised hmint
    exact ⟨mint, login, hlogin, heq, hscope⟩
  · intro token htoken req nowSecs response hsealed
    obtain ⟨session, hsession, hanswer⟩ := sealEncrypt_ok hsealed
    obtain ⟨login, hlogin, heq, hid, _⟩ := login_of_requireSession hjwt hexpires htoken hsession
    rw [hid] at hanswer
    exact ⟨login, hlogin, heq, hvouched hlogin, hanswer⟩
  · intro ownerId provider row hrow
    obtain ⟨login, hlogin, rfl⟩ := hinv.owned ownerId provider row hrow
    exact ⟨login, hlogin, rfl, hvouched hlogin⟩
  · intro after login before hlog
    exact (hlog ▸ hinv.grounded).of_split

section Alice

/-- Alice logs in with both accounts. -/
def aliceLogin : Login := ⟨Enclave.deriveOwnerId [Enclave.mockGoogleAccount "alice", Enclave.mockGitHubAccount "alice"] (by simp), 100, none⟩

def aliceRequest : ScopeGrantRequest := ⟨{ projectsScope with ownerId := aliceLogin.ownerId }, 3600⟩

def aliceMint : Mint Jwt.exposed := ⟨aliceLogin.token .mock, aliceRequest, 100, 100⟩

def aliceGranted : System Jwt.exposed := ⟨.empty, .empty, [], [.granted aliceMint, .loggedIn aliceLogin]⟩

theorem session_alice : (System.start Jwt.exposed).session Jwt.exposed (fun _ => "") .mock .mock .silent
    ⟨some ("mock_google_" ++ "alice"), some ("mock_github_" ++ "alice"), none, none⟩ 100 =
      ⟨.empty, .empty, [], [.loggedIn aliceLogin]⟩ := by
  have hverify : Enclave.verify .mock .silent ⟨some ("mock_google_" ++ "alice"), some ("mock_github_" ++ "alice"), none, none⟩ =
      .ok (Enclave.verifyResponse .mock [Enclave.mockGoogleAccount "alice", Enclave.mockGitHubAccount "alice"] (by simp)) :=
    Enclave.verify_of_ok (Enclave.google_verify_mock (by decide) "alice") (Enclave.gitHub_verify_mock (by decide) "alice")
  rw [System.session, Gateway.session, verifyIdentity, hverify]
  rfl

theorem grant_alice : System.grant Jwt.exposed .mock ⟨.empty, .empty, [], [.loggedIn aliceLogin]⟩ (aliceLogin.token .mock)
    aliceRequest 100 100 = aliceGranted := by
  have hsession : requireSession Jwt.exposed Config.mock.sessionJwtSecret (some (aliceLogin.token .mock)) 100 = .ok _ :=
    requireSession_fresh Jwt.exposed_faithful (by decide)
  rw [System.grant, scopeGrant, hsession]
  rfl

theorem aliceGranted_reachable :
    Reachable Jwt.exposed id (fun _ => "state") (fun _ => "") .mock .mock aliceGranted := by
  have hlogin : Step Jwt.exposed id (fun _ => "state") (fun _ => "") .mock .mock (.start Jwt.exposed)
      ⟨.empty, .empty, [], [.loggedIn aliceLogin]⟩ := session_alice ▸ .session _ _ _
  have hbearer : Genuine .mock [.loggedIn aliceLogin] (aliceLogin.token .mock : Jwt.exposed.Token) :=
    fun _ _ _ _ => ⟨_, List.mem_cons_self, rfl⟩
  have hgrant : Step Jwt.exposed id (fun _ => "state") (fun _ => "") .mock .mock ⟨.empty, .empty, [], [.loggedIn aliceLogin]⟩
      aliceGranted := grant_alice ▸ .grant hbearer _ _ _
  exact .step (.step .start hlogin) hgrant

theorem rests_on_owners_alice : (∃ mint login, Authorised .mock .mock aliceGranted.log mint login ∧
    aliceMint.token .mock = mint.token .mock ∧
      cutOff aliceRequest.scope (100 + 3600) = cutOff mint.request.scope (mint.mintedAt + mint.request.ttlSecs)) ∧
    Vouched (AppState.mock).config aliceLogin.ownerId := by
  obtain ⟨hgrants, _, _, hlogins⟩ := rests_on_owners Jwt.exposed Jwt.exposed_faithful Jwt.exposed_expires id (fun _ => "state")
    (fun _ => "") .mock .mock aliceGranted aliceGranted_reachable
  refine ⟨?_, (hlogins [.granted aliceMint] aliceLogin [] rfl).1⟩
  exact hgrants (aliceMint.token .mock) (fun _ _ _ _ => ⟨_, List.mem_cons_self, rfl⟩) 100 _
    (introspect_fresh Jwt.exposed_faithful (by decide))

end Alice

end Memorai.Gateway.Authority
