import Mathlib.Data.Nat.Basic
import Memorai.Gateway.Auth

/-! A consent is exchanged at most once, with what was created for it, and not lost before its time. A request is one
step, at its store operation: what it does before concerns nobody else, but the clock may have been read earlier. -/
namespace Memorai.Gateway
open Shared Wire

/-- What one authorization creates. -/
structure Flow where
  provider : Provider
  draw : Draw
  issuedAt : UInt64
  datedAt : UInt64

namespace Flow
variable (jwt : Jwt) (config : Config) (flow : Flow)

def stateId : String := flow.draw.stateId

def claims : OAuthStateClaims := stateClaims flow.provider.asStr config.oauthStateTtlSecs flow.issuedAt flow.draw

def token : jwt.Token := jwt.encode config.oauthStateSecret (flow.claims config).toJson

def pending : PendingAuth where
  provider := flow.provider.asStr
  codeVerifier := flow.draw.codeVerifier
  redirectUri := config.redirectUri flow.provider
  expiresAtSecs := flow.datedAt + config.oauthStateTtlSecs

def request (code : String) : OAuthExchangeRequest where
  provider := flow.provider.asStr
  code := code
  redirectUri := config.redirectUri flow.provider
  codeVerifier := flow.draw.codeVerifier

theorem redeem_pending (code : String) :
    redeem (flow.claims config) (flow.pending config) code = .ok (flow.provider, flow.request config code) := by
  simp [redeem, claims, pending, stateClaims, request]

end Flow

/-- A code that is sent to the enclave. It leaves in the step that takes the entry. -/
structure Exchange where
  stateId : String
  request : OAuthExchangeRequest
  sentAt : UInt64

/-- The gateway, with what it has signed, begun, looked up and sent so far. -/
structure System (jwt : Jwt) where
  clock : UInt64
  pending : PendingAuthStore
  signed : List jwt.Token
  flows : List Flow
  asked : List String
  exchanges : List Exchange

section Runs
variable (jwt : Jwt) (s256 : String → String) (spell : jwt.Token → String) (config : Config)

def System.start (clock : UInt64) : System jwt := ⟨clock, .empty, [], [], [], []⟩

/-- A state that is accepted is looked up. The request goes out if there is one. -/
def System.callback (s : System jwt) (query : AuthCallbackQuery jwt) (presentedAt : UInt64) : System jwt :=
  match validateState jwt config.oauthStateSecret query.state presentedAt.toNat with
  | .error _ => s
  | .ok claims =>
    match callbackRequest jwt config s.pending query presentedAt s.clock with
    | (.error _, pending) => { s with pending := pending, asked := claims.stateId :: s.asked }
    | (.ok (_, request), pending) => { s with
        pending := pending
        asked := claims.stateId :: s.asked
        exchanges := ⟨claims.stateId, request, s.clock⟩ :: s.exchanges }

/-- The secret of states may be that of sessions and grants, and whoever calls back may present anything. But a token
that is accepted was signed here. -/
inductive Step (s : System jwt) : System jwt → Prop
  | tick {clock} (hle : s.clock ≤ clock) : Step s { s with clock := clock }
  | session (ownerId ttlSecs issuedAt) :
      Step s { s with signed := issueSessionToken jwt config.oauthStateSecret ownerId ttlSecs issuedAt :: s.signed }
  | grant (scope ttlSecs issuedAt) :
      Step s { s with signed := (issueGrantToken jwt config.oauthStateSecret scope ttlSecs issuedAt).1 :: s.signed }
  | authorize {flow : Flow} {provider response pending} (hnew : flow.stateId ∉ s.flows.map Flow.stateId)
      (hissued : flow.issuedAt ≤ flow.datedAt) (hdated : flow.datedAt ≤ s.clock)
      (hprovider : Provider.parse provider = some flow.provider)
      (hok : authorize jwt s256 config spell s.pending provider flow.draw flow.issuedAt flow.datedAt s.clock =
        (.ok response, pending)) :
      Step s { s with pending := pending, signed := response.state :: s.signed, flows := flow :: s.flows }
  | callback (query : AuthCallbackQuery jwt) {presentedAt} (hpresented : presentedAt ≤ s.clock)
      (hsigned : ∀ claims, validateState jwt config.oauthStateSecret query.state presentedAt.toNat = .ok claims →
        query.state ∈ s.signed) :
      Step s (s.callback jwt config query presentedAt)

inductive Reachable : System jwt → Prop
  | start (clock) : Reachable (.start jwt clock)
  | step {s s'} (hs : Reachable s) (hstep : Step jwt s256 spell config s s') : Reachable s'

end Runs

section Requests
variable {jwt : Jwt} {s256 : String → String} {spell : jwt.Token → String} {config : Config} {store store' : PendingAuthStore}

/-- An authorization that is answered hands out the token of its flow, and leaves the entry of it. -/
theorem authorize_ok {flow : Flow} {provider : String} {insertedAt : UInt64} {response : AuthorizeResponse jwt}
    (hprovider : Provider.parse provider = some flow.provider)
    (hok : authorize jwt s256 config spell store provider flow.draw flow.issuedAt flow.datedAt insertedAt = (.ok response, store')) :
    response.state = flow.token jwt config ∧ store' = store.insert flow.stateId insertedAt (flow.pending config) := by
  unfold authorize at hok
  rw [hprovider] at hok
  dsimp only at hok
  split at hok
  · exact absurd (Prod.mk.inj hok).1 (by simp)
  · obtain ⟨hresponse, hstore⟩ := Prod.mk.inj hok
    obtain rfl := Except.ok.inj hresponse
    exact ⟨rfl, hstore.symm⟩

/-- A provider with a client id is asked. -/
theorem authorize_configured (flow : Flow) (insertedAt : UInt64) (hid : config.clientId flow.provider ≠ "") :
    ∃ response, authorize jwt s256 config spell store flow.provider.asStr flow.draw flow.issuedAt flow.datedAt insertedAt =
      (.ok response, store.insert flow.stateId insertedAt (flow.pending config)) := by
  rw [authorize, Provider.parse_asStr]
  dsimp only
  rw [if_neg hid]
  exact ⟨_, rfl⟩

variable {query : AuthCallbackQuery jwt} {presentedAt takenAt : UInt64} {claims : OAuthStateClaims}

theorem callbackRequest_of_found
    (hclaims : validateState jwt config.oauthStateSecret query.state presentedAt.toNat = .ok claims) {pending : PendingAuth}
    (hfound : (store.take claims.stateId takenAt).1 = some pending) :
    callbackRequest jwt config store query presentedAt takenAt =
      (redeem claims pending query.code, (store.take claims.stateId takenAt).2) := by
  rw [callbackRequest, hclaims]
  dsimp only
  cases htake : store.take claims.stateId takenAt with
  | mk found left =>
    rw [htake] at hfound
    obtain rfl := hfound
    rfl

theorem callbackRequest_of_not_found
    (hclaims : validateState jwt config.oauthStateSecret query.state presentedAt.toNat = .ok claims)
    (hmissed : (store.take claims.stateId takenAt).1 = none) :
    callbackRequest jwt config store query presentedAt takenAt =
      (.error (.unauthorized "oauth state is unknown, expired, or has already been used"),
        (store.take claims.stateId takenAt).2) := by
  rw [callbackRequest, hclaims]
  dsimp only
  cases htake : store.take claims.stateId takenAt with
  | mk found left =>
    rw [htake] at hmissed
    obtain rfl := hmissed
    rfl

end Requests

section Invariant
variable {jwt : Jwt} {s256 : String → String} {spell : jwt.Token → String} {config : Config}

/-- The exchange of a flow, with what was created for it and before its entry expired. -/
structure Exchange.Of (config : Config) (flow : Flow) (exchange : Exchange) : Prop where
  stateId : exchange.stateId = flow.stateId
  request : ∃ code, exchange.request = flow.request config code
  sentAt : exchange.sentAt < (flow.pending config).expiresAtSecs

def deadline (pending : PendingAuth) : Nat := pending.expiresAtSecs.toNat

def given (config : Config) (flows : List Flow) : List (String × PendingAuth) :=
  flows.map (fun flow => (flow.stateId, flow.pending config))

structure Inv (config : Config) (s : System jwt) : Prop where
  distinct : (s.flows.map Flow.stateId).Nodup
  kept : OneTime.Kept deadline s.clock.toNat s.pending.entries (given config s.flows) s.asked
  signed : ∀ token ∈ s.signed, (∃ flow ∈ s.flows, token = flow.token jwt config) ∨
    ∃ json, OAuthStateClaims.ofJson json = none ∧ token = jwt.encode config.oauthStateSecret json
  begun : ∀ stateId ∈ s.asked, stateId ∈ s.flows.map Flow.stateId
  used : ∀ exchange ∈ s.exchanges, exchange.stateId ∈ s.asked
  once : (s.exchanges.map Exchange.stateId).Nodup
  sent : ∀ exchange ∈ s.exchanges, ∃ flow ∈ s.flows, exchange.Of config flow

theorem mem_given {flows : List Flow} {stateId : String} {pending : PendingAuth} :
    (stateId, pending) ∈ given config flows ↔ ∃ flow ∈ flows, flow.stateId = stateId ∧ flow.pending config = pending := by
  simp [given]

theorem Inv.start (clock : UInt64) : Inv config (System.start jwt clock) where
  distinct := List.nodup_nil
  kept := .empty
  signed := fun _ h => absurd h List.not_mem_nil
  begun := fun _ h => absurd h List.not_mem_nil
  used := fun _ h => absurd h List.not_mem_nil
  once := List.nodup_nil
  sent := fun _ h => absurd h List.not_mem_nil

variable {s : System jwt} (h : Inv config s)
include h

theorem Inv.tick {clock : UInt64} (hle : s.clock ≤ clock) : Inv config { s with clock := clock } :=
  { h with kept := h.kept.later (UInt64.le_iff_toNat_le.mp hle) }

/-- A token that is signed for another purpose. -/
theorem Inv.sign {json : Json} (hjson : OAuthStateClaims.ofJson json = none) :
    Inv config { s with signed := jwt.encode config.oauthStateSecret json :: s.signed } :=
  { h with
    signed := by
      intro token htoken
      rcases List.mem_cons.mp htoken with rfl | htoken
      · exact .inr ⟨json, hjson, rfl⟩
      · exact h.signed token htoken }

theorem Inv.authorize {flow : Flow} (hnew : flow.stateId ∉ s.flows.map Flow.stateId) :
    Inv config { s with
      pending := s.pending.insert flow.stateId s.clock (flow.pending config)
      signed := flow.token jwt config :: s.signed
      flows := flow :: s.flows } where
  distinct := List.nodup_cons.mpr ⟨hnew, h.distinct⟩
  kept := by
    have hnever : ∀ pending, (flow.stateId, pending) ∉ given config s.flows := by
      intro pending hgiven
      obtain ⟨old, hold, hid, _⟩ := mem_given.mp hgiven
      exact hnew (List.mem_map.mpr ⟨old, hold, hid⟩)
    have hlive : (fun p : PendingAuth => decide (p.expiresAtSecs > s.clock)) = OneTime.live deadline s.clock.toNat := by
      funext p
      exact decide_eq_decide.mpr UInt64.lt_iff_toNat_lt
    have hkept := h.kept.retain.insert (flow.pending config) hnever (fun hasked => hnew (h.begun _ hasked))
    rw [← hlive] at hkept
    exact hkept
  signed := by
    intro token htoken
    rcases List.mem_cons.mp htoken with rfl | htoken
    · exact .inl ⟨flow, List.mem_cons_self, rfl⟩
    · exact (h.signed token htoken).imp (fun ⟨old, hold, heq⟩ => ⟨old, List.mem_cons_of_mem _ hold, heq⟩) id
  begun := fun stateId hasked => List.mem_cons_of_mem _ (h.begun stateId hasked)
  used := h.used
  once := h.once
  sent := fun exchange hsent =>
    (h.sent exchange hsent).imp (fun _ ⟨hold, hof⟩ => ⟨List.mem_cons_of_mem _ hold, hof⟩)

/-- The first to ask for a flow's entry finds it, until it expires. Nobody else finds anything. -/
theorem Inv.take_eq_some_iff {flow : Flow} (hflow : flow ∈ s.flows) {pending : PendingAuth} :
    (s.pending.take flow.stateId s.clock).1 = some pending ↔
      flow.stateId ∉ s.asked ∧ s.clock < (flow.pending config).expiresAtSecs ∧ pending = flow.pending config := by
  rw [take_fst_eq_some_iff, UInt64.lt_iff_toNat_lt, UInt64.lt_iff_toNat_lt]
  have hfound := h.kept.found_iff flow.stateId pending
  rw [show deadline pending = pending.expiresAtSecs.toNat from rfl, mem_given] at hfound
  rw [hfound]
  constructor
  · rintro ⟨⟨other, hother, hid, rfl⟩, hasked, hlt⟩
    obtain rfl := List.inj_on_of_nodup_map h.distinct hother hflow hid
    exact ⟨hasked, hlt, rfl⟩
  · rintro ⟨hasked, hlt, rfl⟩
    exact ⟨⟨flow, hflow, rfl, rfl⟩, hasked, hlt⟩

/-- Whatever is found, the state is used up. -/
theorem Inv.ask {flow : Flow} (hflow : flow ∈ s.flows) :
    Inv config { s with
      pending := (s.pending.take flow.stateId s.clock).2
      asked := flow.stateId :: s.asked } where
  distinct := h.distinct
  kept := by
    have hkept := h.kept.remove flow.stateId
    rw [← take_snd s.pending flow.stateId s.clock] at hkept
    exact hkept
  signed := h.signed
  begun := by
    intro stateId hasked
    rcases List.mem_cons.mp hasked with rfl | hasked
    · exact List.mem_map_of_mem hflow
    · exact h.begun stateId hasked
  used := fun exchange hsent => List.mem_cons_of_mem _ (h.used exchange hsent)
  once := h.once
  sent := h.sent

theorem Inv.send {flow : Flow} (hflow : flow ∈ s.flows) (hfirst : flow.stateId ∉ s.asked)
    (hlive : s.clock < (flow.pending config).expiresAtSecs) (code : String) :
    Inv config { s with
      pending := (s.pending.take flow.stateId s.clock).2
      asked := flow.stateId :: s.asked
      exchanges := ⟨flow.stateId, flow.request config code, s.clock⟩ :: s.exchanges } where
  distinct := h.distinct
  kept := (h.ask hflow).kept
  signed := h.signed
  begun := (h.ask hflow).begun
  used := by
    intro exchange hsent
    rcases List.mem_cons.mp hsent with rfl | hsent
    · exact List.mem_cons_self
    · exact (h.ask hflow).used exchange hsent
  once := by
    have hnew : flow.stateId ∉ s.exchanges.map Exchange.stateId := by
      intro hin
      obtain ⟨exchange, hsent, hid⟩ := List.mem_map.mp hin
      exact hfirst (hid ▸ h.used exchange hsent)
    exact List.nodup_cons.mpr ⟨hnew, h.once⟩
  sent := by
    intro exchange hsent
    rcases List.mem_cons.mp hsent with rfl | hsent
    · exact ⟨flow, hflow, ⟨rfl, ⟨code, rfl⟩, hlive⟩⟩
    · exact h.sent exchange hsent

/-- One callback, whatever it presents. -/
theorem Inv.callback (hjwt : jwt.Faithful) (query : AuthCallbackQuery jwt) {presentedAt : UInt64}
    (hsigned : ∀ claims, validateState jwt config.oauthStateSecret query.state presentedAt.toNat = .ok claims →
      query.state ∈ s.signed) : Inv config (s.callback jwt config query presentedAt) := by
  unfold System.callback
  split
  · exact h
  · rename_i claims hclaims
    -- Only the token of a flow is accepted, so it is the flow's claims that are looked up.
    obtain ⟨flow, hflow, htoken⟩ | ⟨json, hjson, htoken⟩ := h.signed _ (hsigned claims hclaims)
    · have heq : claims = flow.claims config := by
        rw [htoken] at hclaims
        exact claims_of_validateState hjwt hclaims
      subst heq
      cases htake : (s.pending.take (flow.claims config).stateId s.clock).1 with
      | none =>
        rw [callbackRequest_of_not_found hclaims htake]
        exact h.ask hflow
      | some pending =>
        obtain ⟨hfirst, hlive, rfl⟩ := (h.take_eq_some_iff hflow).mp htake
        rw [callbackRequest_of_found hclaims htake, flow.redeem_pending]
        exact h.send hflow hfirst hlive query.code
    · rw [htoken] at hclaims
      exact absurd hclaims (not_validateState hjwt hjson claims)

theorem Inv.step (hjwt : jwt.Faithful) {s' : System jwt} (hstep : Step jwt s256 spell config s s') : Inv config s' := by
  cases hstep with
  | tick hle => exact h.tick hle
  | session ownerId ttlSecs issuedAt => exact h.sign (OAuthStateClaims.ofJson_session _)
  | grant scope ttlSecs issuedAt => exact h.sign (OAuthStateClaims.ofJson_grant _)
  | authorize hnew _ _ hprovider hok =>
    obtain ⟨hstate, rfl⟩ := authorize_ok hprovider hok
    rw [hstate]
    exact h.authorize hnew
  | callback query _ hsigned => exact h.callback hjwt query hsigned

omit h in
theorem inv_of_reachable (hjwt : jwt.Faithful) (hs : Reachable jwt s256 spell config s) : Inv config s := by
  induction hs with
  | start clock => exact .start clock
  | step _ hstep ih => exact ih.step hjwt hstep

end Invariant

/-- Every state id is exchanged at most once, with what was created for it and while its entry lasted. The callback
that is first to look up a state, with its own token while that is valid, gets through as long as the entry lasts. -/
structure SingleUse {jwt : Jwt} (config : Config) (s : System jwt) : Prop where
  distinct : (s.flows.map Flow.stateId).Nodup
  once : ∀ stateId, (s.exchanges.map Exchange.stateId).count stateId ≤ 1
  own : ∀ exchange ∈ s.exchanges, ∃ flow ∈ s.flows, flow.stateId = exchange.stateId ∧
    exchange.request.codeVerifier = flow.draw.codeVerifier ∧
    exchange.request.redirectUri = config.redirectUri flow.provider ∧
    exchange.request.provider = flow.provider.asStr ∧
    exchange.sentAt < flow.datedAt + config.oauthStateTtlSecs
  first : ∀ flow ∈ s.flows, flow.stateId ∉ s.asked → s.clock < flow.datedAt + config.oauthStateTtlSecs →
    ∀ code presentedAt, presentedAt ≤ flow.issuedAt + config.oauthStateTtlSecs →
      (s.callback jwt config ⟨code, flow.token jwt config⟩ presentedAt).exchanges =
        ⟨flow.stateId, flow.request config code, s.clock⟩ :: s.exchanges

theorem exchanged_once (jwt : Jwt) (hjwt : jwt.Faithful) (s256 : String → String) (spell : jwt.Token → String)
    (config : Config) (s : System jwt) (hs : Reachable jwt s256 spell config s) : SingleUse config s where
  distinct := (inv_of_reachable hjwt hs).distinct
  once := List.nodup_iff_count_le_one.mp (inv_of_reachable hjwt hs).once
  own := by
    intro exchange hsent
    obtain ⟨flow, hflow, hid, ⟨code, hrequest⟩, hlive⟩ := (inv_of_reachable hjwt hs).sent exchange hsent
    rw [hrequest]
    exact ⟨flow, hflow, hid.symm, rfl, rfl, rfl, hlive⟩
  first := by
    intro flow hflow hfirst hlive code presentedAt hvalid
    have hclaims : validateState jwt config.oauthStateSecret (flow.token jwt config) presentedAt.toNat = .ok (flow.claims config) :=
      validateState_fresh hjwt (UInt64.le_iff_toNat_le.mp hvalid)
    have hfound : (s.pending.take (flow.claims config).stateId s.clock).1 = some (flow.pending config) :=
      ((inv_of_reachable hjwt hs).take_eq_some_iff hflow).mpr ⟨hfirst, hlive, rfl⟩
    rw [System.callback, hclaims]
    dsimp only
    rw [callbackRequest_of_found hclaims hfound, flow.redeem_pending]
    rfl

/-- A consent to Google. -/
def aliceFlow : Flow := ⟨.google, ⟨"sid", "verifier"⟩, 1700000000, 1700000000⟩

def aliceBegun : System Jwt.exposed where
  clock := 1700000000
  pending := PendingAuthStore.empty.insert aliceFlow.stateId 1700000000 (aliceFlow.pending .mock)
  signed := [aliceFlow.token Jwt.exposed .mock]
  flows := [aliceFlow]
  asked := []
  exchanges := []

theorem aliceBegun_reachable : Reachable Jwt.exposed id (fun _ => "state") .mock aliceBegun := by
  have hready : ∃ response, authorize Jwt.exposed id .mock (fun _ => "state") .empty aliceFlow.provider.asStr
      aliceFlow.draw aliceFlow.issuedAt aliceFlow.datedAt 1700000000 = (.ok response, aliceBegun.pending) :=
    authorize_configured aliceFlow 1700000000 (by decide)
  obtain ⟨response, hok⟩ := hready
  have hstep := Step.authorize (s := System.start Jwt.exposed 1700000000) List.not_mem_nil (by decide) (by decide)
    (Provider.parse_asStr _) hok
  rw [(authorize_ok (Provider.parse_asStr _) hok).1] at hstep
  exact .step (.start 1700000000) hstep

theorem exchanged_once_alice :
    SingleUse .mock (aliceBegun.callback Jwt.exposed .mock ⟨"code", aliceFlow.token Jwt.exposed .mock⟩ 1700000000) :=
  exchanged_once Jwt.exposed Jwt.exposed_faithful id (fun _ => "state") .mock _
    (.step aliceBegun_reachable (.callback _ (by decide) (fun _ _ => List.mem_cons_self)))

end Memorai.Gateway
