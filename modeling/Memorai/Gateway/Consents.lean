import Memorai.Gateway.Custody

/-! Which consent a source is left with. A callback gets its answer and stores its row at two different moments, and
other callbacks of the same owner may do either in between. -/
namespace Memorai.Gateway.Consents
open Shared Wire Custody
open Enclave (AppState exchangeResponse)

inductive Event
  | exchanged (x : Exchanged)
  | stored (x : Exchanged)

section Runs
variable (jwt : Jwt) (config : Config) (state : AppState)

/-- What happened, the latest first, and where it led. The clock of the enclave never goes back. -/
inductive Run : List Event → Custody.System → Prop
  | start (tokens : InMemoryTokenStore) : Run [] ⟨tokens, [], []⟩
  | exchange {events s x} (hrun : Run events s)
      (hstep : Custody.Step jwt config state s { s with waiting := x :: s.waiting, log := x :: s.log })
      (hclock : ∀ y ∈ s.log, y.response.grantedAtMs ≤ x.response.grantedAtMs) :
      Run (.exchanged x :: events) { s with waiting := x :: s.waiting, log := x :: s.log }
  | store {events s before x after} (hrun : Run events s) (hwaiting : s.waiting = before ++ x :: after) (nowSecs) :
      Run (.stored x :: events) { s with
        tokens := (finishCallback jwt state.base64 config s.tokens x.provider x.response nowSecs).2
        waiting := before ++ after }

end Runs

/-- A callback of the owner for the provider that came with a refresh token. -/
structure Consent (ownerId : String) (provider : Provider) (x : Exchanged) : Prop where
  ofOwner : x.ownerId = ownerId
  ofProvider : x.provider = provider
  refreshes : x.issued.refreshToken.isSome

/-- The row is that of a consent, and no consent was granted later. -/
def Newest (state : AppState) (log : List Exchanged) (ownerId : String) (provider : Provider) (row : SealedOAuthToken) : Prop :=
  ∃ x ∈ log, Consent ownerId provider x ∧ sealedToken state.base64 x.provider x.response = .ok (some row) ∧
    ∀ y ∈ log, Consent ownerId provider y → y.response.grantedAtMs ≤ x.response.grantedAtMs

/-- The last consent to be stored, if another one was exchanged at a later time while it waited. -/
structure Overtaken (events : List Event) (ownerId : String) (provider : Provider) (x y : Exchanged) : Prop where
  consent : Consent ownerId provider x
  other : Consent ownerId provider y
  waited : ∃ later waited earlier, events = later ++ .stored x :: (waited ++ .exchanged x :: earlier) ∧
    (∀ z, .stored z ∈ later → ¬ Consent ownerId provider z) ∧ .exchanged y ∈ waited
  granted : x.response.grantedAtMs < y.response.grantedAtMs

section Rows
variable {jwt : Jwt} {config : Config} {state : AppState} {tokens : InMemoryTokenStore} {x : Exchanged}
  {ownerId : String} {provider : Provider}

theorem sealedToken_of_refreshes (hbase64 : state.base64.RoundTrips) (hanswered : Answered state x)
    (hrefreshes : x.issued.refreshToken.isSome) :
    ∃ row, sealedToken state.base64 x.provider x.response = .ok (some row) ∧ row.ownerId = x.ownerId ∧
      row.provider = x.provider.asStr := by
  obtain ⟨refreshToken, hissued⟩ := Option.isSome_iff_exists.mp hrefreshes
  obtain ⟨nowMs, hresponse⟩ := hanswered
  have hdecode : ∀ bytes, state.base64.decode (state.base64.encode bytes) = .ok bytes := hbase64
  rw [sealedToken, hresponse, exchangeResponse, hissued]
  simp only [Option.map_some, hdecode]
  exact ⟨_, rfl, rfl, rfl⟩

theorem grantedAtMs_of_sealedToken {row : SealedOAuthToken}
    (hrow : sealedToken state.base64 x.provider x.response = .ok (some row)) :
    row.grantedAtMs = x.response.grantedAtMs.toInt64 := by
  unfold sealedToken at hrow
  split at hrow
  · exact absurd hrow (by simp)
  · split at hrow
    · exact absurd hrow (by simp)
    · obtain rfl := Option.some.inj (Except.ok.inj hrow)
      rfl

theorem sealedToken_of_none (hanswered : Answered state x) (hnone : x.issued.refreshToken = none) :
    sealedToken state.base64 x.provider x.response = .ok none := by
  obtain ⟨nowMs, hresponse⟩ := hanswered
  rw [sealedToken, hresponse, exchangeResponse, hnone]
  rfl

theorem finishCallback_tokens {row : Option SealedOAuthToken}
    (hrow : sealedToken state.base64 x.provider x.response = .ok row) (nowSecs : UInt64) :
    (finishCallback jwt state.base64 config tokens x.provider x.response nowSecs).2 = row.elim tokens tokens.upsert := by
  rw [finishCallback, hrow]

/-- A consent that is stored is there, whatever was there before. -/
theorem get_of_consent (hbase64 : state.base64.RoundTrips) (hanswered : Answered state x)
    (hconsent : Consent ownerId provider x) (nowSecs : UInt64) :
    ∃ row, sealedToken state.base64 x.provider x.response = .ok (some row) ∧
      (finishCallback jwt state.base64 config tokens x.provider x.response nowSecs).2.get ownerId provider.asStr = some row := by
  obtain ⟨row, hrow, howner, hprovider⟩ := sealedToken_of_refreshes hbase64 hanswered hconsent.refreshes
  refine ⟨row, hrow, ?_⟩
  rw [finishCallback_tokens hrow, ← hconsent.ofOwner, ← hconsent.ofProvider, ← howner, ← hprovider]
  exact tokens.get_upsert_self row

/-- Any other callback leaves it there. -/
theorem get_of_not_consent (hbase64 : state.base64.RoundTrips) (hanswered : Answered state x)
    (hother : ¬ Consent ownerId provider x) (nowSecs : UInt64) :
    (finishCallback jwt state.base64 config tokens x.provider x.response nowSecs).2.get ownerId provider.asStr =
      tokens.get ownerId provider.asStr := by
  cases hissued : x.issued.refreshToken with
  | none => rw [finishCallback_tokens (sealedToken_of_none hanswered hissued), Option.elim_none]
  | some refreshToken =>
    have hrefreshes : x.issued.refreshToken.isSome := by rw [hissued]; rfl
    obtain ⟨row, hrow, howner, hprovider⟩ := sealedToken_of_refreshes hbase64 hanswered hrefreshes
    rw [finishCallback_tokens hrow, Option.elim_some]
    apply tokens.get_upsert_of_ne
    intro hkey
    obtain ⟨hkeyOwner, hkeyProvider⟩ := Prod.mk.inj hkey
    apply hother
    refine ⟨?_, ?_, hrefreshes⟩
    · rw [hkeyOwner, howner]
    · apply Option.some.inj
      rw [← Provider.parse_asStr x.provider, ← hprovider, ← hkeyProvider, Provider.parse_asStr]

/-- A step that exchanges a code answers as the enclave does. -/
theorem answered_of_step {s s' : Custody.System} (hstep : Custody.Step jwt config state s s') (hlog : s'.log = x :: s.log) :
    Answered state x := by
  cases hstep with
  | @exchange z _ _ _ _ _ _ hrequest hissued hsignal hresponse =>
    obtain rfl : z = x := (List.cons.inj hlog).1
    exact answered_of_exchange hrequest hissued hsignal hresponse
  | store => exact absurd hlog.symm (List.cons_ne_self x s.log)

end Rows

namespace Run
variable {jwt : Jwt} {config : Config} {state : AppState} {s : Custody.System} {events later earlier : List Event}
  {x y : Exchanged}
  {ownerId : String} {provider : Provider}

/-- What waits was answered by the enclave. -/
theorem answered (h : Run jwt config state events s) : ∀ x ∈ s.waiting, Answered state x := by
  induction h with
  | start => exact fun _ hx => absurd hx List.not_mem_nil
  | exchange hrun hstep hclock ih =>
    intro y hy
    rcases List.mem_cons.mp hy with rfl | hy
    · exact answered_of_step hstep rfl
    · exact ih y hy
  | store hrun hwaiting nowSecs ih =>
    intro y hy
    apply ih
    rw [hwaiting, List.mem_append, List.mem_cons]
    exact (List.mem_append.mp hy).imp_right Or.inr

theorem exchanged_iff (h : Run jwt config state events s) (x : Exchanged) : .exchanged x ∈ events ↔ x ∈ s.log := by
  induction h with
  | start => simp
  | exchange hrun hstep hclock ih => simp [ih]
  | store hrun hwaiting nowSecs ih => simp [ih]

theorem exchanged_of_waiting (h : Run jwt config state events s) (hx : x ∈ s.waiting) : .exchanged x ∈ events := by
  rw [h.exchanged_iff]
  induction h with
  | start => exact absurd hx List.not_mem_nil
  | exchange hrun hstep hclock ih =>
    rcases List.mem_cons.mp hx with rfl | hx
    · exact List.mem_cons_self
    · exact List.mem_cons_of_mem _ (ih hx)
  | store hrun hwaiting nowSecs ih =>
    apply ih
    rw [hwaiting, List.mem_append, List.mem_cons]
    exact (List.mem_append.mp hx).imp_right Or.inr

/-- A run is a run up to any of its moments. -/
theorem before (h : Run jwt config state (later ++ earlier) s) : ∃ s₀, Run jwt config state earlier s₀ := by
  induction later generalizing s with
  | nil => exact ⟨s, h⟩
  | cons event later ih =>
    cases h with
    | exchange hrun _ _ => exact ih hrun
    | store hrun _ _ => exact ih hrun

/-- What is stored was exchanged. -/
theorem exchanged_of_stored (h : Run jwt config state (later ++ .stored x :: earlier) s) :
    .exchanged x ∈ earlier ∧ Answered state x := by
  obtain ⟨s₀, hrun⟩ := h.before
  cases hrun with
  | @store _ s before x after hrun hwaiting nowSecs =>
    have hx : x ∈ s.waiting := by
      rw [hwaiting]
      exact List.mem_append_right _ List.mem_cons_self
    exact ⟨hrun.exchanged_of_waiting hx, hrun.answered x hx⟩

/-- What was exchanged before was granted no later. -/
theorem granted_le (h : Run jwt config state (later ++ .exchanged x :: earlier) s) (hy : .exchanged y ∈ earlier) :
    y.response.grantedAtMs ≤ x.response.grantedAtMs := by
  obtain ⟨s₀, hrun⟩ := h.before
  cases hrun with
  | exchange hrun hstep hclock => exact hclock y ((hrun.exchanged_iff y).mp hy)

/-- What was exchanged waits until it is stored. -/
theorem waiting_or_stored (h : Run jwt config state (later ++ .exchanged x :: earlier) s) :
    x ∈ s.waiting ∨ .stored x ∈ later := by
  induction later generalizing s with
  | nil =>
    cases h with
    | exchange hrun hstep hclock => exact .inl List.mem_cons_self
  | cons event later ih =>
    cases h with
    | exchange hrun hstep hclock =>
      exact (ih hrun).imp (List.mem_cons_of_mem _) (List.mem_cons_of_mem _)
    | @store _ s before z after hrun hwaiting nowSecs =>
      rcases ih hrun with hx | hx
      · rw [hwaiting, List.mem_append, List.mem_cons] at hx
        rcases hx with hx | rfl | hx
        · exact .inl (List.mem_append_left _ hx)
        · exact .inr List.mem_cons_self
        · exact .inl (List.mem_append_right _ hx)
      · exact .inr (List.mem_cons_of_mem _ hx)

theorem stored_of_done (h : Run jwt config state (later ++ .exchanged x :: earlier) s) (hdone : s.waiting = []) :
    .stored x ∈ later := by
  rcases h.waiting_or_stored with hx | hx
  · rw [hdone] at hx
    exact absurd hx List.not_mem_nil
  · exact hx

/-- The row is that of the last consent to be stored. -/
theorem get_last (hbase64 : state.base64.RoundTrips) (h : Run jwt config state (later ++ .stored x :: earlier) s)
    (hconsent : Consent ownerId provider x) (hlast : ∀ z, .stored z ∈ later → ¬ Consent ownerId provider z) :
    ∃ row, sealedToken state.base64 x.provider x.response = .ok (some row) ∧
      s.tokens.get ownerId provider.asStr = some row := by
  induction later generalizing s with
  | nil =>
    have hanswered := h.exchanged_of_stored.2
    cases h with
    | store hrun hwaiting nowSecs => exact get_of_consent hbase64 hanswered hconsent nowSecs
  | cons event later ih =>
    have hbefore : ∀ z, .stored z ∈ later → ¬ Consent ownerId provider z := fun z hz => hlast z (List.mem_cons_of_mem _ hz)
    cases h with
    | exchange hrun hstep hclock =>
      obtain ⟨row, hrow, hget⟩ := ih hrun hbefore
      exact ⟨row, hrow, hget⟩
    | @store _ s before z after hrun hwaiting nowSecs =>
      obtain ⟨row, hrow, hget⟩ := ih hrun hbefore
      have hz : z ∈ s.waiting := by
        rw [hwaiting]
        exact List.mem_append_right _ List.mem_cons_self
      refine ⟨row, hrow, ?_⟩
      rw [get_of_not_consent hbase64 (hrun.answered z hz) (hlast z List.mem_cons_self) nowSecs]
      exact hget

end Run

/-- If there is a consent, the newest one's row is stored. -/
def NewestWins (state : AppState) (s : Custody.System) (ownerId : String) (provider : Provider) : Prop :=
  (∃ x ∈ s.log, Consent ownerId provider x) →
    ∃ row, s.tokens.get ownerId provider.asStr = some row ∧ Newest state s.log ownerId provider row

section Wins
variable {jwt : Jwt} {config : Config} {state : AppState} {s : Custody.System} {events : List Event} {ownerId : String}
  {provider : Provider}

/-- Among the stored consents there is a last one. -/
theorem exists_last (h : ∃ x, .stored x ∈ events ∧ Consent ownerId provider x) :
    ∃ later x earlier, events = later ++ .stored x :: earlier ∧ Consent ownerId provider x ∧
      ∀ z, .stored z ∈ later → ¬ Consent ownerId provider z := by
  induction events with
  | nil => simp at h
  | cons event events ih =>
    by_cases hhead : ∃ x, event = .stored x ∧ Consent ownerId provider x
    · obtain ⟨x, rfl, hconsent⟩ := hhead
      exact ⟨[], x, events, rfl, hconsent, fun z hz => absurd hz List.not_mem_nil⟩
    · have htail : ∃ x, .stored x ∈ events ∧ Consent ownerId provider x := by
        obtain ⟨x, hx, hconsent⟩ := h
        rcases List.mem_cons.mp hx with heq | hx
        · exact absurd ⟨x, heq.symm, hconsent⟩ hhead
        · exact ⟨x, hx, hconsent⟩
      obtain ⟨later, x, earlier, rfl, hconsent, hlater⟩ := ih htail
      refine ⟨event :: later, x, earlier, rfl, hconsent, ?_⟩
      intro z hz hother
      rcases List.mem_cons.mp hz with heq | hz
      · exact hhead ⟨z, heq.symm, hother⟩
      · exact hlater z hz hother

theorem newestWins_of_not_overtaken (hbase64 : state.base64.RoundTrips) (hrun : Run jwt config state events s)
    (hdone : s.waiting = []) (hnot : ∀ x y, ¬ Overtaken events ownerId provider x y) :
    NewestWins state s ownerId provider := by
  rintro ⟨x₀, hx₀, hconsent₀⟩
  have hlast : ∃ x, .stored x ∈ events ∧ Consent ownerId provider x := by
    obtain ⟨later, earlier, hevents⟩ := List.append_of_mem ((hrun.exchanged_iff x₀).mpr hx₀)
    subst hevents
    exact ⟨x₀, List.mem_append_left _ (hrun.stored_of_done hdone), hconsent₀⟩
  obtain ⟨later, x, rest, hevents, hconsent, hlater⟩ := exists_last hlast
  subst hevents
  obtain ⟨waited, earlier, rfl⟩ := List.append_of_mem hrun.exchanged_of_stored.1
  obtain ⟨row, hrow, hget⟩ := hrun.get_last hbase64 hconsent hlater
  have hxlog : x ∈ s.log := by
    rw [← hrun.exchanged_iff]
    simp
  refine ⟨row, hget, x, hxlog, hconsent, hrow, ?_⟩
  intro y hy hyconsent
  have hevent := (hrun.exchanged_iff y).mpr hy
  simp only [List.mem_append, List.mem_cons, Event.exchanged.injEq, reduceCtorEq, false_or] at hevent
  rcases hevent with hy | hy | rfl | hy
  · -- an exchange after the last store is not stored any more
    obtain ⟨pre, post, rfl⟩ := List.append_of_mem hy
    rw [List.append_assoc] at hrun
    exact absurd hyconsent (hlater y (List.mem_append_left _ (hrun.stored_of_done hdone)))
  · by_contra hlt
    exact hnot x y ⟨hconsent, hyconsent, ⟨later, waited, earlier, rfl, hlater, hy⟩, UInt64.not_le.mp hlt⟩
  · exact UInt64.le_refl _
  · have hsplit : later ++ .stored x :: (waited ++ .exchanged x :: earlier) =
        (later ++ .stored x :: waited) ++ .exchanged x :: earlier := by simp
    rw [hsplit] at hrun
    exact hrun.granted_le hy

theorem not_newestWins_of_overtaken (hbase64 : state.base64.RoundTrips) (hrun : Run jwt config state events s)
    {x y : Exchanged} (h : Overtaken events ownerId provider x y) : ¬ NewestWins state s ownerId provider := by
  intro hwins
  obtain ⟨later, waited, earlier, rfl, hlater, hy⟩ := h.waited
  have hylog : y ∈ s.log := by
    rw [← hrun.exchanged_iff]
    simp [hy]
  obtain ⟨row, hget, z, hz, hzconsent, hzrow, hnewest⟩ := hwins ⟨y, hylog, h.other⟩
  obtain ⟨row', hrow', hget'⟩ := hrun.get_last hbase64 h.consent hlater
  obtain rfl : row = row' := Option.some.inj (hget.symm.trans hget')
  have hgranted : z.response.grantedAtMs = x.response.grantedAtMs := by
    have hcast : z.response.grantedAtMs.toInt64 = x.response.grantedAtMs.toInt64 :=
      (grantedAtMs_of_sealedToken hzrow).symm.trans (grantedAtMs_of_sealedToken hrow')
    exact congrArg Int64.toUInt64 hcast
  apply UInt64.not_le.mpr h.granted
  rw [← hgranted]
  exact hnewest y hylog h.other

end Wins

/-- Once every callback has ended, the newest consent is the one that is stored, unless the last one to be stored
waited while a later one was exchanged. -/
theorem newest_wins_iff (jwt : Jwt) (config : Config) (state : AppState) (hbase64 : state.base64.RoundTrips)
    (events : List Event) (s : Custody.System) (hrun : Run jwt config state events s) (hdone : s.waiting = []) (ownerId : String)
    (provider : Provider) :
    NewestWins state s ownerId provider ↔ ∀ x y, ¬ Overtaken events ownerId provider x y := by
  constructor
  · exact fun hwins x y hover => not_newestWins_of_overtaken hbase64 hrun hover hwins
  · exact newestWins_of_not_overtaken hbase64 hrun hdone

section Alice

def aliceAt (nowMs : UInt64) : Exchanged where
  provider := .google
  issued := Enclave.mockGoogleTokens "alice"
  signal := Enclave.mockGoogleAccount "alice"
  response := exchangeResponse .mock .google (Enclave.mockGoogleTokens "alice") (Enclave.mockGoogleAccount "alice") nowMs

theorem consent_aliceAt (nowMs : UInt64) : Consent (aliceAt 0).ownerId .google (aliceAt nowMs) := ⟨rfl, rfl, rfl⟩

/-- A consent of the mock account may be exchanged at any time. -/
theorem step_aliceAt (s : Custody.System) (nowMs : UInt64) : Custody.Step Jwt.exposed .mock .mock s
    { s with waiting := aliceAt nowMs :: s.waiting, log := aliceAt nowMs :: s.log } := by
  let client := Enclave.client .mock .silent
  have hissued : (client .google).exchangeCode ("mock_code_google_" ++ "alice") "uri" "verifier" = .ok (aliceAt nowMs).issued :=
    Enclave.google_exchangeCode_mock (by decide) _ _ _
  have hsignal : (client .google).verify (aliceAt nowMs).issued.accessToken = .ok (aliceAt nowMs).signal :=
    Enclave.google_verify_mock (by decide) _
  have hresponse : Enclave.exchange .mock client ⟨"google", "mock_code_google_" ++ "alice", "uri", "verifier"⟩ nowMs =
      .ok (aliceAt nowMs).response := Enclave.exchange_of_ok rfl (by decide) hissued hsignal nowMs
  have hrequest : redeem ⟨"oauth_state", "sid", "google", 0⟩ ⟨"google", "verifier", "uri", 0⟩ ("mock_code_google_" ++ "alice") =
      .ok (.google, ⟨"google", "mock_code_google_" ++ "alice", "uri", "verifier"⟩) := rfl
  exact .exchange client nowMs hrequest hissued hsignal hresponse

end Alice

theorem newest_wins_iff_once : ∃ s, Run Jwt.exposed .mock .mock [.stored (aliceAt 0), .exchanged (aliceAt 0)] s ∧
    (NewestWins .mock s (aliceAt 0).ownerId .google ↔
      ∀ x y, ¬ Overtaken [.stored (aliceAt 0), .exchanged (aliceAt 0)] (aliceAt 0).ownerId .google x y) := by
  have hexchanged := Run.exchange (.start .empty) (step_aliceAt _ 0) (fun y hy => absurd hy List.not_mem_nil)
  have hstored := Run.store hexchanged (show _ = [] ++ [aliceAt 0] from rfl) 0
  exact ⟨_, hstored, newest_wins_iff _ _ _ Base64.standard_roundTrips _ _ hstored rfl _ _⟩

/-- The first consent stores its row after the second one did, and is the one that stays. -/
theorem older_consent_stays : ∃ events s, Run Jwt.exposed .mock .mock events s ∧ s.waiting = [] ∧
    s.log = [aliceAt 1, aliceAt 0] ∧ (∀ x ∈ s.log, Consent (aliceAt 0).ownerId .google x) ∧
    ¬ NewestWins .mock s (aliceAt 0).ownerId .google := by
  have hfirst := Run.exchange (.start .empty) (step_aliceAt _ 0) (fun y hy => absurd hy List.not_mem_nil)
  have hsecond := Run.exchange hfirst (step_aliceAt _ 1) (fun y hy => by
    obtain rfl := List.mem_singleton.mp hy
    decide)
  have hsecondStored := Run.store hsecond (show _ = [] ++ [aliceAt 1, aliceAt 0] from rfl) 0
  have hfirstStored := Run.store hsecondStored (show _ = [] ++ [aliceAt 0] from rfl) 0
  refine ⟨_, _, hfirstStored, rfl, rfl, ?_, ?_⟩
  · intro x hx
    rcases List.mem_cons.mp hx with rfl | hx
    · exact consent_aliceAt 1
    · obtain rfl := List.mem_singleton.mp hx
      exact consent_aliceAt 0
  · apply not_newestWins_of_overtaken Base64.standard_roundTrips hfirstStored
    show Overtaken _ _ _ (aliceAt 0) (aliceAt 1)
    exact {
      consent := consent_aliceAt 0
      other := consent_aliceAt 1
      waited := ⟨[], [.stored (aliceAt 1), .exchanged (aliceAt 1)], [], rfl, fun _ hz => absurd hz List.not_mem_nil, by simp⟩
      granted := by decide }

end Memorai.Gateway.Consents
