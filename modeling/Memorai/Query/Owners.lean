import Memorai.Gateway.Authority
import Memorai.Query.Answers

/-! What an answer rests on, from the login of the owner to the object that is cited. -/
namespace Memorai.Query
open Shared Schema Storage Wire Retrieval
open Gateway (Allows endMs toNat_endMs allows_cutOff_iff scopeIntrospect Config)
open Gateway.Authority (System Reachable Genuine Mint Authorised mint_of_introspect inv_of_reachable)
open Enclave (AppState)

section Authorize
variable {jwt : Jwt} {secret : String} {state : QueryState jwt} {nowSecs : Nat} {scope : Schema.Scope}

/-- A query that is let in has presented a grant, and its scope is the one in there. -/
theorem introspected_of_authorize (h : authorize jwt secret state nowSecs = .ok scope) :
    ∃ token resp, state.grantToken = some token ∧ scopeIntrospect jwt secret token nowSecs = .ok resp ∧
      Schema.Scope.modelValidate resp.scope.toJson = some scope := by
  unfold authorize at h
  split at h
  · split at h
    · exact absurd h (by simp)
    · exact absurd h (by simp)
  · rename_i token htoken
    unfold introspectScope at h
    split at h
    · exact absurd h (by simp)
    · rename_i resp hresp
      split at h
      · split at h
        · rename_i validated hvalid
          exact ⟨token, resp, htoken, hresp, hvalid.trans (congrArg some (Except.ok.inj h))⟩
        · exact absurd h (by simp)
      · exact absurd h (by simp)

theorem ownerId_of_modelValidate {asked : Shared.Scope} (h : Schema.Scope.modelValidate asked.toJson = some scope) :
    scope.ownerId = asked.ownerId := by
  by_cases hchecked : ∀ source ∈ asked.sources, checkSourceId source.raw = true
  · rw [Scope.modelValidate_toJson hchecked] at h
    exact congrArg Schema.Scope.ownerId (Option.some.inj h).symm
  · obtain ⟨source, hsource, hbad⟩ : ∃ source ∈ asked.sources, ¬ checkSourceId source.raw = true := by simpa using hchecked
    rw [Scope.modelValidate_eq_none hsource hbad] at h
    exact absurd h (by simp)

end Authorize

/-- Whatever a query presents, an answer rests on a grant by an owner who had logged in: it cites and denies objects of
that owner only, and cites none that the request does not open, or after its lifetime as it was computed. -/
theorem answers_rest_on_owners {Vector : Type} {similarity : Vector → String → ℚ} {v : Vector} (jwt : Jwt) (hjwt : jwt.Faithful)
    (hexpires : jwt.Expires) (s256 : String → String) (spell : jwt.Token → String) (jsonText : Json → String) (config : Config)
    (enclave : AppState) (s : System jwt) (hs : Reachable jwt s256 spell jsonText config enclave s) (exp : ℚ → ℚ)
    (found linked : Store) (index : VectorIndex similarity v found.nodes) (state : QueryState jwt)
    (hgenuine : ∀ token ∈ state.grantToken, Genuine config s.log token) (clocks : Clocks) (answer : QueryAnswer)
    (hanswer : runQuery exp found linked index jwt config.sessionJwtSecret state clocks = .ok answer) :
    ∃ mint login, Authorised config enclave s.log mint login ∧ state.grantToken = some (mint.token config) ∧
      (∀ c ∈ answer.citations, ∃ r ∈ found.nodes, r.ownerId = login.ownerId ∧ c = citationOf r.payload ∧
        Allows mint.request.scope r.payload.acl clocks.checked ∧
        clocks.checked < endMs mint.mintedAt mint.request.ttlSecs % 2 ^ 64) ∧
      ∀ d ∈ answer.denied, ∃ r ∈ found.nodes, r.ownerId = login.ownerId ∧ d.id = r.payload.id := by
  obtain ⟨scope, hscope, hunder⟩ := runQuery_ok_iff.mp hanswer
  obtain ⟨token, resp, htoken, hresp, hvalid⟩ := introspected_of_authorize hscope
  obtain ⟨mint, hmint, rfl, hcut⟩ := mint_of_introspect hjwt (hgenuine token htoken) hresp
  obtain ⟨login, hlogin⟩ := (inv_of_reachable hjwt hexpires hs).authorised hmint
  rw [hcut] at hvalid
  have howner : scope.ownerId = login.ownerId := (ownerId_of_modelValidate hvalid).trans hlogin.own
  obtain ⟨hcited, hdenied⟩ := answerUnder_sound hunder
  refine ⟨mint, login, hlogin, htoken, fun c hc => ?_, fun d hd => ?_⟩
  · obtain ⟨r, hr, hown, hallow, rfl⟩ := hcited c hc
    have hopen := allows_cutOff_iff.mp ⟨scope, hvalid, hallow⟩
    rw [toNat_endMs] at hopen
    exact ⟨r, hr, hown.trans howner, rfl, hopen.1, hopen.2⟩
  · obtain ⟨r, hr, hown, _, hid⟩ := hdenied d hd
    exact ⟨r, hr, hown.trans howner, hid⟩

section Alice
open Gateway.Authority (aliceLogin aliceRequest aliceMint aliceGranted aliceGranted_reachable)

/-- A note of Alice's on a project. -/
def aliceNote : Event :=
  { Nearby.document "evt_a" false with
    ownerId := aliceLogin.ownerId
    acl := { (Nearby.document "evt_a" false).acl with ownerId := aliceLogin.ownerId, entityKinds := [.project] } }

def aliceNotes : Store := Nearby.library [aliceNote] []

def aliceIndex : VectorIndex sameWords "evt_a" aliceNotes.nodes where
  order := aliceNotes.nodes
  perm := .refl _
  descending := by decide +kernel

def aliceQuery : QueryState Jwt.exposed where
  question := "Which document?"
  grantToken := some (aliceMint.token .mock)

def aliceAnswer : QueryAnswer :=
  (runQuery (fun _ => 1) aliceNotes aliceNotes aliceIndex Jwt.exposed Config.mock.sessionJwtSecret aliceQuery
    ⟨100, 100000, 100000⟩).toOption.getD ⟨"", false, "", [], [], 0⟩

theorem answers_rest_on_owners_alice : aliceAnswer.citations ≠ [] ∧
    ∃ mint login, Authorised .mock .mock aliceGranted.log mint login ∧
      aliceQuery.grantToken = some (mint.token .mock) ∧
      (∀ c ∈ aliceAnswer.citations, ∃ r ∈ aliceNotes.nodes, r.ownerId = login.ownerId ∧ c = citationOf r.payload ∧
        Allows mint.request.scope r.payload.acl 100000 ∧ 100000 < endMs mint.mintedAt mint.request.ttlSecs % 2 ^ 64) ∧
      ∀ d ∈ aliceAnswer.denied, ∃ r ∈ aliceNotes.nodes, r.ownerId = login.ownerId ∧ d.id = r.payload.id := by
  have hanswer : runQuery (fun _ => 1) aliceNotes aliceNotes aliceIndex Jwt.exposed Config.mock.sessionJwtSecret aliceQuery
      ⟨100, 100000, 100000⟩ = .ok aliceAnswer := by decide +kernel
  refine ⟨by decide +kernel, ?_⟩
  exact answers_rest_on_owners Jwt.exposed Jwt.exposed_faithful Jwt.exposed_expires id (fun _ => "state") (fun _ => "") .mock .mock
    aliceGranted aliceGranted_reachable (fun _ => 1) aliceNotes aliceNotes aliceIndex aliceQuery
    (fun token htoken => by
      obtain rfl := Option.mem_some_iff.mp htoken
      exact fun _ _ _ _ => ⟨_, List.mem_cons_self, rfl⟩) ⟨100, 100000, 100000⟩ aliceAnswer hanswer

end Alice

end Memorai.Query
