import Memorai.Collections.OneTime
import Memorai.Gateway.Grants

/-! State tokens of the redirect flow, and the half of a pending authorization that stays on the gateway. -/
namespace Memorai.Gateway
open Wire

structure OAuthStateClaims where
  typ : String
  stateId : String
  provider : String
  exp : UInt64

namespace OAuthStateClaims

def fields (claims : OAuthStateClaims) : Fields :=
  [("typ", .str claims.typ), ("state_id", .str claims.stateId), ("provider", .str claims.provider), ("exp", .u64 claims.exp)]

def toJson (claims : OAuthStateClaims) : Json := .obj claims.fields

def ofJson (j : Json) : Option OAuthStateClaims := do
  let fields ← j.record ["typ", "state_id", "provider", "exp"]
  return {
    typ := ← fields.required "typ" Json.string?
    stateId := ← fields.required "state_id" Json.string?
    provider := ← fields.required "provider" Json.string?
    exp := ← fields.required "exp" Json.u64? }

theorem ofJson_toJson (claims : OAuthStateClaims) : ofJson claims.toJson = some claims := by
  have hrecord : claims.toJson.record ["typ", "state_id", "provider", "exp"] = some claims.fields :=
    record_obj rfl (by decide)
  rw [ofJson, hrecord]
  simp [fields, Fields.required, Json.string?, List.lookup_cons]

theorem exp?_toJson (claims : OAuthStateClaims) : claims.toJson.exp? = some claims.exp := by
  simp [toJson, fields, Json.exp?, List.lookup_cons]

/-- A record without a state id is not taken for a state. -/
theorem ofJson_eq_none {fields : Fields} (h : fields.lookup "state_id" = none) : ofJson (.obj fields) = none := by
  have hrequired : fields.required "state_id" Json.string? = none := by
    rw [Fields.required, h]
    rfl
  rw [ofJson, Json.record]
  split
  · cases htyp : fields.required "typ" Json.string? <;> simp [htyp, hrequired]
  · rfl

theorem ofJson_session (claims : SessionClaims) : ofJson claims.toJson = none := ofJson_eq_none rfl

theorem ofJson_grant (claims : GrantClaims) : ofJson claims.toJson = none := ofJson_eq_none rfl

end OAuthStateClaims

structure PendingAuth where
  provider : String
  codeVerifier : String
  redirectUri : String
  expiresAtSecs : UInt64
  deriving DecidableEq, Repr

structure PendingAuthStore where
  entries : OneTime.Entries String PendingAuth

namespace PendingAuthStore
variable (store : PendingAuthStore) (stateId : String) (nowSecs : UInt64)

def empty : PendingAuthStore := ⟨fun _ => none⟩

def insert (pending : PendingAuth) : PendingAuthStore :=
  ⟨OneTime.insert stateId pending (OneTime.retain (fun p => decide (p.expiresAtSecs > nowSecs)) store.entries)⟩

/-- The entry is removed before its age is looked at. -/
def take : Option PendingAuth × PendingAuthStore :=
  match store.entries stateId with
  | none => (none, store)
  | some pending =>
    let store := ⟨OneTime.remove stateId store.entries⟩
    if pending.expiresAtSecs ≤ nowSecs then (none, store) else (some pending, store)

end PendingAuthStore

/-- What is drawn at random for one authorization. -/
structure Draw where
  stateId : String
  codeVerifier : String

section States
variable (jwt : Jwt) (secret : String)

structure IssuedState where
  stateToken : jwt.Token
  stateId : String
  codeVerifier : String
  codeChallenge : String

def stateClaims (provider : String) (ttlSecs nowSecs : UInt64) (draw : Draw) : OAuthStateClaims where
  typ := "oauth_state"
  stateId := draw.stateId
  provider := provider
  exp := nowSecs + ttlSecs

/-- A state, with the verifier that stays here. `s256` is the challenge of a verifier. -/
def issueState (s256 : String → String) (provider : String) (ttlSecs nowSecs : UInt64) (draw : Draw) : IssuedState jwt where
  stateToken := jwt.encode secret (stateClaims provider ttlSecs nowSecs draw).toJson
  stateId := draw.stateId
  codeVerifier := draw.codeVerifier
  codeChallenge := s256 draw.codeVerifier

/-- No leeway: every second of it is a second in which a state could be replayed. -/
def validateState (token : jwt.Token) (nowSecs : Nat) : Except GatewayError OAuthStateClaims :=
  match jwt.verify OAuthStateClaims.ofJson secret 0 nowSecs token with
  | .error e => .error (.unauthorized ("invalid oauth state: " ++ e))
  | .ok claims => if claims.typ ≠ "oauth_state" then .error (.unauthorized "token is not an oauth state token") else .ok claims

end States

section Laws
variable {jwt : Jwt} {secret : String} {nowSecs : Nat}

theorem verify_of_validateState {token : jwt.Token} {claims : OAuthStateClaims}
    (h : validateState jwt secret token nowSecs = .ok claims) :
    jwt.verify OAuthStateClaims.ofJson secret 0 nowSecs token = .ok claims := by
  unfold validateState at h
  split at h
  · exact absurd h (by simp)
  · rename_i hverify
    split at h
    · exact absurd h (by simp)
    · rw [← Except.ok.inj h]
      exact hverify

/-- What is accepted as a state carries the claims that were signed. -/
theorem claims_of_validateState (hjwt : jwt.Faithful) {claims claims' : OAuthStateClaims}
    (h : validateState jwt secret (jwt.encode secret claims.toJson) nowSecs = .ok claims') : claims' = claims :=
  Jwt.verify_encode hjwt (OAuthStateClaims.ofJson_toJson claims) (verify_of_validateState h)

/-- What was not signed as a state is not accepted as one. -/
theorem not_validateState (hjwt : jwt.Faithful) {json : Json} (hread : OAuthStateClaims.ofJson json = none)
    (claims : OAuthStateClaims) : validateState jwt secret (jwt.encode secret json) nowSecs ≠ .ok claims :=
  fun h => Jwt.verify_unread hjwt hread (verify_of_validateState h)

theorem validateState_fresh (hjwt : jwt.Faithful) {provider : String} {ttlSecs issuedAt : UInt64} {draw : Draw}
    (hnow : nowSecs ≤ (issuedAt + ttlSecs).toNat) :
    validateState jwt secret (jwt.encode secret (stateClaims provider ttlSecs issuedAt draw).toJson) nowSecs =
      .ok (stateClaims provider ttlSecs issuedAt draw) := by
  have hverify : jwt.verify OAuthStateClaims.ofJson secret 0 nowSecs
      (jwt.encode secret (stateClaims provider ttlSecs issuedAt draw).toJson) = .ok (stateClaims provider ttlSecs issuedAt draw) :=
    Jwt.verify_fresh hjwt (OAuthStateClaims.ofJson_toJson _) (OAuthStateClaims.exp?_toJson _) hnow
  rw [validateState, hverify]
  rfl

/-- An entry that is found is the one that was there, and it is not too late. -/
theorem take_fst_eq_some_iff {store : PendingAuthStore} {stateId : String} {now : UInt64} {pending : PendingAuth} :
    (store.take stateId now).1 = some pending ↔ store.entries stateId = some pending ∧ now < pending.expiresAtSecs := by
  unfold PendingAuthStore.take
  cases store.entries stateId with
  | none => simp
  | some stored =>
    dsimp only
    split
    · rename_i hlate
      constructor
      · exact fun h => absurd h (by simp)
      · rintro ⟨hstored, hlt⟩
        obtain rfl := Option.some.inj hstored
        exact absurd hlt (UInt64.not_lt.mpr hlate)
    · rename_i hlive
      constructor
      · intro h
        obtain rfl := Option.some.inj h
        exact ⟨rfl, UInt64.not_le.mp hlive⟩
      · exact fun h => h.1

/-- Whatever is found, nothing is left under the state id. -/
theorem take_snd (store : PendingAuthStore) (stateId : String) (now : UInt64) :
    (store.take stateId now).2.entries = OneTime.remove stateId store.entries := by
  unfold PendingAuthStore.take
  cases hentry : store.entries stateId with
  | none => exact (Function.update_eq_self_iff.mpr hentry.symm).symm
  | some stored =>
    dsimp only
    split <;> rfl

end Laws
end Memorai.Gateway
