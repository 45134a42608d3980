import Memorai.Wire.Json

/-! Signed tokens that carry a record and expire. -/
namespace Memorai.Wire

/-- The `exp` claim. -/
def Json.exp? : Json → Option UInt64
  | obj fields => (fields.lookup "exp").bind u64?
  | _ => none

/-- A library for signed tokens. Times are in seconds, and the error texts are its own. -/
structure Jwt where
  Token : Type
  encode : (secret : String) → (claims : Json) → Token
  decode : (secret : String) → (leeway nowSecs : Nat) → Token → Except String Json
  /-- The text for claims that are not of the type asked for. -/
  invalidClaims : String

namespace Jwt

/-- Decodes a token into claims of a type. -/
def verify {α : Type} (jwt : Jwt) (claims? : Json → Option α) (secret : String) (leeway nowSecs : Nat) (token : jwt.Token) :
    Except String α :=
  match jwt.decode secret leeway nowSecs token with
  | .error text => .error text
  | .ok claims =>
    match claims? claims with
    | some a => .ok a
    | none => .error jwt.invalidClaims

/-- Under one secret, what comes out is what went in, and nothing but its age keeps it from coming out. -/
structure Faithful (jwt : Jwt) : Prop where
  lossless : ∀ {secret leeway nowSecs claims claims'},
    jwt.decode secret leeway nowSecs (jwt.encode secret claims) = .ok claims' → claims' = claims
  fresh : ∀ {secret leeway nowSecs claims exp}, claims.exp? = some exp → nowSecs ≤ exp.toNat + leeway →
    jwt.decode secret leeway nowSecs (jwt.encode secret claims) = .ok claims

/-- Past its end and the leeway, a token does not come out. -/
def Expires (jwt : Jwt) : Prop := ∀ {secret leeway nowSecs claims exp}, claims.exp? = some exp → exp.toNat + leeway < nowSecs →
  ∀ claims', jwt.decode secret leeway nowSecs (jwt.encode secret claims) ≠ .ok claims'

section Verify
variable {α : Type} {jwt : Jwt} {claims? : Json → Option α} {secret : String} {leeway nowSecs : Nat} {claims : Json} {a b : α}

theorem verify_encode (h : jwt.Faithful) (hread : claims? claims = some a)
    (hok : jwt.verify claims? secret leeway nowSecs (jwt.encode secret claims) = .ok b) : b = a := by
  unfold verify at hok
  split at hok
  · exact absurd hok (by simp)
  · rename_i claims' hdecode
    obtain rfl := h.lossless hdecode
    rw [hread] at hok
    exact (Except.ok.inj hok).symm

/-- A record of another type is not taken for one. -/
theorem verify_unread (h : jwt.Faithful) (hread : claims? claims = none) :
    jwt.verify claims? secret leeway nowSecs (jwt.encode secret claims) ≠ .ok b := by
  intro hok
  unfold verify at hok
  split at hok
  · exact absurd hok (by simp)
  · rename_i claims' hdecode
    obtain rfl := h.lossless hdecode
    rw [hread] at hok
    exact absurd hok (by simp)

theorem verify_fresh (h : jwt.Faithful) (hread : claims? claims = some a) {exp : UInt64} (hexp : claims.exp? = some exp)
    (hnow : nowSecs ≤ exp.toNat + leeway) :
    jwt.verify claims? secret leeway nowSecs (jwt.encode secret claims) = .ok a := by
  rw [verify, h.fresh hexp hnow]
  dsimp only
  rw [hread]

theorem verify_late (h : jwt.Expires) {exp : UInt64} (hexp : claims.exp? = some exp) (hnow : exp.toNat + leeway < nowSecs) :
    jwt.verify claims? secret leeway nowSecs (jwt.encode secret claims) ≠ .ok b := by
  intro hok
  unfold verify at hok
  split at hok
  · exact absurd hok (by simp)
  · rename_i claims' hdecode
    exact h hexp hnow claims' hdecode

end Verify

/-- Tokens that show their secret, to evaluate runs with. -/
def exposed : Jwt where
  Token := String × Json
  encode := Prod.mk
  decode := fun secret leeway nowSecs token =>
    if token.1 ≠ secret then .error "InvalidSignature"
    else match token.2.exp? with
      | none => .error "MissingRequiredClaim"
      | some exp => if exp.toNat + leeway < nowSecs then .error "ExpiredSignature" else .ok token.2
  invalidClaims := "Json"

theorem exposed_faithful : exposed.Faithful where
  lossless := by
    intro secret leeway nowSecs claims claims' h
    dsimp only [exposed] at h
    split at h
    · exact absurd h (by simp)
    · split at h
      · exact absurd h (by simp)
      · split at h
        · exact absurd h (by simp)
        · exact (Except.ok.inj h).symm
  fresh := by
    intro secret leeway nowSecs claims exp hexp hnow
    dsimp only [exposed]
    rw [if_neg (by simp), hexp]
    exact if_neg (by omega)

theorem exposed_expires : exposed.Expires := by
  intro secret leeway nowSecs claims exp hexp hnow claims'
  dsimp only [exposed]
  rw [if_neg (by simp), hexp]
  dsimp only
  rw [if_pos hnow]
  exact nofun

end Jwt
end Memorai.Wire
