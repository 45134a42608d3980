import Memorai.Enclave.SealRoutes
import Memorai.Gateway.Grants

/-! Sealing through the gateway. The session says whose key it is, and not the caller. -/
namespace Memorai.Gateway
open Wire
open Enclave (AppState EnclaveError SealEncryptRequest SealEncryptResponse postSealEncrypt)

/-- The gateway with its secret, the enclave behind it, and the library that writes their JSON. -/
structure Deployment where
  jwt : Jwt
  secret : String
  enclave : AppState
  /-- `serde_json::to_string` -/
  jsonText : Json → String

/-- A deployment with tokens that show their secret. -/
def Deployment.mock : Deployment where
  jwt := .exposed
  secret := "test-secret"
  enclave := .mock
  jsonText _ := ""

def errorBody (message : String) : Json := .obj [("error", .str message)]

/-- The status line of an error of the enclave, and its message. -/
def enclaveReply : EnclaveError → String × String
  | .badRequest m => ("400 Bad Request", m)
  | .upstream m => ("502 Bad Gateway", m)
  | .internal m => ("500 Internal Server Error", m)

def gatewayReply : GatewayError → Nat × String
  | .badRequest m => (400, m)
  | .unauthorized m => (401, m)
  | .enclaveUnreachable m => (502, m)
  | .internal m => (500, m)

section Routes
variable (d : Deployment)

/-- What the enclave answered, as its client in the gateway hands it on. -/
def postJson {α : Type} (answer : Except EnclaveError α) : Except GatewayError α :=
  answer.mapError (fun e =>
    let (status, message) := enclaveReply e
    .enclaveUnreachable ("enclave returned " ++ status ++ ": " ++ d.jsonText (errorBody message)))

/-- `POST /memory/seal/encrypt` -/
def sealEncrypt (bearer : Option d.jwt.Token) (req : SealEncryptRequest) (nowSecs : Nat) :
    Except GatewayError SealEncryptResponse := do
  let session ← requireSession d.jwt d.secret bearer nowSecs
  postJson d (postSealEncrypt d.enclave { ownerId := session.ownerId, plaintextB64 := req.plaintextB64 })

end Routes

section Laws
variable {d : Deployment}

/-- A body that was sealed was sealed for the owner of the session. -/
theorem sealEncrypt_ok {bearer : Option d.jwt.Token} {req : SealEncryptRequest} {nowSecs : Nat} {response : SealEncryptResponse}
    (h : sealEncrypt d bearer req nowSecs = .ok response) : ∃ session, requireSession d.jwt d.secret bearer nowSecs = .ok session ∧
      postSealEncrypt d.enclave ⟨session.ownerId, req.plaintextB64⟩ = .ok response := by
  obtain ⟨session, hsession, hanswer⟩ := Results.bind_ok h
  exact ⟨session, hsession, Results.mapError_ok hanswer⟩

theorem sealEncrypt_of_session {bearer : Option d.jwt.Token} {req : SealEncryptRequest} {nowSecs : Nat} {session : SessionClaims}
    {response : SealEncryptResponse} (hsession : requireSession d.jwt d.secret bearer nowSecs = .ok session)
    (hanswer : postSealEncrypt d.enclave ⟨session.ownerId, req.plaintextB64⟩ = .ok response) :
    sealEncrypt d bearer req nowSecs = .ok response := by
  rw [sealEncrypt, hsession]
  change postJson d (postSealEncrypt d.enclave ⟨session.ownerId, req.plaintextB64⟩) = _
  rw [hanswer]
  rfl

end Laws
end Memorai.Gateway
