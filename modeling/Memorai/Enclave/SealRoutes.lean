import Memorai.Enclave.Routes

/-! Sealing over the wire. What a sealed body comes back with is an attestation of the enclave's key and the key id. -/
namespace Memorai.Enclave
open Text Wire

structure SealEncryptRequest where
  ownerId : String
  plaintextB64 : String

structure SealEncryptResponse where
  ciphertextB64 : String
  keyId : String
  scheme : String
  attestation : String

structure SealDecryptRequest where
  ownerId : String
  ciphertextB64 : String
  keyId : String

structure SealDecryptResponse where
  plaintextB64 : String

section Routes
variable (state : AppState)

/-- The answer to a body that could be decoded. -/
def sealResponse (ownerId : String) (plaintext : List UInt8) : SealEncryptResponse :=
  let sealing := encrypt state.blake2b256 ownerId plaintext
  { ciphertextB64 := state.base64.encode sealing.ciphertext
    keyId := sealing.keyId
    scheme := sealing.scheme
    attestation := getAttestation (state.publicKey ++ utf8 sealing.keyId) }

/-- `POST /seal/encrypt` -/
def postSealEncrypt (req : SealEncryptRequest) : Except EnclaveError SealEncryptResponse :=
  match state.base64.decode req.plaintextB64 with
  | .error e => .error (.badRequest ("plaintext_b64 is not base64: " ++ e))
  | .ok plaintext => .ok (sealResponse state req.ownerId plaintext)

/-- `POST /seal/decrypt` -/
def postSealDecrypt (req : SealDecryptRequest) : Except EnclaveError SealDecryptResponse :=
  match state.base64.decode req.ciphertextB64 with
  | .error e => .error (.badRequest ("ciphertext_b64 is not base64: " ++ e))
  | .ok ciphertext =>
    (decrypt state.blake2b256 req.ownerId ⟨ciphertext, req.keyId, ""⟩).map
      (fun plaintext => ⟨state.base64.encode plaintext⟩)

end Routes

section Laws
variable {state : AppState} {req req' : SealEncryptRequest} {response response' : SealEncryptResponse}

theorem postSealEncrypt_ok (h : postSealEncrypt state req = .ok response) :
    ∃ plaintext, state.base64.decode req.plaintextB64 = .ok plaintext ∧ response = sealResponse state req.ownerId plaintext := by
  unfold postSealEncrypt at h
  cases hdecode : state.base64.decode req.plaintextB64 with
  | error e =>
    rw [hdecode] at h
    exact absurd h (by simp)
  | ok plaintext =>
    rw [hdecode] at h
    exact ⟨plaintext, rfl, (Except.ok.inj h).symm⟩

theorem postSealEncrypt_of_decode {plaintext : List UInt8} (h : state.base64.decode req.plaintextB64 = .ok plaintext) :
    postSealEncrypt state req = .ok (sealResponse state req.ownerId plaintext) := by
  rw [postSealEncrypt, h]

/-- What an owner had sealed opens for them. -/
theorem postSealDecrypt_sealResponse (hbase64 : state.base64.RoundTrips) (ownerId : String) (plaintext : List UInt8) :
    postSealDecrypt state ⟨ownerId, (sealResponse state ownerId plaintext).ciphertextB64, (sealResponse state ownerId plaintext).keyId⟩ =
      .ok ⟨state.base64.encode plaintext⟩ := by
  dsimp only [postSealDecrypt, sealResponse]
  rw [hbase64]
  dsimp only
  rw [decrypt_encrypt]
  rfl

theorem encode_injective (hbase64 : state.base64.RoundTrips) {bytes bytes' : List UInt8}
    (h : state.base64.encode bytes = state.base64.encode bytes') : bytes = bytes' := by
  have hdecode := hbase64 bytes
  rw [h, hbase64] at hdecode
  exact (Except.ok.inj hdecode).symm

/-- The attestation of one enclave says which key id a body was sealed under, and nothing else about it. -/
theorem attestation_eq_iff (ownerId ownerId' : String) (plaintext plaintext' : List UInt8) :
    (sealResponse state ownerId plaintext).attestation = (sealResponse state ownerId' plaintext').attestation ↔
      mockKeyId (deriveSeed state.blake2b256 ownerId) = mockKeyId (deriveSeed state.blake2b256 ownerId') := by
  constructor
  · intro h
    have hcommitted := hexEncode_injective (String.append_right_inj _ |>.mp h)
    exact utf8_injective (List.append_cancel_left hcommitted)
  · intro h
    exact congrArg (fun keyId => getAttestation (state.publicKey ++ utf8 keyId)) h

/-- The owners are told apart by their key ids, or the two plaintexts look the same once sealed. For one owner,
that is to say they are the same. -/
def ToldApart (state : AppState) (req req' : SealEncryptRequest) : Prop :=
  ∀ plaintext plaintext', state.base64.decode req.plaintextB64 = .ok plaintext →
    state.base64.decode req'.plaintextB64 = .ok plaintext' →
    mockKeyId (deriveSeed state.blake2b256 req.ownerId) = mockKeyId (deriveSeed state.blake2b256 req'.ownerId) →
      SameUnder state.blake2b256 (deriveSeed state.blake2b256 req.ownerId) (deriveSeed state.blake2b256 req'.ownerId) plaintext plaintext'

theorem toldApart_of_same_owner {ownerId : String} {plaintext plaintext' : List UInt8} {text text' : String}
    (h : state.base64.decode text = .ok plaintext) (h' : state.base64.decode text' = .ok plaintext') :
    ToldApart state ⟨ownerId, text⟩ ⟨ownerId, text'⟩ ↔ plaintext = plaintext' := by
  constructor
  · intro htold
    exact (sameUnder_self _).mp (htold plaintext plaintext' h h' rfl)
  · rintro rfl p p' hp hp' _
    obtain rfl := Except.ok.inj (h.symm.trans hp)
    obtain rfl := Except.ok.inj (h'.symm.trans hp')
    exact (sameUnder_self _).mpr rfl

end Laws

/-- An attestation tells which of two sealed bodies it came with exactly when the owners' key ids do, or there is
nothing to tell. -/
theorem attestation_names_blob_iff {state : AppState} (hbase64 : state.base64.RoundTrips) {req req' : SealEncryptRequest}
    {response response' : SealEncryptResponse} (h : postSealEncrypt state req = .ok response)
    (h' : postSealEncrypt state req' = .ok response') :
    (response.attestation = response'.attestation → response.ciphertextB64 = response'.ciphertextB64) ↔
      ToldApart state req req' := by
  obtain ⟨plaintext, hdecode, rfl⟩ := postSealEncrypt_ok h
  obtain ⟨plaintext', hdecode', rfl⟩ := postSealEncrypt_ok h'
  rw [attestation_eq_iff]
  constructor
  · intro himp p p' hp hp' hkey
    obtain rfl := Except.ok.inj (hdecode.symm.trans hp)
    obtain rfl := Except.ok.inj (hdecode'.symm.trans hp')
    exact (ciphertext_eq_iff _).mp (encode_injective hbase64 (himp hkey))
  · intro htold hkey
    exact congrArg state.base64.encode ((ciphertext_eq_iff _).mpr (htold plaintext plaintext' hdecode hdecode' hkey))

/-- One byte of one owner. -/
def oneByte (b : UInt8) : SealEncryptRequest := ⟨"google:alice", Base64.standard.encode [b]⟩

theorem oneByte_ok (b : UInt8) : postSealEncrypt .mock (oneByte b) = .ok (sealResponse .mock "google:alice" [b]) :=
  postSealEncrypt_of_decode (Base64.standard_roundTrips [b])

theorem attestation_names_blob_iff_oneByte :
    AppState.mock.base64.RoundTrips ∧
      postSealEncrypt .mock (oneByte 0) = .ok (sealResponse .mock "google:alice" [0]) ∧
      postSealEncrypt .mock (oneByte 1) = .ok (sealResponse .mock "google:alice" [1]) ∧
      (((sealResponse .mock "google:alice" [0]).attestation = (sealResponse .mock "google:alice" [1]).attestation →
        (sealResponse .mock "google:alice" [0]).ciphertextB64 = (sealResponse .mock "google:alice" [1]).ciphertextB64) ↔
          ToldApart .mock (oneByte 0) (oneByte 1)) :=
  ⟨Base64.standard_roundTrips, oneByte_ok 0, oneByte_ok 1,
    attestation_names_blob_iff Base64.standard_roundTrips (oneByte_ok 0) (oneByte_ok 1)⟩

/-- Two bodies of one owner come with one attestation. -/
theorem attestation_shared : ¬ ∀ (state : AppState) (req req' : SealEncryptRequest) (response response' : SealEncryptResponse),
    state.base64.RoundTrips → postSealEncrypt state req = .ok response → postSealEncrypt state req' = .ok response' →
      response.attestation = response'.attestation → response.ciphertextB64 = response'.ciphertextB64 := by
  intro h
  have hcipher : AppState.mock.base64.encode (encrypt AppState.mock.blake2b256 "google:alice" [0]).ciphertext =
      AppState.mock.base64.encode (encrypt AppState.mock.blake2b256 "google:alice" [1]).ciphertext :=
    h .mock (oneByte 0) (oneByte 1) _ _ Base64.standard_roundTrips (oneByte_ok 0) (oneByte_ok 1) rfl
  have hsame := (ciphertext_eq_iff _).mp (encode_injective Base64.standard_roundTrips hcipher)
  exact absurd ((sameUnder_self _).mp hsame) (by decide)

end Memorai.Enclave
