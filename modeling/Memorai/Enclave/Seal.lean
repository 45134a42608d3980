import Memorai.Enclave.Services
import Memorai.Wire.Keystream

/-! The mock seal. It obfuscates under a keystream of its owner, and labels what it made. -/
namespace Memorai.Enclave
open Text Wire

/-- 32 bytes. -/
abbrev Digest := { bytes : List UInt8 // bytes.length = 32 }

structure SealEncrypted where
  ciphertext : List UInt8
  keyId : String
  scheme : String

def mockSealScheme : String := "MOCK_SEAL_V1"

def mockSealMarker : List UInt8 := utf8 "MOCK_SEAL_V1:"

def toBeBytes (n : UInt64) : List UInt8 := (List.range 8).map (fun i => (n >>> (8 * (7 - i)).toUInt64).toUInt8)

section Seal
variable (blake2b256 : List UInt8 → Digest)

def deriveSeed (ownerId : String) : Digest := blake2b256 (utf8 "memorai-mock-seal-v1" ++ utf8 ownerId)

def mockKeyId (seed : Digest) : String := "mock-seal-" ++ hexEncode (seed.val.take 8)

def xorKeystream (seed : Digest) (input : List UInt8) : List UInt8 :=
  Keystream.xorBlocks (by decide : 0 < 32) (fun index => (blake2b256 (seed.val ++ toBeBytes index.toUInt64)).val) 0 input

/-- The first bytes of the keystream of a seed. -/
def keystream (seed : Digest) (length : Nat) : List UInt8 :=
  Keystream.stream (by decide : 0 < 32) (fun index => (blake2b256 (seed.val ++ toBeBytes index.toUInt64)).val) 0 length

def encrypt (ownerId : String) (plaintext : List UInt8) : SealEncrypted :=
  let seed := deriveSeed blake2b256 ownerId
  { ciphertext := mockSealMarker ++ xorKeystream blake2b256 seed plaintext
    keyId := mockKeyId seed
    scheme := mockSealScheme }

def decrypt (ownerId : String) (blob : SealEncrypted) : Except EnclaveError (List UInt8) :=
  let seed := deriveSeed blake2b256 ownerId
  if blob.keyId ≠ mockKeyId seed then .error (.badRequest "key_id does not belong to this owner")
  else
    match mockSealMarker.isPrefixOf? blob.ciphertext with
    | none => .error (.badRequest "not a MOCK_SEAL_V1 blob")
    | some body => .ok (xorKeystream blake2b256 seed body)

end Seal

section Laws
variable {blake2b256 : List UInt8 → Digest} {ownerId : String} {plaintext plaintext' : List UInt8}

theorem xorKeystream_xorKeystream (seed : Digest) (input : List UInt8) :
    xorKeystream blake2b256 seed (xorKeystream blake2b256 seed input) = input :=
  Keystream.xorBlocks_xorBlocks _ (fun _ => (blake2b256 _).property) 0 input

/-- What was sealed for an owner opens for that owner, whatever the scheme says. -/
theorem decrypt_encrypt (scheme : String) :
    decrypt blake2b256 ownerId
      ⟨(encrypt blake2b256 ownerId plaintext).ciphertext, (encrypt blake2b256 ownerId plaintext).keyId, scheme⟩ =
        .ok plaintext := by
  dsimp only [decrypt, encrypt]
  rw [if_neg (not_not.mpr rfl), List.isPrefixOf?_eq_some_iff_append_eq.mpr rfl]
  exact congrArg Except.ok (xorKeystream_xorKeystream _ _)

/-- What opens for an owner has the key id of that owner. -/
theorem keyId_of_decrypt {blob : SealEncrypted} (h : decrypt blake2b256 ownerId blob = .ok plaintext) :
    blob.keyId = mockKeyId (deriveSeed blake2b256 ownerId) := by
  by_contra hne
  rw [decrypt, if_pos hne] at h
  exact absurd h (by simp)

/-- What an owner opens, and what comes out. -/
theorem decrypt_eq_ok_iff {blob : SealEncrypted} : decrypt blake2b256 ownerId blob = .ok plaintext ↔
    blob.keyId = mockKeyId (deriveSeed blake2b256 ownerId) ∧
      blob.ciphertext = mockSealMarker ++ xorKeystream blake2b256 (deriveSeed blake2b256 ownerId) plaintext := by
  constructor
  · intro h
    have hkey := keyId_of_decrypt h
    rw [decrypt, if_neg (not_not.mpr hkey)] at h
    cases hbody : mockSealMarker.isPrefixOf? blob.ciphertext with
    | none =>
      rw [hbody] at h
      exact absurd h (by simp)
    | some body =>
      rw [hbody] at h
      have hplain : xorKeystream blake2b256 (deriveSeed blake2b256 ownerId) body = plaintext := Except.ok.inj h
      rw [← List.isPrefixOf?_eq_some_iff_append_eq.mp hbody, ← hplain, xorKeystream_xorKeystream]
      exact ⟨hkey, rfl⟩
  · rintro ⟨hkey, hcipher⟩
    have hblob : blob = ⟨mockSealMarker ++ xorKeystream blake2b256 (deriveSeed blake2b256 ownerId) plaintext,
        mockKeyId (deriveSeed blake2b256 ownerId), blob.scheme⟩ := by
      rw [← hkey, ← hcipher]
    rw [hblob]
    exact decrypt_encrypt blob.scheme

/-- What an owner does not open. -/
theorem exists_decrypt_error_iff {blob : SealEncrypted} : (∃ err, decrypt blake2b256 ownerId blob = .error err) ↔
    blob.keyId ≠ mockKeyId (deriveSeed blake2b256 ownerId) ∨ ¬ mockSealMarker <+: blob.ciphertext := by
  constructor
  · rintro ⟨err, h⟩
    by_contra! hopen
    obtain ⟨hkey, body, hbody⟩ := hopen
    have hok : decrypt blake2b256 ownerId blob = .ok (xorKeystream blake2b256 (deriveSeed blake2b256 ownerId) body) := by
      rw [decrypt_eq_ok_iff, xorKeystream_xorKeystream]
      exact ⟨hkey, hbody.symm⟩
    exact absurd (h.symm.trans hok) (by simp)
  · intro hshut
    cases h : decrypt blake2b256 ownerId blob with
    | error err => exact ⟨err, rfl⟩
    | ok plaintext =>
      obtain ⟨hkey, hcipher⟩ := decrypt_eq_ok_iff.mp h
      rcases hshut with hother | hbare
      · exact absurd hkey hother
      · exact absurd ⟨_, hcipher.symm⟩ hbare

variable (blake2b256 ownerId) in
/-- To seal for an owner and to open for that owner undo each other, and nothing else opens. -/
theorem seal_open_inverse :
    (∀ plaintext, decrypt blake2b256 ownerId (encrypt blake2b256 ownerId plaintext) = .ok plaintext) ∧
    (∀ blob plaintext, decrypt blake2b256 ownerId blob = .ok plaintext ↔
      blob.keyId = (encrypt blake2b256 ownerId plaintext).keyId ∧
        blob.ciphertext = (encrypt blake2b256 ownerId plaintext).ciphertext) ∧
    ∀ blob, (∃ err, decrypt blake2b256 ownerId blob = .error err) ↔
      blob.keyId ≠ mockKeyId (deriveSeed blake2b256 ownerId) ∨ ¬ mockSealMarker <+: blob.ciphertext := by
  refine ⟨fun plaintext => ?_, fun blob plaintext => ?_, fun blob => ?_⟩
  · exact decrypt_encrypt mockSealScheme
  · exact decrypt_eq_ok_iff
  · exact exists_decrypt_error_iff

/-- Two plaintexts that look the same under two seeds: they differ where the keystreams do. -/
def SameUnder (blake2b256 : List UInt8 → Digest) (seed seed' : Digest) (plaintext plaintext' : List UInt8) : Prop :=
  plaintext.length = plaintext'.length ∧ Keystream.xor plaintext plaintext' =
    Keystream.xor (keystream blake2b256 seed plaintext.length) (keystream blake2b256 seed' plaintext.length)

theorem length_xorKeystream (seed : Digest) (input : List UInt8) :
    (xorKeystream blake2b256 seed input).length = input.length :=
  Keystream.length_xorBlocks _ (fun _ => (blake2b256 _).property) 0 input

theorem xorKeystream_eq_xor (seed : Digest) (input : List UInt8) :
    xorKeystream blake2b256 seed input = Keystream.xor input (keystream blake2b256 seed input.length) :=
  Keystream.xorBlocks_eq_xor _ (fun _ => (blake2b256 _).property) 0 input

theorem length_keystream (seed : Digest) (length : Nat) : (keystream blake2b256 seed length).length = length := by
  rw [keystream, Keystream.stream, Keystream.length_xorBlocks _ (fun _ => (blake2b256 _).property), List.length_replicate]

theorem xorKeystream_eq_iff (seed seed' : Digest) (plaintext plaintext' : List UInt8) :
    xorKeystream blake2b256 seed plaintext = xorKeystream blake2b256 seed' plaintext' ↔
      SameUnder blake2b256 seed seed' plaintext plaintext' := by
  have hiff : plaintext.length = plaintext'.length →
      (xorKeystream blake2b256 seed plaintext = xorKeystream blake2b256 seed' plaintext' ↔ Keystream.xor plaintext plaintext' =
        Keystream.xor (keystream blake2b256 seed plaintext.length) (keystream blake2b256 seed' plaintext.length)) := by
    intro hlen
    rw [xorKeystream_eq_xor, xorKeystream_eq_xor, ← hlen]
    exact Keystream.xor_eq_xor_iff (length_keystream _ _) hlen.symm (length_keystream _ _)
  constructor
  · intro h
    have hlen : plaintext.length = plaintext'.length := by
      rw [← length_xorKeystream seed plaintext, h, length_xorKeystream]
    exact ⟨hlen, (hiff hlen).mp h⟩
  · intro ⟨hlen, h⟩
    exact (hiff hlen).mpr h

/-- Under one seed only a plaintext itself looks like it. -/
theorem sameUnder_self (seed : Digest) : SameUnder blake2b256 seed seed plaintext plaintext' ↔ plaintext = plaintext' := by
  rw [← xorKeystream_eq_iff]
  constructor
  · intro h
    rw [← xorKeystream_xorKeystream seed plaintext, h, xorKeystream_xorKeystream]
  · rintro rfl
    rfl

theorem ciphertext_eq_iff (ownerId' : String) :
    (encrypt blake2b256 ownerId plaintext).ciphertext = (encrypt blake2b256 ownerId' plaintext').ciphertext ↔
      SameUnder blake2b256 (deriveSeed blake2b256 ownerId) (deriveSeed blake2b256 ownerId') plaintext plaintext' := by
  rw [← xorKeystream_eq_iff]
  exact List.append_right_inj mockSealMarker

end Laws
end Memorai.Enclave
