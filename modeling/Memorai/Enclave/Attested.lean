import Memorai.Enclave.SealRoutes
import Memorai.Shared.IdentityJson

/-! What an attestation of the enclave is a statement of. Four routes commit to something behind the public key, and
none of them delimits it. -/
namespace Memorai.Enclave
open Shared Text Wire Results

/-- `GET /attest` -/
def attest (state : AppState) : String := getAttestation state.publicKey

/-- A response of a route that attests something. -/
inductive Response where
  | attest (attestation : String)
  | identityVerify (response : IdentityVerifyResponse)
  | oauthExchange (response : OAuthExchangeResponse)
  | sealEncrypt (response : SealEncryptResponse)

/-- What a response stands for, by the route it comes from. -/
inductive Fact where
  | enclaveKey
  | identity (verified : OwnerIdentity)
  | grant (ownerId provider : String) (sealedKeyId : Option String)
  | sealedUnder (keyId : String)
  deriving DecidableEq, Repr

namespace Response

def attestation : Response → String
  | .attest attestation => attestation
  | .identityVerify response => response.attestation
  | .oauthExchange response => response.attestation
  | .sealEncrypt response => response.attestation

def fact : Response → Fact
  | .attest _ => .enclaveKey
  | .identityVerify response => .identity response.identity
  | .oauthExchange response => .grant response.identity.ownerId response.provider response.sealedKeyId
  | .sealEncrypt response => .sealedUnder response.keyId

end Response

/-- The successful responses of one enclave, to any requests at any times and whatever the providers answer. -/
inductive Served (state : AppState) : Response → Prop
  | attest : Served state (.attest (Enclave.attest state))
  | identityVerify {endpoints req response} (h : verify state endpoints req = .ok response) :
      Served state (.identityVerify response)
  | oauthExchange {client req nowMs response} (h : exchange state client req nowMs = .ok response) :
      Served state (.oauthExchange response)
  | sealEncrypt {req response} (h : postSealEncrypt state req = .ok response) : Served state (.sealEncrypt response)

section Statements
variable (serialize : OwnerIdentity → List UInt8)

/-- What is committed behind the public key. -/
def Fact.statement : Fact → List UInt8
  | .enclaveKey => []
  | .identity verified => serialize verified
  | .grant ownerId provider sealedKeyId => utf8 ownerId ++ utf8 provider ++ sealedKeyId.elim [] utf8
  | .sealedUnder keyId => utf8 keyId

/-- A fact with the spellings the routes give owners, providers and keys. -/
inductive Fact.Spelled : Fact → Prop
  | enclaveKey : Spelled .enclaveKey
  | identity (verified : OwnerIdentity) : Spelled (.identity verified)
  | grant (owner : List UInt8) (provider : Provider) (sealedKeyId : Option String)
      (h : ∀ keyId ∈ sealedKeyId, ∃ rest, keyId = "mock-seal-" ++ rest) :
      Spelled (.grant (hexEncode owner) provider.asStr sealedKeyId)
  | sealedUnder (rest : String) : Spelled (.sealedUnder ("mock-seal-" ++ rest))

variable {state : AppState} {response : Response}

theorem Served.spelled (h : Served state response) : response.fact.Spelled := by
  cases h with
  | attest => exact .enclaveKey
  | identityVerify h => exact .identity _
  | oauthExchange h =>
    obtain ⟨provider, exchanged, signal, _, _, _, rfl⟩ := exchange_ok h
    refine .grant _ provider _ (fun keyId hkeyId => ?_)
    obtain ⟨sealing, hsealing, rfl⟩ := Option.map_eq_some_iff.mp hkeyId
    obtain ⟨refreshToken, _, rfl⟩ := Option.map_eq_some_iff.mp hsealing
    exact ⟨_, rfl⟩
  | sealEncrypt h =>
    obtain ⟨plaintext, _, rfl⟩ := postSealEncrypt_ok h
    exact .sealedUnder _

/-- Every response commits to the public key and to its fact. -/
theorem Served.attestation_eq (h : Served state response) :
    response.attestation = getAttestation (state.publicKey ++ response.fact.statement state.serialize) := by
  cases h with
  | attest => exact congrArg getAttestation (List.append_nil state.publicKey).symm
  | @identityVerify endpoints req response h =>
    unfold verify at h
    obtain ⟨google, _, h⟩ := bind_ok h
    obtain ⟨gitHub, _, h⟩ := bind_ok h
    obtain ⟨hsignals, rfl⟩ := answerLogin_ok h
    rfl
  | oauthExchange h =>
    obtain ⟨provider, exchanged, signal, _, _, _, rfl⟩ := exchange_ok h
    cases hrefresh : exchanged.refreshToken <;>
      simp [Response.attestation, Response.fact, Fact.statement, exchangeResponse, computeIdentity, hrefresh]
  | sealEncrypt h =>
    obtain ⟨plaintext, _, rfl⟩ := postSealEncrypt_ok h
    rfl

end Statements

section Telling

/-- What is committed to as text, of everything but identities. -/
def Fact.text? : Fact → Option String
  | .enclaveKey => some ""
  | .identity _ => none
  | .grant ownerId provider sealedKeyId => some (ownerId ++ provider ++ sealedKeyId.getD "")
  | .sealedUnder keyId => some keyId

variable {serialize : OwnerIdentity → List UInt8} {fact fact' : Fact} {text : String}

theorem statement_of_text (h : fact.text? = some text) : fact.statement serialize = utf8 text := by
  cases fact with
  | enclaveKey =>
    obtain rfl := Option.some.inj h
    rfl
  | identity verified => cases h
  | grant ownerId provider sealedKeyId =>
    obtain rfl := Option.some.inj h
    rw [utf8_append, utf8_append]
    cases sealedKeyId <;> rfl
  | sealedUnder keyId =>
    obtain rfl := Option.some.inj h
    rfl

/-- Behind the digits of the owner stands the first letter of the provider, which is none. -/
theorem toList_grant (owner : List UInt8) (provider : Provider) (sealedKeyId : Option String) :
    (hexEncode owner ++ provider.asStr ++ sealedKeyId.getD "").toList =
      (hexEncode owner).toList ++ 'g' :: (provider.asStr.toList.tail ++ (sealedKeyId.getD "").toList) := by
  rw [String.toList_append, String.toList_append, List.append_assoc]
  cases provider <;> rfl

/-- A grant begins with a digit or with the letter of its provider. -/
theorem toList_grant_ne (owner : List UInt8) (provider : Provider) (sealedKeyId : Option String) {c : Char} (hc : c ∉ hexAlphabet)
    (hg : 'g' ≠ c) (rest : List Char) : (hexEncode owner ++ provider.asStr ++ sealedKeyId.getD "").toList ≠ c :: rest := by
  intro h
  rw [toList_grant, ← List.nil_append (c :: rest)] at h
  obtain ⟨_, hletters⟩ := append_inj_of_outside (p := (· ∈ hexAlphabet)) (fun _ => mem_hexAlphabet) (by decide)
    (fun _ hx => absurd hx List.not_mem_nil) hc h
  exact hg (List.cons.inj hletters).1

theorem toList_keyId (rest : String) : ("mock-seal-" ++ rest).toList = 'm' :: ("ock-seal-".toList ++ rest.toList) := by
  rw [String.toList_append]
  rfl

theorem grant_inj {owner owner' : List UInt8} {provider provider' : Provider} {sealedKeyId sealedKeyId' : Option String}
    (hkey : ∀ keyId ∈ sealedKeyId, ∃ rest, keyId = "mock-seal-" ++ rest)
    (hkey' : ∀ keyId ∈ sealedKeyId', ∃ rest, keyId = "mock-seal-" ++ rest)
    (h : hexEncode owner ++ provider.asStr ++ sealedKeyId.getD "" = hexEncode owner' ++ provider'.asStr ++ sealedKeyId'.getD "") :
    hexEncode owner = hexEncode owner' ∧ provider = provider' ∧ sealedKeyId = sealedKeyId' := by
  have hlists := congrArg String.toList h
  rw [toList_grant, toList_grant] at hlists
  obtain ⟨howner, hrest⟩ := append_inj_of_outside (p := (· ∈ hexAlphabet)) (fun _ => mem_hexAlphabet) (by decide)
    (fun _ => mem_hexAlphabet) (by decide) hlists
  have hproviders : provider = provider' := by
    cases provider <;> cases provider' <;> first | rfl | exact absurd hrest (by simp [Provider.asStr])
  subst hproviders
  have hkeys := String.toList_injective (List.append_cancel_left (List.cons.inj hrest).2)
  refine ⟨String.toList_injective howner, rfl, ?_⟩
  cases sealedKeyId with
  | none =>
    cases sealedKeyId' with
    | none => rfl
    | some keyId =>
      obtain ⟨rest, rfl⟩ := hkey' keyId rfl
      exact absurd (congrArg String.toList hkeys) (by simp)
  | some keyId =>
    cases sealedKeyId' with
    | none =>
      obtain ⟨rest, rfl⟩ := hkey keyId rfl
      exact absurd (congrArg String.toList hkeys) (by simp)
    | some keyId' => exact congrArg some hkeys

theorem Fact.Spelled.text_ne (h : fact.Spelled) (htext : fact.text? = some text) (rest : List Char) :
    text.toList ≠ '\x7b' :: rest := by
  cases h with
  | enclaveKey =>
    obtain rfl := Option.some.inj htext
    simp
  | identity verified => cases htext
  | grant owner provider sealedKeyId _ =>
    obtain rfl := Option.some.inj htext
    exact toList_grant_ne owner provider sealedKeyId (by decide) (by decide) rest
  | sealedUnder =>
    obtain rfl := Option.some.inj htext
    rw [toList_keyId]
    exact fun h => absurd (List.cons.inj h).1 (by decide)

/-- The text of a key alone is empty, that of a sealed blob begins with the letter of its key id, and that of a grant
with another one. -/
theorem Fact.Spelled.eq_of_text (h : fact.Spelled) (h' : fact'.Spelled) (htext : fact.text? = some text)
    (htext' : fact'.text? = some text) : fact = fact' := by
  have hgrant : ∀ (owner : List UInt8) (provider : Provider) (sealedKeyId : Option String) (rest : String),
      hexEncode owner ++ provider.asStr ++ sealedKeyId.getD "" ≠ "mock-seal-" ++ rest := fun owner provider sealedKeyId rest h =>
    toList_grant_ne owner provider sealedKeyId (by decide) (by decide) _ ((congrArg String.toList h).trans (toList_keyId rest))
  have hempty : ∀ (owner : List UInt8) (provider : Provider) (sealedKeyId : Option String),
      hexEncode owner ++ provider.asStr ++ sealedKeyId.getD "" ≠ "" := fun owner provider sealedKeyId h => by
    have hlists := congrArg String.toList h
    rw [toList_grant] at hlists
    exact absurd hlists (by simp)
  cases h with
  | identity verified => cases htext
  | enclaveKey =>
    obtain rfl := Option.some.inj htext
    cases h' with
    | identity verified => cases htext'
    | enclaveKey => rfl
    | grant owner provider sealedKeyId _ => exact absurd (Option.some.inj htext') (hempty owner provider sealedKeyId)
    | sealedUnder rest => exact absurd (congrArg String.toList (Option.some.inj htext')) (by simp)
  | grant owner provider sealedKeyId hkey =>
    obtain rfl := Option.some.inj htext
    cases h' with
    | identity verified => cases htext'
    | enclaveKey => exact absurd (Option.some.inj htext').symm (hempty owner provider sealedKeyId)
    | grant owner' provider' sealedKeyId' hkey' =>
      obtain ⟨howner, rfl, rfl⟩ := grant_inj hkey hkey' (Option.some.inj htext').symm
      rw [howner]
    | sealedUnder rest => exact absurd (Option.some.inj htext').symm (hgrant owner provider sealedKeyId rest)
  | sealedUnder rest =>
    obtain rfl := Option.some.inj htext
    cases h' with
    | identity verified => cases htext'
    | enclaveKey => exact absurd (congrArg String.toList (Option.some.inj htext')) (by simp)
    | grant owner provider sealedKeyId _ => exact absurd (Option.some.inj htext') (hgrant owner provider sealedKeyId rest)
    | sealedUnder rest' => exact congrArg Fact.sealedUnder (Option.some.inj htext').symm

/-- What begins with a brace is no text of a fact. -/
theorem Fact.Spelled.statement_ne {bytes : List UInt8} (h : fact.Spelled) (htext : fact.text? = some text)
    (hbrace : bytes.head? = some 0x7b) : bytes ≠ utf8 text := by
  intro heq
  obtain ⟨rest, rfl⟩ := List.head?_eq_some_iff.mp hbrace
  have hbytes : utf8 "\x7b" ++ rest = utf8 text := heq
  obtain ⟨letters, hletters⟩ := isPrefix_of_utf8_append hbytes
  exact h.text_ne htext letters hletters.symm

theorem Fact.Spelled.statement_inj (hserialize : Function.Injective serialize)
    (hbrace : ∀ identity, (serialize identity).head? = some 0x7b) (h : fact.Spelled) (h' : fact'.Spelled)
    (heq : fact.statement serialize = fact'.statement serialize) : fact = fact' := by
  cases htext : fact.text? with
  | some text =>
    rw [statement_of_text htext] at heq
    cases htext' : fact'.text? with
    | some text' =>
      rw [statement_of_text htext'] at heq
      exact h.eq_of_text h' htext (utf8_injective heq ▸ htext')
    | none =>
      cases h' with
      | identity verified => exact absurd heq.symm (h.statement_ne htext (hbrace verified))
      | _ => cases htext'
  | none =>
    cases h with
    | identity verified =>
      cases htext' : fact'.text? with
      | some text' =>
        rw [statement_of_text htext'] at heq
        exact absurd heq (h'.statement_ne htext' (hbrace verified))
      | none =>
        cases h' with
        | identity verified' => exact congrArg Fact.identity (hserialize heq)
        | _ => cases htext'
    | _ => cases htext

end Telling

/-- Responses of one enclave that come with one attestation come from one route, and stand for the same. -/
theorem attested_alike {state : AppState} (hserialize : Function.Injective state.serialize)
    (hbrace : ∀ identity, (state.serialize identity).head? = some 0x7b) {response response' : Response}
    (h : Served state response) (h' : Served state response') (heq : response.attestation = response'.attestation) :
    response.fact = response'.fact := by
  rw [h.attestation_eq, h'.attestation_eq] at heq
  have hcommitted := hexEncode_injective (String.append_right_inj _ |>.mp heq)
  exact h.spelled.statement_inj hserialize hbrace h'.spelled (List.append_cancel_left hcommitted)

/-- A mock enclave that writes identities as `serde_json` does. -/
def writing : AppState := { AppState.mock with serialize := OwnerIdentity.serialize }

/-- Alice connects Google, at some time. -/
theorem served_alice (nowMs : UInt64) :
    Served writing (.oauthExchange (exchangeResponse writing .google (mockGoogleTokens "alice") (mockGoogleAccount "alice") nowMs)) := by
  have hexchange : exchange writing (client .mock .silent) ⟨"google", "mock_code_google_alice", "", ""⟩ nowMs = _ :=
    exchange_of_ok rfl (by decide) (google_exchangeCode_mock rfl "alice" "" "") (google_verify_mock rfl "alice") nowMs
  exact .oauthExchange hexchange

theorem attested_alike_alice :
    (exchangeResponse writing .google (mockGoogleTokens "alice") (mockGoogleAccount "alice") 1).attestation =
        (exchangeResponse writing .google (mockGoogleTokens "alice") (mockGoogleAccount "alice") 2).attestation ∧
      (Response.oauthExchange (exchangeResponse writing .google (mockGoogleTokens "alice") (mockGoogleAccount "alice") 1)).fact =
        (Response.oauthExchange (exchangeResponse writing .google (mockGoogleTokens "alice") (mockGoogleAccount "alice") 2)).fact := by
  have hbrace : ∀ identity, (writing.serialize identity).head? = some 0x7b := fun identity => by
    obtain ⟨rest, hrest⟩ := identity.exists_serialize_eq
    change identity.serialize.head? = _
    rw [hrest]
    rfl
  exact ⟨rfl, attested_alike OwnerIdentity.serialize_injective hbrace (served_alice 1) (served_alice 2) rfl⟩

end Memorai.Enclave
