import Memorai.Gateway.Sealing
import Memorai.Ingestion.Unsealed

/-! Runs on one runtime, with the session its gateway client last adopted, and whose key they seal under. -/
namespace Memorai.Ingestion
open Schema Memorai.Graph Storage Extraction Text Gateway Wire
open Enclave (AppState deriveSeed mockKeyId postSealEncrypt)

structure GatewayClient (jwt : Jwt) where
  sessionToken : Option jwt.Token := none

section Client
variable {d : Deployment}

def GatewayClient.adoptSession (client : GatewayClient d.jwt) (token : d.jwt.Token) : GatewayClient d.jwt :=
  { client with sessionToken := some token }

/-- `_unwrap`, for the answers of a gateway: an error becomes an exception with its text. -/
def unwrap {α : Type} (d : Deployment) (answer : Except GatewayError α) : Except String α :=
  answer.mapError (fun e =>
    let (status, message) := gatewayReply e
    "gateway " ++ toString status ++ ": " ++ d.jsonText (errorBody message))

/-- What the client makes of the answer. -/
def sealedContent (d : Deployment) (body : Enclave.SealEncryptResponse) : Except String Sealed :=
  (d.enclave.base64.decode body.ciphertextB64).map (fun ciphertext =>
    { ref := { keyId := body.keyId, scheme := body.scheme, blobId := none, byteLen := ciphertext.length }
      ciphertext := ciphertext.map UInt8.toNat
      attestation := body.attestation })

/-- The owner id is left to the gateway. `lost` is what was raised by a call that did not get through. -/
def GatewayClient.sealEncrypt (client : GatewayClient d.jwt) (plaintext : List UInt8) (checkedAt : Nat) (lost : Option String) :
    Except String Sealed :=
  match client.sessionToken, lost with
  | none, _ => .error "no owner session; call open_session() first"
  | some _, some exc => .error exc
  | some token, none => do
    let body ← unwrap d (Gateway.sealEncrypt d (some token)
      { ownerId := "", plaintextB64 := d.enclave.base64.encode plaintext } checkedAt)
    sealedContent d body

end Client

/-- One run as it is asked for, its records with what was extracted from them, the time at which the gateway checks the
session for each body, and the calls that did not get through. An empty token is none. -/
structure Ingest (d : Deployment) where
  ownerId : String
  sessionToken : Option d.jwt.Token
  extracted : List (RawRecord × Candidate)
  extracts : ∀ p ∈ extracted, Extracts ownerId p.1 p.2
  checkedAt : RawRecord → Nat
  lost : RawRecord → Option String
  rows : RowOrder Claim

structure Runtime (d : Deployment) where
  gateway : GatewayClient d.jwt
  store : Store

namespace Ingest
variable {d : Deployment} (run : Ingest d)

def records : List RawRecord := run.extracted.map Prod.fst

/-- The session is adopted if there is a body to seal, and never given up again. -/
def adopt (client : GatewayClient d.jwt) : GatewayClient d.jwt :=
  if sensitiveRecords run.records = [] then client
  else match run.sessionToken with
    | some session => client.adoptSession session
    | none => client

def sealBody (client : GatewayClient d.jwt) (record : RawRecord) : Except String Sealed :=
  client.sealEncrypt (utf8 record.body) (run.checkedAt record) (run.lost record)

def job (client : GatewayClient d.jwt) : Job where
  ownerId := run.ownerId
  extracted := run.extracted
  sealBody := run.sealBody client
  rows := run.rows
  contract p hp := (run.extracts p hp).unresolved
  typed p hp := (run.extracts p hp).typed

def exec (runtime : Runtime d) : Runtime d :=
  let client := run.adopt runtime.gateway
  ⟨client, (run.job client).run runtime.store⟩

/-- Whatever session the bodies of the run go out with, it is the run's owner's. -/
def OwnSession (client : GatewayClient d.jwt) : Prop := ∀ p ∈ sensitiveRecords run.records, ∀ session,
  requireSession d.jwt d.secret (run.adopt client).sessionToken (run.checkedAt p.2) = .ok session → session.ownerId = run.ownerId

end Ingest

section Runs
variable {d : Deployment}

def ingestAll (runs : List (Ingest d)) (runtime : Runtime d) : Runtime d := runs.foldl (fun rt run => run.exec rt) runtime

/-- Every run has the session of its owner. -/
def EachOwnSession : List (Ingest d) → GatewayClient d.jwt → Prop
  | [], _ => True
  | run :: runs, client => run.OwnSession client ∧ EachOwnSession runs (run.adopt client)

/-- The runs as they are on their own, with the client each of them has. -/
def jobsOf : List (Ingest d) → GatewayClient d.jwt → List Job
  | [], _ => []
  | run :: runs, client => run.job (run.adopt client) :: jobsOf runs (run.adopt client)

theorem store_ingestAll (runs : List (Ingest d)) (runtime : Runtime d) :
    (ingestAll runs runtime).store = runAll (jobsOf runs runtime.gateway) runtime.store := by
  induction runs generalizing runtime with
  | nil => rfl
  | cons run runs ih => exact ih (run.exec runtime)

theorem mem_jobsOf {runs : List (Ingest d)} {client : GatewayClient d.jwt} (h : EachOwnSession runs client) {job : Job}
    (hjob : job ∈ jobsOf runs client) : ∃ run ∈ runs, ∃ c, run.OwnSession c ∧ job = run.job (run.adopt c) := by
  induction runs generalizing client with
  | nil => exact absurd hjob List.not_mem_nil
  | cons run runs ih =>
    rcases List.mem_cons.mp hjob with rfl | hjob
    · exact ⟨run, List.mem_cons_self, client, h.1, rfl⟩
    · obtain ⟨run', hrun', hrest⟩ := ih h.2 hjob
      exact ⟨run', List.mem_cons_of_mem _ hrun', hrest⟩

end Runs

/-- The ciphertext that goes with a key id. -/
def Sealed.blob (blob : Sealed) : Enclave.SealEncrypted := ⟨blob.ciphertext.map UInt8.ofNat, blob.ref.keyId, blob.ref.scheme⟩

/-- Under the key of this owner: it opens for them, and for nobody with another key id. -/
structure OpensFor (enclave : AppState) (ownerId : String) (body : String) (blob : Sealed) : Prop where
  keyId : blob.ref.keyId = mockKeyId (deriveSeed enclave.blake2b256 ownerId)
  own : Enclave.decrypt enclave.blake2b256 ownerId blob.blob = .ok (utf8 body)
  others : ∀ other plaintext, Enclave.decrypt enclave.blake2b256 other blob.blob = .ok plaintext →
    mockKeyId (deriveSeed enclave.blake2b256 other) = blob.ref.keyId

/-- One of the runs had the body of this event sealed, under the key of the event's owner. -/
def SealedForOwner (d : Deployment) (runs : List (Ingest d)) (e : Event) (ref : EncryptedContentRef) : Prop :=
  ∃ run ∈ runs, ∃ record ∈ run.records, record.externalId = e.source.externalId ∧
    ∃ client blob, run.sealBody client record = .ok blob ∧ blob.ref = ref ∧ OpensFor d.enclave e.ownerId record.body blob

section Laws
variable {d : Deployment}

private theorem map_ofNat_toNat (bytes : List UInt8) : (bytes.map UInt8.toNat).map UInt8.ofNat = bytes := by
  rw [List.map_map]
  exact List.map_id'' (fun _ => UInt8.ofNat_toNat) bytes

/-- A body sealed with a client is under the key of the owner of its session. -/
theorem sealEncrypt_opens (hbase64 : d.enclave.base64.RoundTrips) {client : GatewayClient d.jwt} {body : String} {checkedAt : Nat}
    {lost : Option String} {blob : Sealed} (h : client.sealEncrypt (utf8 body) checkedAt lost = .ok blob) :
    ∃ session, requireSession d.jwt d.secret client.sessionToken checkedAt = .ok session ∧
      OpensFor d.enclave session.ownerId body blob := by
  unfold GatewayClient.sealEncrypt at h
  split at h
  · exact absurd h (by simp)
  · exact absurd h (by simp)
  · rename_i token htoken
    obtain ⟨response, hresponse, hcontent⟩ := Results.bind_ok h
    obtain ⟨session, hsession, hpost⟩ := sealEncrypt_ok (Results.mapError_ok hresponse)
    obtain ⟨plaintext, hdecode, rfl⟩ := Enclave.postSealEncrypt_ok hpost
    obtain rfl := Except.ok.inj ((hbase64 _).symm.trans hdecode)
    obtain ⟨ciphertext, hcipher, rfl⟩ := Results.map_ok hcontent
    obtain rfl := Except.ok.inj ((hbase64 _).symm.trans hcipher)
    refine ⟨session, htoken ▸ hsession, rfl, ?_, fun other plaintext hopen => (Enclave.keyId_of_decrypt hopen).symm⟩
    dsimp only [Sealed.blob]
    rw [map_ofNat_toNat]
    exact Enclave.decrypt_encrypt _

/-- With a session that is accepted a body goes through. -/
theorem sealEncrypt_of_session (hbase64 : d.enclave.base64.RoundTrips) {token : d.jwt.Token} {session : SessionClaims}
    {checkedAt : Nat} (hsession : requireSession d.jwt d.secret (some token) checkedAt = .ok session) (body : String) :
    ∃ blob, GatewayClient.sealEncrypt ⟨some token⟩ (utf8 body) checkedAt none = .ok blob := by
  have hpost : postSealEncrypt d.enclave ⟨session.ownerId, d.enclave.base64.encode (utf8 body)⟩ =
      .ok (Enclave.sealResponse d.enclave session.ownerId (utf8 body)) := Enclave.postSealEncrypt_of_decode (hbase64 _)
  have hroute : Gateway.sealEncrypt d (some token) ⟨"", d.enclave.base64.encode (utf8 body)⟩ checkedAt =
      .ok (Enclave.sealResponse d.enclave session.ownerId (utf8 body)) := Gateway.sealEncrypt_of_session hsession hpost
  dsimp only [GatewayClient.sealEncrypt]
  rw [hroute]
  change ∃ blob, sealedContent d (Enclave.sealResponse d.enclave session.ownerId (utf8 body)) = .ok blob
  dsimp only [sealedContent, Enclave.sealResponse]
  rw [hbase64]
  exact ⟨_, rfl⟩

/-- A job over one sensitive record seals its body. -/
theorem sealed_of_sole {job : Job} {record : RawRecord} {candidate : Candidate} {blob : Sealed}
    (hextracted : job.extracted = [(record, candidate)]) (hsensitive : record.sensitive = true)
    (hseal : job.sealBody record = .ok blob) : job.sealed = [(record.externalId, blob)] := by
  have hrecords : job.records = [record] := by rw [Job.records, hextracted]; rfl
  rw [Job.sealed, hrecords, encrypt]
  simp [sensitiveRecords, hsensitive, Dict.collect, Dict.assign, hseal]

/-- The event of a sensitive record is stored with the reference that came back for its body. -/
theorem event?_run_of_sealed {job : Job} {record : RawRecord} {candidate : Candidate} {event : Event} {blob : Sealed}
    (hextracted : job.extracted = [(record, candidate)]) (hsensitive : record.sensitive = true)
    (hevents : candidate.events = [event]) (hid : event.source.externalId = record.externalId)
    (hseal : job.sealBody record = .ok blob) (s : Store) :
    (job.run s).event? event.id = some { event with encryptedContent := some blob.ref, body := none } := by
  have hsealed : job.sealed.lookup event.source.externalId = some blob := by
    rw [sealed_of_sole hextracted hsensitive hseal, hid]
    simp
  rw [Job.event?_run, Job.candidates, hextracted]
  simp [hevents, Job.kept_of_sealed hsealed]

end Laws

/-- If every run has the session of its owner, whatever is stored with a key id is sealed for the owner it is stored for. -/
theorem sealed_for_owner {d : Deployment} (hbase64 : d.enclave.base64.RoundTrips) (runs : List (Ingest d))
    (client : GatewayClient d.jwt) (h : EachOwnSession runs client) (x : String) (e : Event) (ref : EncryptedContentRef)
    (he : (ingestAll runs ⟨client, PropertyGraph.empty⟩).store.event? x = some e) (href : e.encryptedContent = some ref) :
    SealedForOwner d runs e ref := by
  rw [store_ingestAll] at he
  obtain ⟨job, hjob, p, hp, event, hevent, _, hkept⟩ := event_origin he
  obtain ⟨run, hrun, c, hown, rfl⟩ := mem_jobsOf h hjob
  obtain ⟨ev, hev, hof, _, _⟩ := (run.extracts p hp).event
  rw [hev] at hevent
  obtain rfl := List.mem_singleton.mp hevent
  unfold Job.kept at hkept
  split at hkept
  · rename_i blob hlookup
    obtain rfl := Option.some.inj hkept
    obtain rfl := Option.some.inj href
    obtain ⟨record, hrecord, hseal⟩ := mem_sealed _ (Dict.mem_of_lookup hlookup)
    obtain ⟨hin, _, hid⟩ := (sensitiveRecords_spec _).2.1 _ hrecord
    obtain ⟨session, hsession, hopens⟩ := sealEncrypt_opens hbase64 hseal
    have howner : session.ownerId = event.ownerId := (hown _ hrecord session hsession).trans hof.owner.symm
    exact ⟨run, hrun, record, hin, hid.symm, _, blob, hseal, rfl, howner ▸ hopens⟩
  · split at hkept
    · exact absurd hkept (by simp)
    · obtain rfl := Option.some.inj hkept
      rw [hof.clear] at href
      exact absurd href (by simp)

/-- A hash that tells inputs apart by how they end. -/
def lastBytes (bytes : List UInt8) : Enclave.Digest :=
  ⟨(bytes.reverse ++ List.replicate 32 0).take 32, by simp⟩

def mockDeployment : Deployment := { Deployment.mock with enclave := { AppState.mock with blake2b256 := lastBytes } }

theorem mockDeployment_roundTrips : mockDeployment.enclave.base64.RoundTrips := Base64.standard_roundTrips

/-- A session of Alice's, and when it is presented. -/
def aliceToken : mockDeployment.jwt.Token := issueSessionToken .exposed "test-secret" "alice" 3600 1000

theorem aliceToken_accepted : requireSession mockDeployment.jwt mockDeployment.secret (some aliceToken) 1000 =
    .ok { typ := "session", ownerId := "alice", exp := 4600 } := requireSession_fresh Jwt.exposed_faithful (by decide)

/-- A run over one sensitive note. -/
def secretNote (ownerId : String) (sessionToken : Option mockDeployment.jwt.Token) : Ingest mockDeployment where
  ownerId := ownerId
  sessionToken := sessionToken
  extracted := [(secret, Llm.toCandidate plain ownerId secret "claude-extractor@v1" {})]
  extracts _ hp := List.mem_singleton.mp hp ▸ Llm.toCandidate_extracts ..
  checkedAt _ := 1000
  lost _ := none
  rows := .asStored

/-- What is sealed with Alice's session is stored with her key id, whoever's run it is. -/
private theorem secretNote_stored (ownerId : String) (sessionToken : Option mockDeployment.jwt.Token) (s : Store) :
    ∃ blob, OpensFor mockDeployment.enclave "alice" secret.body blob ∧
      (((secretNote ownerId sessionToken).job ⟨some aliceToken⟩).run s).event? (eventIdOf plain ownerId secret) =
        some { Llm.eventOf plain ownerId secret "claude-extractor@v1" [] with encryptedContent := some blob.ref, body := none } := by
  obtain ⟨blob, hblob⟩ := sealEncrypt_of_session mockDeployment_roundTrips aliceToken_accepted secret.body
  obtain ⟨session, hsession, hopens⟩ := sealEncrypt_opens mockDeployment_roundTrips hblob
  obtain rfl := Except.ok.inj (hsession.symm.trans aliceToken_accepted)
  have hseal : ((secretNote ownerId sessionToken).job ⟨some aliceToken⟩).sealBody secret = .ok blob := hblob
  have hevents : (Llm.toCandidate plain ownerId secret "claude-extractor@v1" {}).events =
      [Llm.eventOf plain ownerId secret "claude-extractor@v1" []] := rfl
  have hextracted : ((secretNote ownerId sessionToken).job ⟨some aliceToken⟩).extracted =
      [(secret, Llm.toCandidate plain ownerId secret "claude-extractor@v1" {})] := rfl
  have hid : (Llm.eventOf plain ownerId secret "claude-extractor@v1" []).source.externalId = secret.externalId := rfl
  exact ⟨blob, hopens, event?_run_of_sealed hextracted rfl hevents hid hseal s⟩

theorem sealed_for_owner_alice : mockDeployment.enclave.base64.RoundTrips ∧
    EachOwnSession [secretNote "alice" (some aliceToken)] ⟨none⟩ ∧
    ∃ e ref, (ingestAll [secretNote "alice" (some aliceToken)] ⟨⟨none⟩, PropertyGraph.empty⟩).store.event?
        (eventIdOf plain "alice" secret) = some e ∧ e.encryptedContent = some ref ∧
      SealedForOwner mockDeployment [secretNote "alice" (some aliceToken)] e ref := by
  have hown : EachOwnSession [secretNote "alice" (some aliceToken)] ⟨none⟩ := by
    refine ⟨fun p hp session hsession => ?_, trivial⟩
    obtain rfl := Except.ok.inj (hsession.symm.trans aliceToken_accepted)
    rfl
  obtain ⟨blob, _, hstored⟩ := secretNote_stored "alice" (some aliceToken) PropertyGraph.empty
  exact ⟨mockDeployment_roundTrips, hown, _, _, hstored, rfl, sealed_for_owner mockDeployment_roundTrips _ _ hown _ _ _ hstored rfl⟩

/-- Bob's run comes without a session, after one of Alice's: his note goes under her key. -/
theorem sealed_for_other : ¬ ∀ (d : Deployment) (runs : List (Ingest d)) (client : GatewayClient d.jwt),
    d.enclave.base64.RoundTrips → ∀ x e ref, (ingestAll runs ⟨client, PropertyGraph.empty⟩).store.event? x = some e →
      e.encryptedContent = some ref → SealedForOwner d runs e ref := by
  intro h
  obtain ⟨blob, hopens, hstored⟩ := secretNote_stored "bob" none
    (((secretNote "alice" (some aliceToken)).job ⟨some aliceToken⟩).run PropertyGraph.empty)
  obtain ⟨_, _, _, _, _, _, blob', _, href, hbob⟩ := h mockDeployment [secretNote "alice" (some aliceToken), secretNote "bob" none]
    ⟨none⟩ mockDeployment_roundTrips _ _ _ hstored rfl
  have hkeys : mockKeyId (deriveSeed lastBytes "bob") = mockKeyId (deriveSeed lastBytes "alice") :=
    hbob.keyId.symm.trans (href ▸ hopens.keyId)
  exact absurd hkeys (by decide +kernel)

end Memorai.Ingestion
