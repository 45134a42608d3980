import Memorai.Ingestion.SealedRuns
import Memorai.Query.Graph

/-! A scope on its way from the client that asks for a grant to the query that resolves it. It is written in one language,
read, signed and written in the other, and validated again. -/
namespace Memorai.Query
open Schema Text Wire
open Gateway (Deployment GatewayError postScopeGrant scopeGrant issueSessionToken requireSession_fresh defaultLeeway endMs toNat_endMs
  cutOff expiryMs issueGrantToken introspect_fresh lt_expiryMs_iff token_of_postScopeGrant ScopeGrantRequest)
open Ingestion (GatewayClient unwrap)

section Dump
variable (scope : Schema.Scope)

def optionInt : Option Int → Json
  | none => .null
  | some n => .int n

def sourceJson (source : SourceId) : Json := .str source.val

def dumpFields : Fields :=
  [("agent_id", .str scope.agentId),
    ("owner_id", .str scope.ownerId),
    ("sources", .arr (scope.sources.map sourceJson)),
    ("entity_kinds", .arr (scope.entityKinds.map (fun kind => .str kind.value))),
    ("not_before_ms", optionInt scope.notBeforeMs),
    ("not_after_ms", optionInt scope.notAfterMs),
    ("max_sensitivity", .str scope.maxSensitivity.value),
    ("expires_at_ms", optionInt scope.expiresAtMs)]

/-- `scope.model_dump(mode="json")` -/
def modelDump : Json := .obj (dumpFields scope)

def grantBody (ttlSecs : Int) : Json := .obj [("scope", modelDump scope), ("ttl_secs", .int ttlSecs)]

end Dump

/-- `grant_scope`. `rejected` is raised for a body that the gateway cannot read. -/
def grantScope {d : Deployment} (client : GatewayClient d.jwt) (rejected : String) (scope : Schema.Scope) (ttlSecs : Int)
    (checkedAt : Nat) (mintedAt : UInt64) : Except String d.jwt.Token :=
  match client.sessionToken with
  | none => .error "no owner session; call open_session() first"
  | some token =>
    match postScopeGrant d.jwt d.secret (some token) (grantBody scope ttlSecs) checkedAt mintedAt with
    | .error .body => .error rejected
    | .error (.route e) => unwrap d (.error e)
    | .ok granted => .ok granted.grantToken

section Fits

/-- A number of 64 bits without a sign. -/
def Fits (n : Int) : Prop := 0 ≤ n ∧ n < 2 ^ 64

/-- The times of the scope are of 64 bits. -/
structure FitsScope (scope : Schema.Scope) : Prop where
  notBeforeMs : ∀ n ∈ scope.notBeforeMs, Fits n
  notAfterMs : ∀ n ∈ scope.notAfterMs, Fits n
  expiresAtMs : ∀ n ∈ scope.expiresAtMs, Fits n

def ofInt (n : Int) : UInt64 := .ofNat n.toNat

variable {n : Int} {o : Option Int} {scope : Schema.Scope}

theorem u64?_int (h : Fits n) : (Json.int n).u64? = some (ofInt n) := by
  have hsize : n.toNat < UInt64.size := by
    have hlt : n.toNat < 2 ^ 64 := by
      obtain ⟨hpos, hlt⟩ := h
      omega
    exact hlt
  rw [Json.u64?, if_pos ⟨h.1, hsize⟩, ofInt]

theorem u64?_int_eq_none (h : ¬ Fits n) : (Json.int n).u64? = none := by
  rw [Json.u64?, if_neg]
  rintro ⟨hpos, hsize⟩
  have hlt : n.toNat < 2 ^ 64 := hsize
  exact h ⟨hpos, by omega⟩

theorem toNat_ofInt (h : Fits n) : ((ofInt n).toNat : Int) = n := by
  obtain ⟨hpos, hlt⟩ := h
  rw [ofInt, UInt64.toNat_ofNat_of_lt' (by change n.toNat < 2 ^ 64; omega)]
  omega

theorem option?_optionInt (h : ∀ n ∈ o, Fits n) : Json.option? Json.u64? (optionInt o) = some (o.map ofInt) := by
  cases o with
  | none => rfl
  | some n => exact congrArg (Option.map some) (u64?_int (h n rfl))

theorem option?_optionInt_eq_none (h : ¬ ∀ n ∈ o, Fits n) : Json.option? Json.u64? (optionInt o) = none := by
  cases o with
  | none => exact absurd (fun _ hn => absurd hn (by simp)) h
  | some n => exact congrArg (Option.map some) (u64?_int_eq_none (fun hfits => h (fun m hm => Option.mem_some_iff.mp hm ▸ hfits)))

def sentSource (source : SourceId) : Shared.SourceId := ⟨source.val⟩

/-- The scope as the gateway has it. -/
def sent (scope : Schema.Scope) : Shared.Scope where
  agentId := scope.agentId
  ownerId := scope.ownerId
  sources := scope.sources.map sentSource
  entityKinds := scope.entityKinds
  notBeforeMs := scope.notBeforeMs.map ofInt
  notAfterMs := scope.notAfterMs.map ofInt
  maxSensitivity := scope.maxSensitivity
  expiresAtMs := scope.expiresAtMs.map ofInt

theorem ofJson_modelDump (h : FitsScope scope) : Shared.Scope.ofJson (modelDump scope) = some (sent scope) := by
  have hsources : Json.list? Shared.SourceId.ofJson (.arr (scope.sources.map sourceJson)) =
      some (scope.sources.map sentSource) := list?_map (fun source => Shared.SourceId.ofJson_str (sentSource source)) _
  have hkinds : Json.list? Shared.entityKindOfJson (.arr (scope.entityKinds.map (fun kind => .str kind.value))) =
      some (scope.entityKinds.map id) := list?_map EntityKind.ofValue_value _
  have hsensitivity : Shared.sensitivityOfJson (.str scope.maxSensitivity.value) = some scope.maxSensitivity :=
    Sensitivity.ofValue_value scope.maxSensitivity
  rw [List.map_id] at hkinds
  have hrecord : (modelDump scope).record Shared.Scope.fieldNames = some (dumpFields scope) := record_obj rfl (by decide)
  rw [Shared.Scope.ofJson, hrecord]
  simp [dumpFields, sent, Fields.required, Fields.optional, Json.string?, List.lookup_cons, hsources, hkinds, hsensitivity,
    option?_optionInt h.notBeforeMs, option?_optionInt h.notAfterMs, option?_optionInt h.expiresAtMs]

theorem fits_of_ofJson {read : Shared.Scope} (h : Shared.Scope.ofJson (modelDump scope) = some read) : FitsScope scope := by
  have hrecord : (modelDump scope).record Shared.Scope.fieldNames = some (dumpFields scope) := record_obj rfl (by decide)
  rw [Shared.Scope.ofJson, hrecord] at h
  simp only [Option.bind_eq_bind, Option.bind_some, Option.bind_eq_some_iff] at h
  obtain ⟨_, _, _, _, _, _, _, _, _, hbefore, _, hafter, _, _, _, hexpires, _⟩ := h
  have hread : ∀ {o : Option Int} {a : Option UInt64}, Json.option? Json.u64? (optionInt o) = some a → ∀ n ∈ o, Fits n := by
    intro o a hread
    by_contra hno
    rw [option?_optionInt_eq_none hno] at hread
    exact absurd hread (by simp)
  exact ⟨hread hbefore, hread hafter, hread hexpires⟩

end Fits
section Resolved
variable {scope : Schema.Scope} {expiresAtSecs : UInt64}

/-- The scope as it comes back, with the end that was computed for it. -/
def resolved (scope : Schema.Scope) (expiresAtSecs : UInt64) : Schema.Scope :=
  { scope with expiresAtMs := some (expiryMs (sent scope) expiresAtSecs).toNat }

theorem map_ofInt {o : Option Int} (h : ∀ n ∈ o, Fits n) : (o.map ofInt).map (fun n => (n.toNat : Int)) = o := by
  cases o with
  | none => rfl
  | some n => exact congrArg some (toNat_ofInt (h n rfl))

theorem modelValidate_sent (h : FitsScope scope) :
    Schema.Scope.modelValidate (cutOff (sent scope) expiresAtSecs).toJson = some (resolved scope expiresAtSecs) := by
  have hchecked : ∀ source ∈ (cutOff (sent scope) expiresAtSecs).sources, checkSourceId source.raw = true := by
    intro source hsource
    obtain ⟨own, _, rfl⟩ := List.mem_map.mp hsource
    exact own.property
  have hmirrors := Shared.Scope.mirrors_mirror hchecked
  have hsources : ((cutOff (sent scope) expiresAtSecs).mirror hchecked).sources = scope.sources := by
    refine List.map_injective_iff.mpr Subtype.val_injective (hmirrors.sources.trans ?_)
    exact List.map_map
  rw [Shared.Scope.modelValidate_toJson hchecked]
  refine congrArg some ?_
  rw [Shared.Scope.mirror] at hsources ⊢
  simp only [resolved, Schema.Scope.mk.injEq]
  exact ⟨rfl, rfl, hsources, rfl, map_ofInt h.notBeforeMs, map_ofInt h.notAfterMs, rfl, rfl⟩

/-- What comes back opens what the scope opens, until then. -/
theorem evaluate_resolved_iff (h : FitsScope scope) {acl : Schema.ObjectAcl} {nowMs : Nat} :
    evaluate (resolved scope expiresAtSecs) acl nowMs = .allow ↔
      evaluate scope acl nowMs = .allow ∧ nowMs < (expiresAtSecs * 1000).toNat := by
  have hlive : (∀ expiry ∈ (resolved scope expiresAtSecs).expiresAtMs, (nowMs : Int) < expiry) ↔
      (∀ expiry ∈ scope.expiresAtMs, (nowMs : Int) < expiry) ∧ nowMs < (expiresAtSecs * 1000).toNat := by
    have hlt := (lt_expiryMs_iff : nowMs < (expiryMs (sent scope) expiresAtSecs).toNat ↔ _)
    have hexpiry : (∀ expiry ∈ scope.expiresAtMs, (nowMs : Int) < expiry) ↔
        ∀ existing ∈ (sent scope).expiresAtMs, nowMs < existing.toNat := by
      rw [← map_ofInt h.expiresAtMs]
      simp [sent]
    rw [hexpiry, ← hlt]
    simp [resolved]
  rw [evaluate_allow_iff, evaluate_allow_iff, hlive]
  constructor
  · rintro ⟨howner, ⟨hexp, hend⟩, hrest⟩
    exact ⟨⟨howner, hexp, hrest⟩, hend⟩
  · rintro ⟨⟨howner, hexp, hrest⟩, hend⟩
    exact ⟨howner, ⟨hexp, hend⟩, hrest⟩

end Resolved

section Client
variable {d : Deployment} {rejected : String} {scope : Schema.Scope} {ttlSecs : Int} {checkedAt : Nat} {mintedAt : UInt64}

theorem ofJson_grantBody_iff {req : ScopeGrantRequest} : ScopeGrantRequest.ofJson (grantBody scope ttlSecs) = some req ↔
    FitsScope scope ∧ Fits ttlSecs ∧ req = ⟨sent scope, ofInt ttlSecs⟩ := by
  have hrecord : (grantBody scope ttlSecs).record ["scope", "ttl_secs"] = some [("scope", modelDump scope), ("ttl_secs", .int ttlSecs)] :=
    record_obj rfl (by decide)
  have hscope : Fields.required [("scope", modelDump scope), ("ttl_secs", .int ttlSecs)] "scope" Shared.Scope.ofJson =
      Shared.Scope.ofJson (modelDump scope) := rfl
  have httl : Fields.required [("scope", modelDump scope), ("ttl_secs", .int ttlSecs)] "ttl_secs" Json.u64? =
      (Json.int ttlSecs).u64? := rfl
  rw [ScopeGrantRequest.ofJson, hrecord]
  simp only [Option.bind_eq_bind, Option.bind_some, Option.bind_eq_some_iff, hscope, httl]
  constructor
  · rintro ⟨read, hread, ttl, hfits, hreq⟩
    have hscope := fits_of_ofJson hread
    have httl : Fits ttlSecs := by
      by_contra hno
      rw [u64?_int_eq_none hno] at hfits
      exact absurd hfits (by simp)
    rw [ofJson_modelDump hscope] at hread
    rw [u64?_int httl] at hfits
    rw [← Option.some.inj hread, ← Option.some.inj hfits] at hreq
    exact ⟨hscope, httl, (Option.some.inj hreq).symm⟩
  · rintro ⟨hscope, httl, rfl⟩
    exact ⟨_, ofJson_modelDump hscope, _, u64?_int httl, rfl⟩

/-- With a session of this owner, what is granted and what is not. -/
theorem grantScope_ok_iff {token : d.jwt.Token} {session : Gateway.SessionClaims}
    (hsession : Gateway.requireSession d.jwt d.secret (some token) checkedAt = .ok session) {granted : d.jwt.Token} :
    grantScope ⟨some token⟩ rejected scope ttlSecs checkedAt mintedAt = .ok granted ↔
      (scope.ownerId = session.ownerId ∧ isBlank scope.agentId = false ∧ FitsScope scope ∧ Fits ttlSecs) ∧
        granted = (issueGrantToken d.jwt d.secret (sent scope) (ofInt ttlSecs) mintedAt).1 := by
  rw [grantScope]
  dsimp only
  rw [postScopeGrant]
  cases hreq : ScopeGrantRequest.ofJson (grantBody scope ttlSecs) with
  | none =>
    refine iff_of_false (by simp) ?_
    rintro ⟨⟨_, _, hscope, httl⟩, _⟩
    rw [ofJson_grantBody_iff.mpr ⟨hscope, httl, rfl⟩] at hreq
    exact absurd hreq (by simp)
  | some req =>
    obtain ⟨hscope, httl, rfl⟩ := ofJson_grantBody_iff.mp hreq
    dsimp only
    rw [scopeGrant, hsession]
    dsimp only
    by_cases howner : (sent scope).ownerId = session.ownerId
    · by_cases hagent : isBlank (sent scope).agentId = true
      · rw [if_neg (not_not.mpr howner), if_pos hagent]
        refine iff_of_false (by simp [unwrap, Except.mapError]) (fun h => ?_)
        exact absurd (hagent.symm.trans h.1.2.1) (by simp)
      · rw [if_neg (not_not.mpr howner), if_neg hagent]
        have hall : scope.ownerId = session.ownerId ∧ isBlank scope.agentId = false ∧ FitsScope scope ∧ Fits ttlSecs :=
          ⟨howner, Bool.eq_false_iff.mpr hagent, hscope, httl⟩
        simp only [Except.mapError, Except.ok.injEq, and_iff_right hall]
        exact eq_comm
    · rw [if_pos howner]
      exact iff_of_false (by simp [unwrap, Except.mapError]) (fun h => howner h.1.1)

end Client

/-- A logged-in client is granted a scope exactly if it is over its own memory, for an agent with a name, and of times that
fit into 64 bits. What a query makes of the grant is that scope again, field for field but for the end, and it opens what
the client asked for, until the end as it was computed. -/
theorem granted_as_asked (d : Deployment) (hjwt : d.jwt.Faithful) (ownerId : String) (sessionTtl issuedAt : UInt64) (checkedAt : Nat)
    (hfresh : checkedAt ≤ (issuedAt + sessionTtl).toNat + defaultLeeway) (rejected : String) (scope : Schema.Scope) (ttlSecs : Int)
    (mintedAt : UInt64) :
    let client : GatewayClient d.jwt := ⟨some (issueSessionToken d.jwt d.secret ownerId sessionTtl issuedAt)⟩
    ((∃ token, grantScope client rejected scope ttlSecs checkedAt mintedAt = .ok token) ↔
      scope.ownerId = ownerId ∧ isBlank scope.agentId = false ∧ FitsScope scope ∧ Fits ttlSecs) ∧
    ∀ token, grantScope client rejected scope ttlSecs checkedAt mintedAt = .ok token →
      ∀ nowSecs, nowSecs ≤ (mintedAt + ofInt ttlSecs).toNat + defaultLeeway →
        introspectScope d.jwt d.secret token nowSecs = .ok (resolved scope (mintedAt + ofInt ttlSecs)) ∧
        ∀ (acl : Schema.ObjectAcl) (nowMs : Nat), evaluate (resolved scope (mintedAt + ofInt ttlSecs)) acl nowMs = .allow ↔
          evaluate scope acl nowMs = .allow ∧ nowMs < endMs mintedAt (ofInt ttlSecs) % 2 ^ 64 := by
  intro client
  have hsession : Gateway.requireSession d.jwt d.secret client.sessionToken checkedAt = .ok _ := requireSession_fresh hjwt hfresh
  constructor
  · constructor
    · rintro ⟨token, h⟩
      exact ((grantScope_ok_iff hsession).mp h).1
    · intro h
      exact ⟨_, (grantScope_ok_iff hsession).mpr ⟨h, rfl⟩⟩
  · intro token h nowSecs hnow
    obtain ⟨⟨_, _, hscope, _⟩, rfl⟩ := (grantScope_ok_iff hsession).mp h
    refine ⟨?_, fun acl nowMs => ?_⟩
    · rw [introspectScope, introspect_fresh hjwt hnow]
      dsimp only
      rw [if_pos rfl, modelValidate_sent hscope]
    · rw [evaluate_resolved_iff hscope, toNat_endMs]

/-- Alice's client. -/
def aliceClient : GatewayClient Deployment.mock.jwt :=
  ⟨some (issueSessionToken Deployment.mock.jwt Deployment.mock.secret "alice" 3600 100)⟩

theorem granted_as_asked_personal : ∃ token, grantScope aliceClient "422" Nearby.personalOnly 3600 100 100 = .ok token ∧
    introspectScope Deployment.mock.jwt Deployment.mock.secret token 100 = .ok (resolved Nearby.personalOnly (100 + ofInt 3600)) := by
  obtain ⟨hgranted, hresolved⟩ := granted_as_asked .mock Jwt.exposed_faithful "alice" 3600 100 100 (by decide) "422"
    Nearby.personalOnly 3600 100
  have hfits : FitsScope Nearby.personalOnly := by
    constructor <;> exact fun n hn => absurd hn (by simp [Nearby.personalOnly])
  obtain ⟨token, htoken⟩ := hgranted.mpr ⟨rfl, by decide, hfits, by decide, by decide⟩
  exact ⟨token, htoken, (hresolved token htoken 100 (by decide)).1⟩

end Memorai.Query
