import Memorai.Schema.Enums
import Memorai.Wire.Json

/-! The query scope as the gateway and the enclave have it. Its source ids are read from any string. -/
namespace Memorai.Shared
open Schema (EntityKind Sensitivity)
open Wire

/-- An open source identifier, transparent on the wire. -/
structure SourceId where
  raw : String
  deriving DecidableEq, Repr

structure Scope where
  agentId : String
  ownerId : String
  sources : List SourceId
  entityKinds : List EntityKind
  notBeforeMs : Option UInt64
  notAfterMs : Option UInt64
  maxSensitivity : Sensitivity
  expiresAtMs : Option UInt64
  deriving DecidableEq, Repr

def SourceId.ofJson (j : Json) : Option SourceId := j.string?.map SourceId.mk

theorem SourceId.ofJson_str (source : SourceId) : ofJson (.str source.raw) = some source := rfl

def entityKindOfJson (j : Json) : Option EntityKind := j.variant?.bind EntityKind.ofValue

def sensitivityOfJson (j : Json) : Option Sensitivity := j.variant?.bind Sensitivity.ofValue

namespace Scope

def fieldNames : List String :=
  ["agent_id", "owner_id", "sources", "entity_kinds", "not_before_ms", "not_after_ms", "max_sensitivity", "expires_at_ms"]

def ofJson (j : Json) : Option Scope := do
  let fields ← j.record fieldNames
  return {
    agentId := ← fields.required "agent_id" Json.string?
    ownerId := ← fields.required "owner_id" Json.string?
    sources := ← fields.required "sources" (Json.list? SourceId.ofJson)
    entityKinds := ← fields.required "entity_kinds" (Json.list? entityKindOfJson)
    notBeforeMs := ← fields.optional "not_before_ms" Json.u64?
    notAfterMs := ← fields.optional "not_after_ms" Json.u64?
    maxSensitivity := ← fields.required "max_sensitivity" sensitivityOfJson
    expiresAtMs := ← fields.optional "expires_at_ms" Json.u64? }

def fields (scope : Scope) : Fields :=
  [("agent_id", .str scope.agentId),
    ("owner_id", .str scope.ownerId),
    ("sources", .arr (scope.sources.map (fun source => .str source.raw))),
    ("entity_kinds", .arr (scope.entityKinds.map (fun kind => .str kind.value))),
    ("not_before_ms", .option .u64 scope.notBeforeMs),
    ("not_after_ms", .option .u64 scope.notAfterMs),
    ("max_sensitivity", .str scope.maxSensitivity.value),
    ("expires_at_ms", .option .u64 scope.expiresAtMs)]

def toJson (scope : Scope) : Json := .obj scope.fields

/-- A scope survives being written and read. -/
theorem ofJson_toJson (scope : Scope) : ofJson scope.toJson = some scope := by
  have hsources : Json.list? SourceId.ofJson (.arr (scope.sources.map (fun source => .str source.raw))) =
      some (scope.sources.map id) := list?_map SourceId.ofJson_str _
  have hkinds : Json.list? entityKindOfJson (.arr (scope.entityKinds.map (fun kind => .str kind.value))) =
      some (scope.entityKinds.map id) := list?_map EntityKind.ofValue_value _
  have hsensitivity : sensitivityOfJson (.str scope.maxSensitivity.value) = some scope.maxSensitivity :=
    Sensitivity.ofValue_value scope.maxSensitivity
  rw [List.map_id] at hsources hkinds
  have hrecord : scope.toJson.record fieldNames = some scope.fields := record_obj rfl (by decide)
  rw [ofJson, hrecord]
  simp [fields, Fields.required, Fields.optional, Json.string?, List.lookup_cons, hsources, hkinds, hsensitivity]

end Scope
end Memorai.Shared
