import Memorai.Schema.Validation
import Memorai.Shared.Scopes

/-! Scopes of the gateway, read by the orchestrator. -/
namespace Memorai.Shared
open Schema (checkSourceId)
open Wire

/-- Field for field the same scope. -/
structure Scope.Mirrors (scope : Scope) (mirrored : Schema.Scope) : Prop where
  agentId : mirrored.agentId = scope.agentId
  ownerId : mirrored.ownerId = scope.ownerId
  sources : mirrored.sources.map Subtype.val = scope.sources.map SourceId.raw
  entityKinds : mirrored.entityKinds = scope.entityKinds
  notBeforeMs : mirrored.notBeforeMs = scope.notBeforeMs.map (fun n => (n.toNat : Int))
  notAfterMs : mirrored.notAfterMs = scope.notAfterMs.map (fun n => (n.toNat : Int))
  maxSensitivity : mirrored.maxSensitivity = scope.maxSensitivity
  expiresAtMs : mirrored.expiresAtMs = scope.expiresAtMs.map (fun n => (n.toNat : Int))

namespace Scope
variable {scope : Scope}

/-- The scope with its source ids checked. -/
def mirror (scope : Scope) (h : ∀ source ∈ scope.sources, checkSourceId source.raw = true) : Schema.Scope where
  agentId := scope.agentId
  ownerId := scope.ownerId
  sources := scope.sources.pmap (fun source hsource => ⟨source.raw, hsource⟩) h
  entityKinds := scope.entityKinds
  notBeforeMs := scope.notBeforeMs.map (fun n => (n.toNat : Int))
  notAfterMs := scope.notAfterMs.map (fun n => (n.toNat : Int))
  maxSensitivity := scope.maxSensitivity
  expiresAtMs := scope.expiresAtMs.map (fun n => (n.toNat : Int))

theorem mirrors_mirror (h : ∀ source ∈ scope.sources, checkSourceId source.raw = true) : scope.Mirrors (scope.mirror h) := by
  refine ⟨rfl, rfl, ?_, rfl, rfl, rfl, rfl, rfl⟩
  rw [mirror, List.map_pmap, List.pmap_eq_map]

/-- A written scope validates if its source ids do. -/
theorem modelValidate_toJson (h : ∀ source ∈ scope.sources, checkSourceId source.raw = true) :
    Schema.Scope.modelValidate scope.toJson = some (scope.mirror h) := by
  have hsources : Json.list? Schema.sourceIdOfJson (.arr (scope.sources.map (fun source => .str source.raw))) =
      some (scope.sources.pmap (fun source hsource => ⟨source.raw, hsource⟩) h) :=
    list?_pmap (fun _ hsource => Schema.sourceIdOfJson_str hsource) h
  have hkinds : Json.list? Schema.entityKindOfJson (.arr (scope.entityKinds.map (fun kind => .str kind.value))) =
      some (scope.entityKinds.map id) := list?_map Schema.EntityKind.ofValue_value _
  have hsensitivity : Schema.sensitivityOfJson (.str scope.maxSensitivity.value) = some scope.maxSensitivity :=
    Schema.Sensitivity.ofValue_value scope.maxSensitivity
  rw [List.map_id] at hkinds
  rw [toJson, Schema.Scope.modelValidate]
  simp [fields, mirror, Fields.required, Fields.optional, Fields.withDefault, Json.string?, List.lookup_cons, hsources, hkinds,
    hsensitivity]

/-- One source id that does not pass the check keeps the scope from validating. -/
theorem modelValidate_eq_none {source : SourceId} (hsource : source ∈ scope.sources) (h : ¬ checkSourceId source.raw = true) :
    Schema.Scope.modelValidate scope.toJson = none := by
  have hsources : Json.list? Schema.sourceIdOfJson (.arr (scope.sources.map (fun source => .str source.raw))) = none :=
    list?_map_eq_none hsource (Schema.sourceIdOfJson_eq_none h)
  rw [toJson, Schema.Scope.modelValidate]
  simp [fields, Fields.required, Fields.withDefault, Json.string?, List.lookup_cons, hsources]

end Scope
end Memorai.Shared
