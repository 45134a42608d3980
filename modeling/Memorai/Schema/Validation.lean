import Memorai.Schema.Permissions
import Memorai.Wire.Json

/-! `Scope.model_validate`. Conversions from other JSON types than those a scope is written in, such as a
numeral in a string, are left out: what is validated here was written by the gateway. -/
namespace Memorai.Schema
open Wire

/-- `SourceId`, an annotated string with a validator. -/
def sourceIdOfJson : Json → Option SourceId
  | .str value => if h : checkSourceId value = true then some ⟨value, h⟩ else none
  | _ => none

def entityKindOfJson (j : Json) : Option EntityKind := j.string?.bind EntityKind.ofValue

def sensitivityOfJson (j : Json) : Option Sensitivity := j.string?.bind Sensitivity.ofValue

def intOfJson : Json → Option Int
  | .int n => some n
  | _ => none

def Scope.modelValidate : Json → Option Scope
  | .obj fields => do
    let fields : Fields := fields
    return {
      agentId := ← fields.required "agent_id" Json.string?
      ownerId := ← fields.required "owner_id" Json.string?
      sources := ← fields.withDefault "sources" (Json.list? sourceIdOfJson) []
      entityKinds := ← fields.withDefault "entity_kinds" (Json.list? entityKindOfJson) []
      notBeforeMs := ← fields.optional "not_before_ms" intOfJson
      notAfterMs := ← fields.optional "not_after_ms" intOfJson
      maxSensitivity := ← fields.withDefault "max_sensitivity" sensitivityOfJson .personal
      expiresAtMs := ← fields.optional "expires_at_ms" intOfJson }
  | _ => none

theorem sourceIdOfJson_str {value : String} (h : checkSourceId value = true) :
    sourceIdOfJson (.str value) = some ⟨value, h⟩ := dif_pos h

theorem sourceIdOfJson_eq_none {value : String} (h : ¬ checkSourceId value = true) :
    sourceIdOfJson (.str value) = none := dif_neg h

@[simp] theorem option?_intOfJson_u64 (n : Option UInt64) :
    Json.option? intOfJson (.option .u64 n) = some (n.map (fun n => (n.toNat : Int))) := by
  cases n <;> rfl

end Memorai.Schema
