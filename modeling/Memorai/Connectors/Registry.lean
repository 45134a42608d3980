import Memorai.Connectors.Chunkers
import Memorai.Connectors.Exports
import Memorai.Connectors.Imports

/-! The registry of known sources, and the connectors this build ships with. A spec is known by its object, since one that is
registered again must be the same. -/
namespace Memorai.Connectors
open Schema Text Wire Exports

/-- What a deployment chooses about its sources and its extractor. -/
structure Settings where
  mode : String := "mock"
  connectorFixtures : String := "auto"
  extractor : String := "auto"
  enabledSources : List String := []
  /-- `Path(..).expanduser()` of the setting -/
  chatgptExportDir : Option Path := none
  chatgptSensitive : Bool := true
  deriving DecidableEq, Repr

namespace Settings
variable (settings : Settings)

/-- `_resolve` -/
def resolve (override liveValue mockValue : String) : String :=
  if override ≠ "auto" then override else if settings.mode = "live" then liveValue else mockValue

def useFixtureConnectors : Bool := settings.resolve settings.connectorFixtures "never" "auto" ≠ "never"

def useLlmExtractor : Bool := settings.resolve settings.extractor "llm" "mock" = "llm"

def sourceEnabled (source : String) : Bool := settings.enabledSources = [] || source ∈ settings.enabledSources

end Settings

/-- What the connectors read from outside: files, and what a file holds as decoded JSON. -/
structure Disk where
  files : FileSystem
  loadExport : Path → Except String Json
  floats : ChatGpt.Floats

inductive FetchError where
  | notImplemented (text : String)
  | export (error : ExportError)
  | unreadable (text : String)
  | raised (error : ChatGpt.Raised)

/-- `fetch(owner_id, since_ms)` -/
abbrev SourceConnector := Disk → String → Int → Except FetchError (List RawRecord)

structure ConnectorSpec where
  sourceId : String
  displayName : String
  factory : Settings → SourceConnector
  chunker : String → Except IndexError (List String) := fun text => .ok (defaultChunker text)
  requiresOauth : Bool := false
  oauthScopes : List String := []
  mockFactory : Option (Settings → SourceConnector) := none

inductive RegisterError where
  | invalidId (sourceId : String)
  | scopesWithoutOauth (sourceId : String)
  | alreadyRegistered (sourceId : String)
  deriving DecidableEq, Repr

structure UnknownSourceError where
  source : String
  known : List String
  deriving DecidableEq, Repr

/-- `str(error)`. `repr` is how a string is quoted. -/
def UnknownSourceError.message (repr : String → String) (e : UnknownSourceError) : String :=
  "unknown source " ++ repr e.source ++ "; known sources: " ++ if join ", " e.known = "" then "none" else join ", " e.known

/-- The specs by their source ids. -/
abbrev Registry (Obj : Type) := List (String × Obj)

namespace Registry
variable {Obj : Type} [DecidableEq Obj] (spec : Obj → ConnectorSpec)

/-- What every registered spec is. -/
def WellFormed (s : ConnectorSpec) : Prop := checkSourceId s.sourceId = true ∧ (s.oauthScopes = [] ∨ s.requiresOauth = true)

instance (s : ConnectorSpec) : Decidable (WellFormed s) := by unfold WellFormed; infer_instance

def register (registry : Registry Obj) (o : Obj) : Except RegisterError (Registry Obj) :=
  if checkSourceId (spec o).sourceId = false then .error (.invalidId (spec o).sourceId)
  else if (spec o).oauthScopes ≠ [] ∧ (spec o).requiresOauth = false then .error (.scopesWithoutOauth (spec o).sourceId)
  else
    match registry.lookup (spec o).sourceId with
    | some existing =>
      if existing ≠ o then .error (.alreadyRegistered (spec o).sourceId)
      else .ok (Dict.assign (spec o).sourceId o registry)
    | none => .ok (Dict.assign (spec o).sourceId o registry)

/-- Some specs in turn. One that is refused changes nothing. -/
def registerAll (calls : List Obj) (registry : Registry Obj) : Registry Obj :=
  calls.foldl (fun registry o => (register spec registry o).toOption.getD registry) registry

def ids (registry : Registry Obj) : List String := (registry.map Prod.fst).insertionSort (fun a b => a ≤ b)

def spec? (registry : Registry Obj) (source : String) : Except UnknownSourceError ConnectorSpec :=
  match registry.lookup source with
  | some o => .ok (spec o)
  | none => .error ⟨source, registry.ids⟩

/-- Mock mode applies to each source that declared a fixture. -/
def connector (registry : Registry Obj) (source : String) (settings : Settings) : Except UnknownSourceError SourceConnector :=
  (registry.spec? spec source).map (fun s =>
    match s.mockFactory with
    | some fixture => if settings.useFixtureConnectors then fixture settings else s.factory settings
    | none => s.factory settings)

/-- A source that is not registered has the default chunker. -/
def chunker (registry : Registry Obj) (source : String) : String → Except IndexError (List String) :=
  ((registry.lookup source).map (fun o => (spec o).chunker)).getD (fun text => .ok (defaultChunker text))

section Calls
variable {spec : Obj → ConnectorSpec} {registry : Registry Obj} {o : Obj} {source : String}

/-- A spec is registered exactly if it is well formed and no other one has its place. -/
theorem register_ok_iff : (∃ registry', register spec registry o = .ok registry') ↔
    WellFormed (spec o) ∧ ∀ existing ∈ registry.lookup (spec o).sourceId, existing = o := by
  by_cases hid : checkSourceId (spec o).sourceId = true
  · by_cases hscopes : (spec o).oauthScopes ≠ [] ∧ (spec o).requiresOauth = false
    · have hill : ¬ WellFormed (spec o) := fun h => h.2.elim hscopes.1 (fun hoauth => by simp [hoauth] at hscopes)
      simp [register, hid, hscopes, hill]
    · have hwell : WellFormed (spec o) := by
        refine ⟨hid, ?_⟩
        by_cases hnil : (spec o).oauthScopes = []
        · exact Or.inl hnil
        · exact Or.inr (by simpa [hnil] using hscopes)
      rw [register, if_neg (by simp [hid]), if_neg hscopes]
      cases hplace : registry.lookup (spec o).sourceId with
      | none => simp [hwell]
      | some existing =>
        by_cases hsame : existing = o
        · simp [hwell, hsame]
        · simp [hwell, hsame]
  · have hill : ¬ WellFormed (spec o) := fun h => hid h.1
    simp [register, hid, hill]

theorem eq_of_register_ok {registry' : Registry Obj} (h : register spec registry o = .ok registry') :
    registry' = Dict.assign (spec o).sourceId o registry := by
  unfold register at h
  split_ifs at h
  split at h
  · split_ifs at h
    exact (Except.ok.inj h).symm
  · exact (Except.ok.inj h).symm

/-- Registration fills an empty place and changes no other. -/
theorem lookup_register : List.lookup source ((register spec registry o).toOption.getD registry) =
    (registry.lookup source).or (if WellFormed (spec o) ∧ (spec o).sourceId = source then some o else none) := by
  by_cases hok : ∃ registry', register spec registry o = .ok registry'
  · obtain ⟨hwell, hplace⟩ := register_ok_iff.mp hok
    obtain ⟨registry', h⟩ := hok
    rw [h, eq_of_register_ok h]
    refine (Dict.lookup_assign _ _ _ _).trans ?_
    by_cases hsource : source = (spec o).sourceId
    · subst hsource
      rw [if_pos rfl, if_pos ⟨hwell, rfl⟩]
      cases hlookup : registry.lookup (spec o).sourceId with
      | none => rfl
      | some existing => rw [hplace existing hlookup, Option.some_or]
    · rw [if_neg hsource, if_neg (fun h => hsource h.2.symm), Option.or_none]
  · have hrefused : (register spec registry o).toOption = none := by
      cases h : register spec registry o with
      | error e => rfl
      | ok registry' => exact absurd ⟨registry', h⟩ hok
    rw [hrefused, Option.getD_none]
    by_cases hown : WellFormed (spec o) ∧ (spec o).sourceId = source
    · obtain ⟨hwell, rfl⟩ := hown
      cases hlookup : registry.lookup (spec o).sourceId with
      | none => exact absurd (register_ok_iff.mpr ⟨hwell, by simp [hlookup]⟩) hok
      | some existing => rw [Option.some_or]
    · rw [if_neg hown, Option.or_none]

/-- Whatever is registered and refused in whatever order, each source has the first well-formed spec that named it. -/
theorem lookup_registerAll (calls : List Obj) : List.lookup source (registerAll spec calls registry) =
    (registry.lookup source).or (calls.find? (fun o => WellFormed (spec o) ∧ (spec o).sourceId = source)) := by
  induction calls generalizing registry with
  | nil => exact (Option.or_none).symm
  | cons o calls ih =>
    rw [registerAll, List.foldl_cons]
    refine ih.trans ?_
    rw [lookup_register, Option.or_assoc]
    refine congrArg _ ?_
    by_cases h : WellFormed (spec o) ∧ (spec o).sourceId = source
    · simp [h]
    · rw [if_neg h, List.find?_cons_of_neg (by simpa using h), Option.none_or]

omit [DecidableEq Obj] in
theorem mem_ids : source ∈ registry.ids ↔ ∃ o, registry.lookup source = some o := by
  rw [ids, List.mem_insertionSort, ← Option.isSome_iff_exists, List.lookup_isSome_iff, List.mem_map]
  exact exists_congr (fun p => and_congr_right (fun _ => by rw [beq_iff_eq, eq_comm]))

private theorem nodup_keys_registerAll (calls : List Obj) (h : (registry.map Prod.fst).Nodup) :
    ((registerAll spec calls registry).map Prod.fst).Nodup := by
  induction calls generalizing registry with
  | nil => exact h
  | cons o calls ih =>
    refine ih ?_
    dsimp only
    cases hcall : register spec registry o with
    | error e => exact h
    | ok registry' =>
      obtain rfl := eq_of_register_ok hcall
      exact Dict.nodup_keys_assign _ _ h

/-- After any calls, those that were refused among them: each source has the first well-formed spec that named it, the ids are
listed once and in order, and a spec is let in exactly if it is the first of its source itself. -/
theorem registered_first (calls : List Obj) :
    (∀ source, List.lookup source (registerAll spec calls []) =
      calls.find? (fun o => WellFormed (spec o) ∧ (spec o).sourceId = source)) ∧
    (∀ source, source ∈ (registerAll spec calls []).ids ↔ ∃ o ∈ calls, WellFormed (spec o) ∧ (spec o).sourceId = source) ∧
    (registerAll spec calls []).ids.Pairwise (· < ·) ∧
    ∀ o, (∃ registry, register spec (registerAll spec calls []) o = .ok registry) ↔
      (calls ++ [o]).find? (fun o' => WellFormed (spec o') ∧ (spec o').sourceId = (spec o).sourceId) = some o := by
  have hlookup : ∀ source, List.lookup source (registerAll spec calls []) =
      calls.find? (fun o => WellFormed (spec o) ∧ (spec o).sourceId = source) := fun source => lookup_registerAll calls
  refine ⟨hlookup, fun source => ?_, ?_, fun o => ?_⟩
  · rw [mem_ids, hlookup, ← Option.isSome_iff_exists, List.find?_isSome]
    simp only [decide_eq_true_eq]
  · refine List.Pairwise.imp₂ (fun a b hle hne => lt_of_le_of_ne hle hne) (List.pairwise_insertionSort _ _) ?_
    exact (List.perm_insertionSort _ _).nodup_iff.mpr (nodup_keys_registerAll calls List.nodup_nil)
  · rw [register_ok_iff, hlookup, List.find?_append]
    by_cases hwell : WellFormed (spec o)
    · have hown : [o].find? (fun o' => WellFormed (spec o') ∧ (spec o').sourceId = (spec o).sourceId) = some o := by simp [hwell]
      rw [hown, and_iff_right hwell]
      cases hfirst : calls.find? (fun o' => WellFormed (spec o') ∧ (spec o').sourceId = (spec o).sourceId) with
      | none => simp
      | some existing => simp
    · have hown : [o].find? (fun o' => WellFormed (spec o') ∧ (spec o').sourceId = (spec o).sourceId) = none := by simp [hwell]
      rw [hown, Option.or_none, List.find?_eq_some_iff_append]
      simp [hwell]

end Calls

end Registry
end Memorai.Connectors
