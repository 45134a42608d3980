import Memorai.Connectors.Walks

/-! The import of an export: its conversations one after the other, and which of them it gets through. -/
namespace Memorai.Connectors.ChatGpt
open Schema Text Wire Results

def conversationsOf : Json → List Json
  | .arr conversations => conversations
  | _ => []

/-- `parse_export`, read to its end. -/
def parseExport (floats : Floats) (payload : Json) (sinceMs : Int) (sensitive : Bool) : Except Raised (List RawRecord) := do
  let parsed ← (conversationsOf payload).mapM (fun conversation => conversationToRecord floats conversation sensitive)
  .ok ((parsed.reduceOption.filter (fun p => sinceMs ≤ p.2)).map Prod.fst)

/-- Every conversation gives the records it gives, whichever of the others are there. -/
def Robust (floats : Floats) (payload : Json) (sinceMs : Int) (sensitive : Bool) : Prop :=
  ∃ recordOf : Json → Option RawRecord,
    parseExport floats payload sinceMs sensitive = .ok ((conversationsOf payload).filterMap recordOf) ∧
      ∀ wellFormed : Json → Bool, parseExport floats (.arr ((conversationsOf payload).filter wellFormed)) sinceMs sensitive =
        .ok (((conversationsOf payload).filter wellFormed).filterMap recordOf)

/-- A time that is not a float too large to be an integer, or no number at all. -/
def Finite (floats : Floats) : Option Json → Prop
  | some (.decimal literal) => ∃ n, floats.millis literal = .ok n
  | _ => True

/-- A message that becomes a turn. -/
def Kept (floats : Floats) (message : Fields) : Prop :=
  ∃ who ∈ role message, who ∈ keptRoles ∧ isHidden floats message = false ∧ messageText message ≠ ""

/-- What a conversation needs for the import to get through it. -/
structure Sound (floats : Floats) (conversation : Fields) : Prop where
  parents : Hashable (mappingOf conversation)
  messages : ∀ message, OnBranch (mappingOf conversation) message → Kept floats message →
    Finite floats (message.lookup "create_time")
  times : (∃ message, OnBranch (mappingOf conversation) message ∧ Kept floats message) →
    (∃ id, externalId floats conversation = some id) →
      Finite floats (conversation.lookup "create_time") ∧ Finite floats (conversation.lookup "update_time")

section Turns
variable {floats : Floats} {message : Fields} {messages : List Fields}

theorem exists_ms_iff {time : Option Json} : (∃ t, ms floats time = .ok t) ↔ Finite floats time := by
  cases time with
  | none => exact iff_of_true ⟨_, rfl⟩ trivial
  | some time =>
    cases time with
    | decimal literal => exact exists_map_ok_iff
    | _ => exact iff_of_true ⟨_, rfl⟩ trivial

theorem turnOf_of_kept (h : Kept floats message) : ∃ who, turnOf floats message =
    (ms floats (message.lookup "create_time")).map (fun atMs => some ⟨who, messageText message, atMs⟩) := by
  obtain ⟨who, hrole, hkept⟩ := h
  exact ⟨who, by rw [turnOf, hrole]; exact if_pos hkept⟩

theorem turnOf_of_not_kept (h : ¬ Kept floats message) : turnOf floats message = .ok none := by
  rw [turnOf]
  cases hrole : role message with
  | none => rfl
  | some who => exact if_neg (fun hkept => h ⟨who, hrole, hkept⟩)

theorem turnOf_ok_iff : (∃ turn, turnOf floats message = .ok turn) ↔
    (Kept floats message → Finite floats (message.lookup "create_time")) := by
  by_cases hkept : Kept floats message
  · obtain ⟨who, hturn⟩ := turnOf_of_kept hkept
    rw [hturn, exists_map_ok_iff, exists_ms_iff, forall_prop_of_true hkept]
  · exact iff_of_true ⟨none, turnOf_of_not_kept hkept⟩ (fun h => absurd h hkept)

theorem turns_ok_iff : (∃ ts, turns floats messages = .ok ts) ↔
    ∀ message ∈ messages, Kept floats message → Finite floats (message.lookup "create_time") := by
  rw [turns, exists_bind_ok_iff]
  simp only [Except.ok.injEq, exists_eq', and_true]
  rw [exists_mapM_iff]
  exact forall₂_congr (fun _ _ => turnOf_ok_iff)

/-- A message becomes a turn exactly if it is kept. -/
theorem turns_ne_nil_iff {ts : List Turn} (h : turns floats messages = .ok ts) :
    ts ≠ [] ↔ ∃ message ∈ messages, Kept floats message := by
  obtain ⟨kept, hkept, h⟩ := bind_ok h
  obtain rfl := Except.ok.inj h
  constructor
  · intro hsome
    obtain ⟨turn, hturn⟩ := List.exists_mem_of_ne_nil _ hsome
    obtain ⟨message, hmem, hof⟩ := exists_of_mapM hkept (List.reduceOption_mem_iff.mp hturn)
    refine ⟨message, hmem, ?_⟩
    by_contra hdropped
    exact absurd (hof.symm.trans (turnOf_of_not_kept hdropped)) nofun
  · rintro ⟨message, hmem, hkeep⟩
    obtain ⟨turn, hin, hof⟩ := Lists.exists_of_forall₂ (forall₂_of_mapM hkept).flip hmem
    obtain ⟨who, hturn⟩ := turnOf_of_kept hkeep
    obtain ⟨atMs, -, rfl⟩ := map_ok (hturn.symm.trans hof)
    exact List.ne_nil_of_mem (List.reduceOption_mem_iff.mpr hin)

end Turns

section Conversations
variable {floats : Floats} {fields : Fields} {conversation payload : Json} {sinceMs : Int} {sensitive : Bool}

theorem walkLinear_ok_iff {mapping : Fields} : (∃ messages, walkLinear mapping = .ok messages) ↔ Hashable mapping := by
  constructor
  · rintro ⟨messages, h⟩
    exact hashable_of_walkLinear h
  · intro h
    obtain ⟨ids, -, hwalk⟩ := walkLinear_of_hashable h
    exact ⟨_, hwalk⟩

/-- A conversation is imported, or passed over, exactly if it is sound. -/
theorem conversationToRecord_ok_iff :
    (∃ parsed, conversationToRecord floats (.obj fields) sensitive = .ok parsed) ↔ Sound floats fields := by
  rw [conversationToRecord, exists_bind_ok_iff]
  constructor
  · rintro ⟨messages, hwalk, h⟩
    obtain ⟨ts, hts, h⟩ := exists_bind_ok_iff.mp h
    refine ⟨hashable_of_walkLinear hwalk, ?_, ?_⟩
    · intro message hbranch
      exact turns_ok_iff.mp ⟨ts, hts⟩ message ((mem_walkLinear_iff hwalk).mpr hbranch)
    · rintro ⟨message, hbranch, hkept⟩ ⟨id, hid⟩
      rw [if_neg ((turns_ne_nil_iff hts).mpr ⟨message, (mem_walkLinear_iff hwalk).mpr hbranch, hkept⟩), hid] at h
      obtain ⟨created, hcreated, h⟩ := exists_bind_ok_iff.mp h
      obtain ⟨updated, hupdated, -⟩ := exists_bind_ok_iff.mp h
      exact ⟨exists_ms_iff.mp ⟨created, hcreated⟩, exists_ms_iff.mp ⟨updated, hupdated⟩⟩
  · rintro ⟨hparents, hmessages, htimes⟩
    obtain ⟨messages, hwalk⟩ := walkLinear_ok_iff.mpr hparents
    obtain ⟨ts, hts⟩ := turns_ok_iff.mpr (fun message hmem => hmessages message ((mem_walkLinear_iff hwalk).mp hmem))
    refine ⟨messages, hwalk, exists_bind_ok_iff.mpr ⟨ts, hts, ?_⟩⟩
    split_ifs with hnil
    · exact ⟨none, rfl⟩
    · cases hid : externalId floats fields with
      | none => exact ⟨none, rfl⟩
      | some id =>
        obtain ⟨message, hmem, hkept⟩ := (turns_ne_nil_iff hts).mp hnil
        obtain ⟨hcreate, hupdate⟩ := htimes ⟨message, (mem_walkLinear_iff hwalk).mp hmem, hkept⟩ ⟨id, hid⟩
        obtain ⟨created, hcreated⟩ := exists_ms_iff.mpr hcreate
        obtain ⟨updated, hupdated⟩ := exists_ms_iff.mpr hupdate
        exact exists_bind_ok_iff.mpr ⟨created, hcreated, exists_bind_ok_iff.mpr ⟨updated, hupdated, _, rfl⟩⟩

theorem parses_iff : (∃ parsed, conversationToRecord floats conversation sensitive = .ok parsed) ↔
    ∀ fields, conversation = .obj fields → Sound floats fields := by
  cases conversation with
  | obj fields =>
    rw [conversationToRecord_ok_iff]
    constructor
    · intro h fields' heq
      exact Json.obj.inj heq ▸ h
    · intro h
      exact h fields rfl
  | _ => exact iff_of_true ⟨none, rfl⟩ (fun _ h => nomatch h)

/-- The record of a conversation that is as recent as that. -/
def recentRecord (floats : Floats) (sinceMs : Int) (sensitive : Bool) (conversation : Json) : Option RawRecord :=
  ((conversationToRecord floats conversation sensitive).toOption.join.filter (fun p => sinceMs ≤ p.2)).map Prod.fst

theorem parseExport_of_parses {conversations : List Json}
    (h : ∀ conversation ∈ conversations, ∃ parsed, conversationToRecord floats conversation sensitive = .ok parsed) :
    parseExport floats (.arr conversations) sinceMs sensitive =
      .ok (conversations.filterMap (recentRecord floats sinceMs sensitive)) := by
  have hparsed : conversations.mapM (fun conversation => conversationToRecord floats conversation sensitive) =
      .ok (conversations.map (fun conversation => (conversationToRecord floats conversation sensitive).toOption.join)) := by
    refine mapM_eq_ok (fun conversation hmem => ?_)
    obtain ⟨parsed, hparsed⟩ := h conversation hmem
    rw [hparsed]
    rfl
  rw [parseExport, conversationsOf, hparsed]
  refine congrArg Except.ok ?_
  rw [List.reduceOption, List.filterMap_map, List.filter_filterMap, List.map_filterMap]
  rfl

theorem parses_of_parseExport {records : List RawRecord} (h : parseExport floats payload sinceMs sensitive = .ok records) :
    ∀ conversation ∈ conversationsOf payload, ∃ parsed, conversationToRecord floats conversation sensitive = .ok parsed := by
  obtain ⟨parsed, hparsed, -⟩ := bind_ok h
  exact exists_mapM_iff.mp ⟨parsed, hparsed⟩

/-- The import of an export is robust exactly if all of its conversations are sound. -/
theorem import_robust_iff (floats : Floats) (payload : Json) (sinceMs : Int) (sensitive : Bool) :
    Robust floats payload sinceMs sensitive ↔
      ∀ fields, Json.obj fields ∈ conversationsOf payload → Sound floats fields := by
  constructor
  · rintro ⟨recordOf, hall, -⟩ fields hmem
    exact parses_iff.mp (parses_of_parseExport hall _ hmem) fields rfl
  · intro h
    have hparses : ∀ conversation ∈ conversationsOf payload,
        ∃ parsed, conversationToRecord floats conversation sensitive = .ok parsed := by
      intro conversation hmem
      exact parses_iff.mpr (fun fields heq => h fields (heq ▸ hmem))
    refine ⟨recentRecord floats sinceMs sensitive, ?_, fun wellFormed => ?_⟩
    · have hpayload : parseExport floats payload sinceMs sensitive =
          parseExport floats (.arr (conversationsOf payload)) sinceMs sensitive := rfl
      rw [hpayload, parseExport_of_parses hparses]
    · exact parseExport_of_parses (fun conversation hmem => hparses conversation (List.mem_filter.mp hmem).1)

end Conversations

section Malformed

/-- A conversation with one question in it. -/
def question (parent : Json) : Json := .obj [
  ("conversation_id", .str "conv-1"),
  ("create_time", .int 1735689600),
  ("mapping", .obj [("m1", .obj [
    ("parent", parent),
    ("children", .arr []),
    ("message", .obj [
      ("author", .obj [("role", .str "user")]),
      ("content", .obj [("parts", .arr [.str "Which queue?"])])])])])]

/-- One conversation with a list for a parent, and there are no records of the other one. -/
theorem list_parent_ends_import :
    ¬ ∀ floats payload sinceMs sensitive, Robust floats payload sinceMs sensitive := by
  intro h
  obtain ⟨recordOf, hall, -⟩ := h ⟨fun _ => .ok 0, fun _ => true⟩ (.arr [question .null, question (.arr [])]) 0 true
  obtain ⟨parsed, hparsed⟩ := parses_of_parseExport hall (question (.arr [])) (by simp [conversationsOf])
  have hraised : conversationToRecord ⟨fun _ => .ok 0, fun _ => true⟩ (question (.arr [])) true = .error .unhashable := rfl
  exact absurd (hraised.symm.trans hparsed) nofun

end Malformed
end Memorai.Connectors.ChatGpt
