import Memorai.Collections.Dict
import Memorai.Collections.Results
import Memorai.Schema.Records
import Memorai.Text.Strings
import Memorai.Wire.Json

/-! Conversations of a ChatGPT export, as decoded JSON: one of them becomes one record. The fields of an object are the
items of a dict. -/
namespace Memorai.Connectors.ChatGpt
open Schema Text Wire Results

def SOURCE_ID : SourceId := ⟨"chatgpt", by decide⟩

def keptRoles : List String := ["user", "assistant"]

def maxTitleChars : Nat := 80

/-- What makes the import raise: a parent that cannot be looked up, a time that is no integer. -/
inductive Raised where
  | unhashable
  | notAnInteger (literal : String)
  deriving DecidableEq, Repr

/-- Floats, by their literals. -/
structure Floats where
  /-- `int(seconds * 1000)`. It raises where this is infinite or no number. -/
  millis : String → Except Raised Int
  /-- `bool(seconds)` -/
  truthy : String → Bool

def truthy (floats : Floats) : Json → Bool
  | .null => false
  | .bool b => b
  | .int n => n ≠ 0
  | .decimal literal => floats.truthy literal
  | .str s => s ≠ ""
  | .arr items => !items.isEmpty
  | .obj fields => !fields.isEmpty

/-- `_ms` -/
def ms (floats : Floats) : Option Json → Except Raised (Option Int)
  | some (.int n) => .ok (some (n * 1000))
  | some (.decimal literal) => (floats.millis literal).map some
  | _ => .ok none

section Messages

/-- `_part_text`: parts that are no text leave a placeholder. -/
def partText : Json → String
  | .str s => s
  | .obj part =>
    let filled := ["text", "content"].findSome? (fun key =>
      match part.lookup key with
      | some (.str value) => if strip value = "" then none else some value
      | _ => none)
    match filled, part.lookup "content_type" with
    | some value, _ => value
    | none, some (.str kind) => "[" ++ kind ++ "]"
    | none, _ => ""
  | _ => ""

def contentText : Option Json → String
  | some (.obj content) =>
    match content.lookup "parts", content.lookup "text" with
    | some (.arr parts), _ => strip (join "\n" ((parts.map partText).filter (fun t => strip t ≠ "")))
    | _, some (.str text) => strip text
    | _, _ => strip ""
  | _ => ""

/-- `_message_text` -/
def messageText (message : Fields) : String := contentText (message.lookup "content")

/-- `_role` -/
def role (message : Fields) : Option String :=
  match message.lookup "author" with
  | some (.obj author) =>
    match author.lookup "role" with
    | some (.str role) => some role
    | _ => none
  | _ => none

/-- `_is_hidden` -/
def isHidden (floats : Floats) (message : Fields) : Bool :=
  match message.lookup "metadata" with
  | some (.obj metadata) => (metadata.lookup "is_visually_hidden_from_conversation").any (truthy floats)
  | _ => false

end Messages

section Walk

/-- `node.get("parent") not in mapping`. Only what can be hashed can be looked up. -/
def parentless (mapping : Fields) : Option Json → Except Raised Bool
  | some (.str parent) => .ok (parent ∉ mapping.map Prod.fst)
  | some (.arr _) => .error .unhashable
  | some (.obj _) => .error .unhashable
  | _ => .ok true

def rootOf (mapping : Fields) : String × Json → Except Raised (Option String)
  | (nodeId, .obj node) => (parentless mapping (node.lookup "parent")).map (fun root => if root then some nodeId else none)
  | _ => .ok none

/-- `_roots` -/
def roots (mapping : Fields) : Except Raised (List String) := do
  let found ← mapping.mapM (rootOf mapping)
  .ok (if found.reduceOption = [] then mapping.map Prod.fst else found.reduceOption)

def message? (node : Fields) : Option Fields :=
  match node.lookup "message" with
  | some (.obj message) => some message
  | _ => none

/-- The most recent regeneration. -/
def lastChild (node : Fields) : Option String :=
  match node.lookup "children" with
  | some (.arr children) => (children.filterMap Json.string?).getLast?
  | _ => none

def without (mapping : Fields) (nodeId : String) : Fields := mapping.filter (fun entry => entry.1 ≠ nodeId)

theorem length_without_lt {mapping : Fields} {nodeId : String} {node : Json} (h : mapping.lookup nodeId = some node) :
    (without mapping nodeId).length < mapping.length := by
  rw [without, List.length_filter_lt_length_iff_exists]
  exact ⟨(nodeId, node), Dict.mem_of_lookup h, by simp⟩

/-- The loop of `walk_linear` from a node on. A node that was seen is not in the rest of the mapping any more. -/
def follow (mapping : Fields) (nodeId : String) : List Fields :=
  match _hnode : mapping.lookup nodeId with
  | some (.obj node) =>
    (message? node).toList ++
      match lastChild node with
      | some child => follow (without mapping nodeId) child
      | none => []
  | _ => []
termination_by mapping.length
decreasing_by exact length_without_lt ‹_›

theorem follow_of_node {mapping node : Fields} {nodeId : String} (h : mapping.lookup nodeId = some (.obj node)) :
    follow mapping nodeId =
      (message? node).toList ++ (lastChild node).elim [] (follow (without mapping nodeId)) := by
  rw [follow]
  split
  · rename_i hnode
    obtain rfl := Json.obj.inj (Option.some.inj (h.symm.trans hnode))
    cases lastChild node <;> rfl
  · rename_i hnone
    exact absurd h (hnone node)

theorem follow_of_none {mapping : Fields} {nodeId : String} (h : ∀ node, mapping.lookup nodeId ≠ some (.obj node)) :
    follow mapping nodeId = [] := by
  rw [follow]
  split
  · rename_i hnode
    exact absurd hnode (h _)
  · rfl

/-- `walk_linear` -/
def walkLinear (mapping : Fields) : Except Raised (List Fields) := do
  if mapping = [] then .ok [] else
  let ids ← roots mapping
  .ok (ids.head?.elim [] (follow mapping))

end Walk

section Records

structure Turn where
  role : String
  text : String
  atMs : Option Int
  deriving DecidableEq, Repr

/-- The turn of a message that is kept. -/
def turnOf (floats : Floats) (message : Fields) : Except Raised (Option Turn) :=
  match role message with
  | some role =>
    if role ∈ keptRoles ∧ isHidden floats message = false ∧ messageText message ≠ "" then
      (ms floats (message.lookup "create_time")).map (fun atMs => some ⟨role, messageText message, atMs⟩)
    else .ok none
  | none => .ok none

/-- `_turns` -/
def turns (floats : Floats) (messages : List Fields) : Except Raised (List Turn) := do
  let kept ← messages.mapM (turnOf floats)
  .ok kept.reduceOption

/-- What the first message of the user begins with, on one line. -/
def opening (turns : List Turn) : Option String :=
  let firstUser := (turns.find? (fun turn => turn.role = "user")).map Turn.text
  (firstUser.filter (fun text => text ≠ "")).map (fun text => upTo maxTitleChars (join " " (words text)))

/-- `_title_for` -/
def titleFor (conversation : Fields) (turns : List Turn) : String :=
  match conversation.lookup "title" with
  | some (.str title) =>
    if strip title ≠ "" then strip title else (opening turns).getD "Untitled ChatGPT conversation"
  | _ => (opening turns).getD "Untitled ChatGPT conversation"

def renderTranscript (turns : List Turn) : String := join "\n\n" (turns.map (fun turn => turn.role ++ ": " ++ turn.text))

/-- `conversation_id`, or else `id`. -/
def externalId (floats : Floats) (conversation : Fields) : Option String :=
  let id := ((conversation.lookup "conversation_id").filter (truthy floats)).or (conversation.lookup "id")
  match id with
  | some (.str externalId) => if externalId = "" then none else some externalId
  | _ => none

def mappingOf (conversation : Fields) : Fields :=
  match conversation.lookup "mapping" with
  | some (.obj mapping) => mapping
  | _ => []

/-- The first of these times that is there and not zero. -/
def firstTime (times : List (Option Int)) : Int := (times.findSome? (fun t => t.filter (· ≠ 0))).getD 0

/-- `conversation_to_record`, with the time of the last activity. The metadata has no references to other records. -/
def conversationToRecord (floats : Floats) (conversation : Json) (sensitive : Bool) :
    Except Raised (Option (RawRecord × Int)) :=
  match conversation with
  | .obj fields => do
    let messages ← walkLinear (mappingOf fields)
    let turns ← turns floats messages
    if turns = [] then .ok none
    else
      match externalId floats fields with
      | none => .ok none
      | some externalId => do
        let created ← ms floats (fields.lookup "create_time")
        let updated ← ms floats (fields.lookup "update_time")
        let messageTimes := turns.filterMap Turn.atMs
        let createdMs := firstTime [created, messageTimes.min?, updated]
        let lastActivityMs := messageTimes.foldl max (max createdMs (updated.getD 0))
        .ok (some (
          { externalId := externalId
            connector := SOURCE_ID
            occurredAtMs := createdMs
            title := titleFor fields turns
            body := renderTranscript turns
            url := some ("https://chatgpt.com/c/" ++ externalId)
            sensitive := sensitive }, lastActivityMs))
  | _ => .ok none

end Records

end Memorai.Connectors.ChatGpt
