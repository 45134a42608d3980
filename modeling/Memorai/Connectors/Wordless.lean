import Mathlib.Data.List.ReduceOption
import Memorai.Collections.Lists
import Memorai.Connectors.ChatGpt

/-! Conversations that are the same but for what their messages say. -/
namespace Memorai.Connectors.ChatGpt
open Schema Text Wire Results

def onFields (f : Fields → Fields) : Json → Json
  | .obj fields => .obj (f fields)
  | other => other

def replaceField (key : String) (f : Json → Json) (fields : Fields) : Fields :=
  fields.map (fun entry => (entry.1, if entry.1 = key then f entry.2 else entry.2))

/-- A message with its content replaced by whether it is empty. -/
def wordless : Fields → Fields := replaceField "content" (fun content => .bool (contentText (some content) = ""))

def wordlessNode : Json → Json := onFields (replaceField "message" (onFields wordless))

def wordlessNodes (mapping : Fields) : Fields := mapping.map (fun entry => (entry.1, wordlessNode entry.2))

/-- The conversation as it is whatever its messages say. -/
def wordlessConversation : Json → Json := onFields (replaceField "mapping" (onFields wordlessNodes))

section Fields
variable {key k : String} {f : Json → Json} {fields : Fields}

theorem lookup_replaceField (key : String) (f : Json → Json) (fields : Fields) (k : String) :
    (replaceField key f fields).lookup k = if k = key then (fields.lookup k).map f else fields.lookup k := by
  rw [replaceField, Dict.lookup_map_values (fun k value => if k = key then f value else value)]
  by_cases hk : k = key
  · simp [hk]
  · simp [hk]

theorem lookup_replaceField_of_ne (h : k ≠ key) : (replaceField key f fields).lookup k = fields.lookup k := by
  rw [lookup_replaceField, if_neg h]

theorem lookup_replaceField_self : (replaceField key f fields).lookup key = (fields.lookup key).map f := by
  rw [lookup_replaceField, if_pos rfl]

end Fields

section Messages
variable {floats : Floats} {a b : Fields}

/-- Messages with the same rest agree on every other field. -/
theorem lookup_eq_of_wordless (h : wordless a = wordless b) {k : String} (hk : k ≠ "content") : a.lookup k = b.lookup k := by
  have hkept : ∀ fields, (wordless fields).lookup k = fields.lookup k := fun _ => lookup_replaceField_of_ne hk
  rw [← hkept a, ← hkept b, h]

theorem messageText_eq_empty_iff (h : wordless a = wordless b) : messageText a = "" ↔ messageText b = "" := by
  have hcontent := congrArg (List.lookup "content") h
  rw [wordless, lookup_replaceField_self, lookup_replaceField_self] at hcontent
  unfold messageText
  cases ha : a.lookup "content" with
  | none =>
    rw [ha, Option.map_none, eq_comm, Option.map_eq_none_iff] at hcontent
    rw [hcontent]
  | some content =>
    rw [ha, Option.map_some, eq_comm] at hcontent
    obtain ⟨content', hb, heq⟩ := Option.map_eq_some_iff.mp hcontent
    rw [hb]
    have hdecide : decide (contentText (some content') = "") = decide (contentText (some content) = "") := Json.bool.inj heq
    exact (decide_eq_decide.mp hdecide).symm

/-- Written by the same one, if at all. -/
structure Alike (t t' : Turn) : Prop where
  role : t.role = t'.role
  written : t.text = "" ↔ t'.text = ""

/-- Whether a message is kept is read off its other fields, and off whether it is empty. -/
theorem kept_iff_of_wordless (h : wordless a = wordless b) (who : String) :
    who ∈ keptRoles ∧ isHidden floats a = false ∧ messageText a ≠ "" ↔
      who ∈ keptRoles ∧ isHidden floats b = false ∧ messageText b ≠ "" := by
  have hhidden : isHidden floats a = isHidden floats b := by
    unfold isHidden
    rw [lookup_eq_of_wordless h (by decide)]
  rw [hhidden, ne_eq, messageText_eq_empty_iff h]

theorem turnOf_alike (h : wordless a = wordless b) {t t' : Option Turn} (ha : turnOf floats a = .ok t)
    (hb : turnOf floats b = .ok t') : Option.Rel Alike t t' := by
  have hrole : role a = role b := by
    unfold role
    rw [lookup_eq_of_wordless h (by decide)]
  unfold turnOf at ha hb
  rw [hrole] at ha
  cases hwho : role b with
  | none =>
    rw [hwho] at ha hb
    obtain rfl := Except.ok.inj ha
    obtain rfl := Except.ok.inj hb
    exact .none
  | some who =>
    rw [hwho] at ha hb
    dsimp only at ha hb
    split at ha
    · rename_i hkept
      rw [if_pos ((kept_iff_of_wordless h who).mp hkept)] at hb
      obtain ⟨atMs, _, rfl⟩ := map_ok ha
      obtain ⟨atMs', _, rfl⟩ := map_ok hb
      exact .some ⟨rfl, messageText_eq_empty_iff h⟩
    · rename_i hkept
      rw [if_neg (mt (kept_iff_of_wordless h who).mpr hkept)] at hb
      obtain rfl := Except.ok.inj ha
      obtain rfl := Except.ok.inj hb
      exact .none

theorem kept_alike {ms ms' : List Fields} (h : List.Forall₂ (fun a b => wordless a = wordless b) ms ms')
    {kept kept' : List (Option Turn)} (hkept : ms.mapM (turnOf floats) = .ok kept)
    (hkept' : ms'.mapM (turnOf floats) = .ok kept') : List.Forall₂ Alike kept.reduceOption kept'.reduceOption := by
  induction h generalizing kept kept' with
  | nil =>
    obtain rfl := Except.ok.inj hkept
    obtain rfl := Except.ok.inj hkept'
    exact .nil
  | cons hab _ ih =>
    rw [List.mapM_cons] at hkept hkept'
    obtain ⟨t, ht, hkept⟩ := bind_ok hkept
    obtain ⟨rest, hrest, hkept⟩ := bind_ok hkept
    obtain ⟨t', ht', hkept'⟩ := bind_ok hkept'
    obtain ⟨rest', hrest', hkept'⟩ := bind_ok hkept'
    obtain rfl := Except.ok.inj hkept
    obtain rfl := Except.ok.inj hkept'
    cases turnOf_alike hab ht ht' with
    | none =>
      rw [List.reduceOption_cons_of_none, List.reduceOption_cons_of_none]
      exact ih hrest hrest'
    | some halike =>
      rw [List.reduceOption_cons_of_some, List.reduceOption_cons_of_some]
      exact .cons halike (ih hrest hrest')

theorem turns_alike {ms ms' : List Fields} (h : List.Forall₂ (fun a b => wordless a = wordless b) ms ms')
    {ts ts' : List Turn} (hts : turns floats ms = .ok ts) (hts' : turns floats ms' = .ok ts') : List.Forall₂ Alike ts ts' := by
  obtain ⟨kept, hkept, hts⟩ := bind_ok hts
  obtain ⟨kept', hkept', hts'⟩ := bind_ok hts'
  obtain rfl := Except.ok.inj hts
  obtain rfl := Except.ok.inj hts'
  exact kept_alike h hkept hkept'

/-- There is an opening in both or in neither. -/
theorem isSome_opening_of_alike {ts ts' : List Turn} (h : List.Forall₂ Alike ts ts') :
    (opening ts).isSome ↔ (opening ts').isSome := by
  unfold opening
  induction h with
  | nil => exact Iff.rfl
  | @cons t t' ts ts' halike _ ih =>
    rw [List.find?_cons, List.find?_cons, ← halike.role]
    by_cases huser : t.role = "user"
    · simp only [huser, decide_true, Option.map_some, Option.filter]
      have hwritten := halike.written
      by_cases ht : t.text = ""
      · simp [ht, hwritten.mp ht]
      · simp [ht, mt hwritten.mpr ht]
    · simp only [huser, decide_false]
      exact ih

end Messages

section Walk
variable {mapping node : Fields} {nodeId : String}

theorem lookup_wordlessNodes (mapping : Fields) (nodeId : String) :
    (wordlessNodes mapping).lookup nodeId = (mapping.lookup nodeId).map wordlessNode :=
  Dict.lookup_map_values (fun _ => wordlessNode) mapping nodeId

theorem keys_wordlessNodes (mapping : Fields) : (wordlessNodes mapping).map Prod.fst = mapping.map Prod.fst := by
  rw [wordlessNodes, List.map_map]
  rfl

theorem rootOf_wordlessNodes (mapping : Fields) (entry : String × Json) :
    rootOf (wordlessNodes mapping) (entry.1, wordlessNode entry.2) = rootOf mapping entry := by
  have hparent : ∀ parent, parentless (wordlessNodes mapping) parent = parentless mapping parent := by
    intro parent
    unfold parentless
    rw [keys_wordlessNodes]
  obtain ⟨nodeId, node⟩ := entry
  cases node with
  | obj node =>
    dsimp only [wordlessNode, onFields, rootOf]
    rw [hparent, lookup_replaceField_of_ne (by decide)]
  | null => rfl
  | bool b => rfl
  | int n => rfl
  | decimal literal => rfl
  | str s => rfl
  | arr items => rfl

theorem roots_wordlessNodes (mapping : Fields) : roots (wordlessNodes mapping) = roots mapping := by
  have hroots : (wordlessNodes mapping).mapM (rootOf (wordlessNodes mapping)) = mapping.mapM (rootOf mapping) := by
    rw [wordlessNodes, List.mapM_map, ← wordlessNodes]
    exact congrArg (fun f => mapping.mapM f) (funext (rootOf_wordlessNodes mapping))
  rw [roots, roots, hroots, keys_wordlessNodes]

theorem message?_replaceField (node : Fields) :
    message? (replaceField "message" (onFields wordless) node) = (message? node).map wordless := by
  unfold message?
  rw [lookup_replaceField_self]
  cases node.lookup "message" with
  | none => rfl
  | some message => cases message <;> rfl

theorem without_wordlessNodes (mapping : Fields) (nodeId : String) :
    without (wordlessNodes mapping) nodeId = wordlessNodes (without mapping nodeId) := by
  rw [without, wordlessNodes, List.filter_map]
  rfl

/-- The walk goes the same way, whatever the messages say. -/
theorem follow_wordlessNodes (mapping : Fields) (nodeId : String) :
    follow (wordlessNodes mapping) nodeId = (follow mapping nodeId).map wordless := by
  induction mapping, nodeId using follow.induct with
  | case1 mapping nodeId node hnode ih =>
    have hwordless : (wordlessNodes mapping).lookup nodeId = some (.obj (replaceField "message" (onFields wordless) node)) := by
      rw [lookup_wordlessNodes, hnode]
      rfl
    have hchild : lastChild (replaceField "message" (onFields wordless) node) = lastChild node := by
      unfold lastChild
      rw [lookup_replaceField_of_ne (by decide)]
    rw [follow_of_node hnode, follow_of_node hwordless, message?_replaceField, hchild, without_wordlessNodes, List.map_append,
      Option.toList_map]
    cases lastChild node with
    | none => rfl
    | some child => exact congrArg _ (ih child)
  | case2 mapping nodeId hnone =>
    have hwordless : ∀ node, (wordlessNodes mapping).lookup nodeId ≠ some (.obj node) := by
      intro node h
      rw [lookup_wordlessNodes] at h
      obtain ⟨value, hvalue, heq⟩ := Option.map_eq_some_iff.mp h
      cases value with
      | obj node => exact hnone node hvalue
      | _ => exact absurd heq nofun
    rw [follow_of_none hnone, follow_of_none hwordless, List.map_nil]

theorem walkLinear_wordlessNodes (mapping : Fields) :
    walkLinear (wordlessNodes mapping) = (walkLinear mapping).map (List.map wordless) := by
  have hempty : wordlessNodes mapping = [] ↔ mapping = [] := List.map_eq_nil_iff
  unfold walkLinear
  by_cases hnil : mapping = []
  · rw [if_pos hnil, if_pos (hempty.mpr hnil)]
    rfl
  · rw [if_neg hnil, if_neg (mt hempty.mp hnil), roots_wordlessNodes]
    cases roots mapping with
    | error e => rfl
    | ok ids =>
      show Except.ok (ids.head?.elim [] (follow (wordlessNodes mapping))) =
        Except.ok ((ids.head?.elim [] (follow mapping)).map wordless)
      cases ids.head? with
      | none => rfl
      | some nodeId => exact congrArg Except.ok (follow_wordlessNodes mapping nodeId)

end Walk

/-- The conversation has a title that is not blank. -/
def Titled (conversation : Fields) : Prop := ∃ title, conversation.lookup "title" = some (.str title) ∧ strip title ≠ ""

theorem titleFor_of_not_titled {conversation : Fields} (h : ¬ Titled conversation) (ts : List Turn) :
    titleFor conversation ts = (opening ts).getD "Untitled ChatGPT conversation" := by
  unfold titleFor
  split
  · rename_i title htitle
    exact if_neg (fun hblank => h ⟨title, htitle, hblank⟩)
  · rfl

theorem titleFor_of_titled {conversation : Fields} (h : Titled conversation) (ts ts' : List Turn) :
    titleFor conversation ts = titleFor conversation ts' := by
  obtain ⟨title, htitle, hblank⟩ := h
  unfold titleFor
  rw [htitle]
  dsimp only
  rw [if_pos hblank, if_pos hblank]

section Titles
variable {conversation conversation' : Fields} {ts ts' : List Turn}

/-- The titles of conversations with the same title field are the same, if it is not blank, and else as far as the
user's first words are. -/
theorem titleFor_eq_iff (htitle : conversation.lookup "title" = conversation'.lookup "title")
    (halike : List.Forall₂ Alike ts ts') :
    titleFor conversation ts = titleFor conversation' ts' ↔ Titled conversation ∨ opening ts = opening ts' := by
  have hsame : titleFor conversation' ts' = titleFor conversation ts' := by
    unfold titleFor
    rw [htitle]
  rw [hsame]
  by_cases htitled : Titled conversation
  · exact iff_of_true (titleFor_of_titled htitled ts ts') (.inl htitled)
  · rw [titleFor_of_not_titled htitled, titleFor_of_not_titled htitled, or_iff_right htitled]
    have hsome := isSome_opening_of_alike halike
    cases hts : opening ts with
    | none =>
      rw [hts] at hsome
      have hts' : opening ts' = none := by simpa using hsome
      rw [hts']
      exact iff_of_true rfl rfl
    | some words =>
      rw [hts] at hsome
      obtain ⟨words', hts'⟩ := Option.isSome_iff_exists.mp (hsome.mp rfl)
      rw [hts', Option.getD_some, Option.getD_some, Option.some.injEq]

end Titles

/-- What the title falls back to, read off the conversation. -/
def openingOf (floats : Floats) : Json → Except Raised (Option String)
  | .obj fields => do
    let messages ← walkLinear (mappingOf fields)
    let turns ← turns floats messages
    .ok (opening turns)
  | _ => .ok none

section Conversations
variable {floats : Floats} {conversation conversation' : Json} {sensitive : Bool} {record record' : RawRecord}
  {lastActivityMs lastActivityMs' : Int}

theorem conversationToRecord_ok
    (h : conversationToRecord floats conversation sensitive = .ok (some (record, lastActivityMs))) :
    ∃ fields messages ts, conversation = .obj fields ∧ walkLinear (mappingOf fields) = .ok messages ∧
      turns floats messages = .ok ts ∧ record.title = titleFor fields ts ∧ record.connector = SOURCE_ID ∧
      record.sensitive = sensitive ∧ record.metadata.cites = [] := by
  cases conversation with
  | obj fields =>
    obtain ⟨messages, hmessages, h⟩ := bind_ok h
    obtain ⟨ts, hts, h⟩ := bind_ok h
    refine ⟨fields, messages, ts, rfl, hmessages, hts, ?_⟩
    dsimp only at h
    split at h
    · exact absurd (Except.ok.inj h) nofun
    · split at h
      · exact absurd (Except.ok.inj h) nofun
      · obtain ⟨created, _, h⟩ := bind_ok h
        obtain ⟨updated, _, h⟩ := bind_ok h
        obtain ⟨rfl, -⟩ := Prod.mk.inj (Option.some.inj (Except.ok.inj h))
        exact ⟨rfl, rfl, rfl, rfl⟩
  | _ => exact absurd (Except.ok.inj h) nofun

theorem openingOf_eq {fields : Fields} {messages : List Fields} {ts : List Turn}
    (hmessages : walkLinear (mappingOf fields) = .ok messages) (hts : turns floats messages = .ok ts) :
    openingOf floats (.obj fields) = .ok (opening ts) := by
  rw [openingOf, hmessages]
  show (do
    let ts ← turns floats messages
    .ok (opening ts)) = _
  rw [hts]
  rfl

theorem mappingOf_replaceField (fields : Fields) :
    mappingOf (replaceField "mapping" (onFields wordlessNodes) fields) = wordlessNodes (mappingOf fields) := by
  unfold mappingOf
  rw [lookup_replaceField_self]
  cases fields.lookup "mapping" with
  | none => rfl
  | some mapping => cases mapping <;> rfl

/-- The records of conversations that differ in their messages' words have the same title exactly if there is a title
field, or the user's first words are the same. -/
theorem title_eq_iff (hwordless : wordlessConversation conversation = wordlessConversation conversation')
    (h : conversationToRecord floats conversation sensitive = .ok (some (record, lastActivityMs)))
    (h' : conversationToRecord floats conversation' sensitive = .ok (some (record', lastActivityMs'))) :
    record.title = record'.title ↔
      (∃ fields, conversation = .obj fields ∧ Titled fields) ∨ openingOf floats conversation = openingOf floats conversation' := by
  obtain ⟨fields, messages, ts, rfl, hmessages, hts, htitle, -⟩ := conversationToRecord_ok h
  obtain ⟨fields', messages', ts', rfl, hmessages', hts', htitle', -⟩ := conversationToRecord_ok h'
  have hfields := Json.obj.inj hwordless
  have hkept : ∀ fields, (replaceField "mapping" (onFields wordlessNodes) fields).lookup "title" = fields.lookup "title" :=
    fun _ => lookup_replaceField_of_ne (by decide)
  have hfield : fields.lookup "title" = fields'.lookup "title" := by rw [← hkept fields, hfields, hkept]
  have hmapping : wordlessNodes (mappingOf fields) = wordlessNodes (mappingOf fields') := by
    rw [← mappingOf_replaceField, ← mappingOf_replaceField, hfields]
  have hwalks : messages.map wordless = messages'.map wordless := by
    have hwalk := congrArg walkLinear hmapping
    rw [walkLinear_wordlessNodes, walkLinear_wordlessNodes, hmessages, hmessages'] at hwalk
    exact Except.ok.inj hwalk
  have hmatched : List.Forall₂ (fun a b => wordless a = wordless b) messages messages' :=
    Lists.forall₂_of_map_eq hwalks (fun _ _ _ _ hab => hab)
  have halike := turns_alike hmatched hts hts'
  rw [htitle, htitle', titleFor_eq_iff hfield halike, openingOf_eq hmessages hts, openingOf_eq hmessages' hts', Except.ok.injEq]
  refine or_congr_left ?_
  constructor
  · exact fun htitled => ⟨fields, rfl, htitled⟩
  · rintro ⟨fields₁, heq, htitled⟩
    rw [Json.obj.inj heq]
    exact htitled

end Conversations
end Memorai.Connectors.ChatGpt
