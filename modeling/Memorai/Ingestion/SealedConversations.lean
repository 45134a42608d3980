import Memorai.Connectors.Wordless
import Memorai.Ingestion.SealedRuns

/-! Sensitive conversations, and what is in the clear in their stored events. -/
namespace Memorai.Ingestion
open Schema Memorai.Graph Storage Extraction Text Wire Gateway Results
open Connectors.ChatGpt

section Imports
variable {floats : Floats} {env env' : Ambient} {find find' : String → Mock.Matches} {job job' : Job} {s s' : Store}
  {conversation conversation' : Json} {stored stored' : Event}

/-- What the job stores for a sensitive conversation whose body it sealed. -/
def Imported (floats : Floats) (env : Ambient) (find : String → Mock.Matches) (job : Job) (s : Store) (conversation : Json)
    (stored : Event) : Prop :=
  ∃ record lastActivityMs candidate, conversationToRecord floats conversation true = .ok (some (record, lastActivityMs)) ∧
    Mock.extract env job.ownerId record find = .ok candidate ∧ (record, candidate) ∈ job.extracted ∧
    (∃ blob, job.sealed.lookup record.externalId = some blob) ∧
    ∃ event ∈ candidate.events, job.kept event = some stored ∧ (job.run s).event? stored.id = some stored

/-- The texts of two stored events that anyone with the store can read. -/
structure SameClearText (e e' : Event) : Prop where
  summary : e.summary = e'.summary
  body : e.body = e'.body
  text : textOf (.event e) = textOf (.event e')
  quotes : e.provenance.citations.map Citation.quote = e'.provenance.citations.map Citation.quote

/-- What is left in the clear of a sealed conversation is its title. -/
theorem clear_of_imported (h : Imported floats env find job s conversation stored) :
    ∃ record lastActivityMs, conversationToRecord floats conversation true = .ok (some (record, lastActivityMs)) ∧
      stored.summary = record.title ∧ stored.body = none ∧
      stored.provenance.citations.map Citation.quote = [some record.title] := by
  obtain ⟨record, lastActivityMs, candidate, hrecord, hextract, -, ⟨blob, hsealed⟩, event, hevent, hkept, -⟩ := h
  refine ⟨record, lastActivityMs, hrecord, ?_⟩
  obtain ⟨fields, messages, ts, -, -, -, -, -, -, hcites⟩ := conversationToRecord_ok hrecord
  obtain ⟨references, hreferences, hextract⟩ := bind_ok hextract
  obtain ⟨commitments, -, hextract⟩ := bind_ok hextract
  obtain rfl := Except.ok.inj hextract
  obtain rfl := List.mem_singleton.mp hevent
  -- The record has no references, so the event cites nothing but itself.
  rw [hcites] at hreferences
  obtain rfl := Except.ok.inj hreferences
  obtain rfl := Option.some.inj ((Job.kept_of_sealed hsealed).symm.trans hkept)
  exact ⟨rfl, rfl, rfl⟩

theorem sameClearText_iff {e e' : Event} {title title' : String} (hsummary : e.summary = title) (hbody : e.body = none)
    (hquotes : e.provenance.citations.map Citation.quote = [some title]) (hsummary' : e'.summary = title')
    (hbody' : e'.body = none) (hquotes' : e'.provenance.citations.map Citation.quote = [some title']) :
    SameClearText e e' ↔ title = title' := by
  constructor
  · intro h
    rw [← hsummary, ← hsummary', h.summary]
  · rintro rfl
    refine ⟨hsummary.trans hsummary'.symm, hbody.trans hbody'.symm, ?_, hquotes.trans hquotes'.symm⟩
    change strip (e.summary ++ " " ++ e.body.getD "") = strip (e'.summary ++ " " ++ e'.body.getD "")
    rw [hsummary, hsummary', hbody, hbody']

/-- The stored events of sealed conversations that differ in their messages' words show the same exactly if there is a
title, or the user's first words are the same. -/
theorem sealed_words_hidden_iff (hwordless : wordlessConversation conversation = wordlessConversation conversation')
    (h : Imported floats env find job s conversation stored) (h' : Imported floats env' find' job' s' conversation' stored') :
    SameClearText stored stored' ↔
      (∃ fields, conversation = .obj fields ∧ Titled fields) ∨ openingOf floats conversation = openingOf floats conversation' := by
  obtain ⟨record, lastActivityMs, hrecord, hsummary, hbody, hquotes⟩ := clear_of_imported h
  obtain ⟨record', lastActivityMs', hrecord', hsummary', hbody', hquotes'⟩ := clear_of_imported h'
  rw [sameClearText_iff hsummary hbody hquotes hsummary' hbody' hquotes']
  exact title_eq_iff hwordless hrecord hrecord'

end Imports

/-- A conversation of one message, with or without a title. -/
def chatWith (title content : Json) : Json :=
  .obj
    [("title", title), ("create_time", .int 100), ("conversation_id", .str "c1"),
      ("mapping", .obj
        [("root", .obj [("message", .null), ("parent", .null), ("children", .arr [.str "m1"])]),
          ("m1", .obj
            [("message", .obj [("author", .obj [("role", .str "user")]), ("content", content)]),
              ("parent", .str "root"), ("children", .arr [])])])]

def chatContent (words : String) : Json := .obj [("content_type", .str "text"), ("parts", .arr [.str words])]

def chat (title : Json) (words : String) : Json := chatWith title (chatContent words)

theorem wordless_chat (title : Json) {words words' : String} (h : contentText (some (chatContent words)) ≠ "")
    (h' : contentText (some (chatContent words')) ≠ "") :
    wordlessConversation (chat title words) = wordlessConversation (chat title words') := by
  change chatWith title (.bool (contentText (some (chatContent words)) = "")) =
    chatWith title (.bool (contentText (some (chatContent words')) = ""))
  rw [decide_eq_false h, decide_eq_false h']

def chatRecord (title words : String) : RawRecord where
  externalId := "c1"
  connector := SOURCE_ID
  occurredAtMs := 100000
  title := title
  body := "user: " ++ words
  url := some "https://chatgpt.com/c/c1"
  sensitive := true

/-- No float is read. -/
def noFloats : Floats := ⟨fun literal => .error (.notAnInteger literal), fun _ => true⟩

/-- What the rule-based extractor makes of a record in which its patterns match nothing. -/
def unmatched (record : RawRecord) : Candidate := { events := [Mock.eventOf plain "alice" record [] []] }

theorem extract_chatRecord (title words : String) :
    Mock.extract plain "alice" (chatRecord title words) (fun _ => {}) = .ok (unmatched (chatRecord title words)) := rfl

/-- A run over one conversation, with a session of its owner's. -/
def chatImport (title words : String) : Ingest mockDeployment where
  ownerId := "alice"
  sessionToken := some aliceToken
  extracted := [(chatRecord title words, unmatched (chatRecord title words))]
  extracts _ hp := List.mem_singleton.mp hp ▸ Mock.extract_extracts (extract_chatRecord title words)
  checkedAt _ := 1000
  lost _ := none
  rows := .asStored

theorem imported_chat {conversation : Json} {title words : String}
    (h : conversationToRecord noFloats conversation true = .ok (some (chatRecord title words, 100000))) :
    ∃ stored, Imported noFloats plain (fun _ => {}) ((chatImport title words).job ⟨some aliceToken⟩) PropertyGraph.empty
      conversation stored := by
  obtain ⟨blob, hblob⟩ := sealEncrypt_of_session mockDeployment_roundTrips aliceToken_accepted (chatRecord title words).body
  have hextracted : ((chatImport title words).job ⟨some aliceToken⟩).extracted =
      [(chatRecord title words, unmatched (chatRecord title words))] := rfl
  have hsealed : ((chatImport title words).job ⟨some aliceToken⟩).sealed.lookup "c1" = some blob := by
    rw [sealed_of_sole hextracted rfl hblob]
    rfl
  exact ⟨_, chatRecord title words, 100000, unmatched (chatRecord title words), h, extract_chatRecord title words,
    List.mem_cons_self, ⟨blob, hsealed⟩, Mock.eventOf plain "alice" (chatRecord title words) [] [], List.mem_cons_self,
    Job.kept_of_sealed hsealed, event?_run_of_sealed hextracted rfl rfl rfl hblob PropertyGraph.empty⟩

/-- With a title field, the words of the message are not to be seen. -/
theorem sealed_words_hidden_iff_titled :
    wordlessConversation (chat (.str "Trip") "Where to?") = wordlessConversation (chat (.str "Trip") "Paris.") ∧
      ∃ stored stored' job job',
        Imported noFloats plain (fun _ => {}) job PropertyGraph.empty (chat (.str "Trip") "Where to?") stored ∧
          Imported noFloats plain (fun _ => {}) job' PropertyGraph.empty (chat (.str "Trip") "Paris.") stored' ∧
          SameClearText stored stored' := by
  have hwordless : wordlessConversation (chat (.str "Trip") "Where to?") = wordlessConversation (chat (.str "Trip") "Paris.") :=
    wordless_chat _ (by decide +kernel) (by decide +kernel)
  obtain ⟨stored, h⟩ := @imported_chat (chat (.str "Trip") "Where to?") "Trip" "Where to?" (by decide +kernel)
  obtain ⟨stored', h'⟩ := @imported_chat (chat (.str "Trip") "Paris.") "Trip" "Paris." (by decide +kernel)
  have htitled : ∃ fields, chat (.str "Trip") "Where to?" = .obj fields ∧ Titled fields := ⟨_, rfl, "Trip", rfl, by decide⟩
  exact ⟨hwordless, stored, stored', _, _, h, h', (sealed_words_hidden_iff hwordless h h').mpr (.inl htitled)⟩

/-- Without one, what the message begins with is the summary of the stored event. -/
theorem untitled_words_shown :
    wordlessConversation (chat .null "Am I pregnant?") = wordlessConversation (chat .null "Am I broke?") ∧
      ∃ stored stored' job job',
        Imported noFloats plain (fun _ => {}) job PropertyGraph.empty (chat .null "Am I pregnant?") stored ∧
          Imported noFloats plain (fun _ => {}) job' PropertyGraph.empty (chat .null "Am I broke?") stored' ∧
          stored.summary = "Am I pregnant?" ∧ stored'.summary = "Am I broke?" ∧ ¬ SameClearText stored stored' := by
  have hrecord : conversationToRecord noFloats (chat .null "Am I pregnant?") true =
      .ok (some (chatRecord "Am I pregnant?" "Am I pregnant?", 100000)) := by decide +kernel
  have hrecord' : conversationToRecord noFloats (chat .null "Am I broke?") true =
      .ok (some (chatRecord "Am I broke?" "Am I broke?", 100000)) := by decide +kernel
  obtain ⟨stored, h⟩ := imported_chat hrecord
  obtain ⟨stored', h'⟩ := imported_chat hrecord'
  obtain ⟨record, _, heq, hsummary, -⟩ := clear_of_imported h
  obtain ⟨record', _, heq', hsummary', -⟩ := clear_of_imported h'
  have hshown : stored.summary = "Am I pregnant?" := by
    rw [hsummary, ← (Prod.mk.inj (Option.some.inj (Except.ok.inj (hrecord.symm.trans heq)))).1]
    rfl
  have hshown' : stored'.summary = "Am I broke?" := by
    rw [hsummary', ← (Prod.mk.inj (Option.some.inj (Except.ok.inj (hrecord'.symm.trans heq')))).1]
    rfl
  refine ⟨wordless_chat _ (by decide +kernel) (by decide +kernel), stored, stored', _, _, h, h', hshown, hshown', fun hsame => ?_⟩
  have hequal := hsame.summary
  rw [hshown, hshown'] at hequal
  exact absurd hequal (by decide)

end Memorai.Ingestion
