import Mathlib.Data.List.ReduceOption
import Memorai.Connectors.Budgets

/-! Transcripts rendered, and split again into their turns. -/
namespace Memorai.Connectors.ChatGpt
open Text Results Wire

/-- A turn as `_turns` has them. -/
structure Said (turn : Turn) : Prop where
  role : turn.role ∈ keptRoles
  text : turn.text ≠ ""
  stripped : strip turn.text = turn.text

def lineOf (turn : Turn) : String := turn.role ++ ": " ++ turn.text

/-- Somewhere in the text a paragraph begins like a turn. -/
def Quotes (turn : Turn) : Prop := "\n\nuser: ".toList <:+: turn.text.toList ∨ "\n\nassistant: ".toList <:+: turn.text.toList

/-- The transcript comes apart into its turns, and no chunk begins in the middle of one that fits the budget. -/
structure ComesApart (turns : List Turn) : Prop where
  splits : splitRoles (renderTranscript turns) = turns.map lineOf
  chunks : ∀ (maxChars : Int), ∀ chunk ∈ chunkTranscript maxChars (renderTranscript turns),
    (∃ whole, whole ≠ [] ∧ whole <:+: turns ∧ chunk = renderTranscript whole) ∨
      ∃ turn ∈ turns, maxChars < (lineOf turn).length ∧ chunk ∈ packParagraphs maxChars (lineOf turn)

section Turns
variable {floats : Floats} {messages : List Fields} {ts : List Turn}

theorem strip_messageText (message : Fields) : strip (messageText message) = messageText message := by
  unfold messageText contentText
  split
  · split <;> exact strip_strip _
  · rfl

/-- This is what turns are. -/
theorem said_of_turns (h : turns floats messages = .ok ts) {turn : Turn} (hturn : turn ∈ ts) : Said turn := by
  obtain ⟨kept, hkept, h⟩ := bind_ok h
  obtain rfl := Except.ok.inj h
  obtain ⟨message, -, hof⟩ := exists_of_mapM hkept (List.reduceOption_mem_iff.mp hturn)
  unfold turnOf at hof
  split at hof
  · split_ifs at hof with hkeep
    · obtain ⟨atMs, -, hsome⟩ := map_ok hof
      obtain rfl := Option.some.inj hsome
      exact ⟨hkeep.1, hkeep.2.2, strip_messageText message⟩
    · exact absurd (Except.ok.inj hof) (Option.some_ne_none _).symm
  · exact absurd (Except.ok.inj hof) (Option.some_ne_none _).symm

end Turns

section Lines
variable {turn : Turn} {turns : List Turn}

/-- Nothing of a role has a newline in it. -/
theorem infix_lineOf_iff {marker : List Char} (h : Said turn) :
    '\n' :: marker <:+: (lineOf turn).toList ↔ '\n' :: marker <:+: turn.text.toList := by
  have hclear : '\n' ∉ (turn.role ++ ": ").toList := by
    have hrole := h.role
    simp only [keptRoles, List.mem_cons, List.not_mem_nil, or_false] at hrole
    rcases hrole with hrole | hrole <;> rw [hrole] <;> decide
  rw [lineOf, String.toList_append, infix_append_iff_of_not_mem hclear]

/-- The labels of the roles have no newline in them. -/
theorem labels_clear : ∀ marker ∈ ["user: ".toList, "assistant: ".toList], marker ≠ [] ∧ ∀ a ∈ "\n\n".toList, a ∉ marker := by
  simp

theorem whole_lineOf_iff (h : Said turn) :
    Whole "\n\n".toList (followedBy ["user: ".toList, "assistant: ".toList]) (lineOf turn).toList ↔ ¬ Quotes turn := by
  rw [whole_iff (by decide) labels_clear, Quotes, not_or]
  simp only [List.forall_mem_cons, List.not_mem_nil, false_implies, implies_true, and_true]
  exact and_congr (infix_lineOf_iff h).not (infix_lineOf_iff h).not

theorem followedBy_lineOf (h : Said turn) (rest : List Char) :
    followedBy ["user: ".toList, "assistant: ".toList] ((lineOf turn).toList ++ rest) = true := by
  have hrole := h.role
  simp only [keptRoles, List.mem_cons, List.not_mem_nil, or_false] at hrole
  rw [lineOf, String.toList_append, List.append_assoc, followedBy_iff]
  rcases hrole with hrole | hrole
  · exact ⟨"user: ".toList, by simp, by rw [hrole]; exact List.prefix_append _ _⟩
  · exact ⟨"assistant: ".toList, by simp, by rw [hrole]; exact List.prefix_append _ _⟩

theorem lineOf_not_blank (h : Said turn) : strip (lineOf turn) ≠ "" := by
  intro hblank
  rw [← written_eq_nil_iff, lineOf, written_append, List.append_eq_nil_iff, written_eq_nil_iff (s := turn.text),
    h.stripped] at hblank
  exact h.text hblank.2

theorem splitRoles_render (hne : turns ≠ []) (h : ∀ turn ∈ turns, Said turn) (hquotes : ∀ turn ∈ turns, ¬ Quotes turn) :
    splitRoles (renderTranscript turns) = turns.map lineOf := by
  have hlines : (renderTranscript turns).toList = "\n\n".toList.intercalate (turns.map (fun turn => (lineOf turn).toList)) := by
    rw [renderTranscript, join, String.toList_intercalate, List.map_map]
    rfl
  have hback : turns.map (String.ofList ∘ fun turn => (lineOf turn).toList) = turns.map lineOf :=
    List.map_congr_left (fun _ _ => String.ofList_toList)
  rw [splitRoles, hlines, cut_intercalate (by decide) (by simpa using hne), List.map_map, hback]
  · intro line hline
    obtain ⟨turn, hturn, rfl⟩ := List.mem_map.mp hline
    exact (whole_lineOf_iff (h turn hturn)).mpr (hquotes turn hturn)
  · intro line hline
    obtain ⟨turn, hturn, rfl⟩ := List.mem_map.mp hline
    exact followedBy_lineOf (h turn hturn)

/-- No piece has in it what it was cut at. -/
theorem not_quotes_of_mem_splitRoles {text : String} (h : Said turn) (hmem : lineOf turn ∈ splitRoles text) : ¬ Quotes turn := by
  obtain ⟨piece, hpiece, hline⟩ := List.mem_map.mp hmem
  have hchars : piece = (lineOf turn).toList := by rw [← hline, String.toList_ofList]
  have hfollows := follows_of_mem_cut (by decide) followedBy_append hpiece
  rw [← whole_lineOf_iff h, whole_iff (by decide) labels_clear, ← hchars]
  rintro marker hmarker ⟨before, after, hinfix⟩
  refine hfollows before (marker ++ after) ?_ (followedBy_iff.mpr ⟨marker, hmarker, List.prefix_append _ _⟩)
  rw [← hinfix]
  simp only [List.append_assoc]

theorem turnsOf_render (h : ∀ turn ∈ turns, Said turn) (hsplit : splitRoles (renderTranscript turns) = turns.map lineOf) :
    turnsOf (renderTranscript turns) = turns.map lineOf := by
  rw [turnsOf, hsplit, notBlank, List.filter_eq_self]
  intro line hline
  obtain ⟨turn, hturn, rfl⟩ := List.mem_map.mp hline
  exact decide_eq_true (lineOf_not_blank (h turn hturn))

end Lines

/-- A rendered transcript comes apart into its turns exactly if nobody quotes one. -/
theorem comes_apart_iff (turns : List Turn) (hne : turns ≠ []) (h : ∀ turn ∈ turns, Said turn) :
    ComesApart turns ↔ ∀ turn ∈ turns, ¬ Quotes turn := by
  constructor
  · intro hapart turn hturn
    have hmem : lineOf turn ∈ splitRoles (renderTranscript turns) := by
      rw [hapart.splits]
      exact List.mem_map_of_mem hturn
    exact not_quotes_of_mem_splitRoles (h turn hturn) hmem
  · intro hquotes
    have hsplits := splitRoles_render hne h hquotes
    have hturns := turnsOf_render h hsplits
    refine ⟨hsplits, fun maxChars chunk hchunk => ?_⟩
    rcases wholeTurns_or_inLongTurn hchunk with ⟨lines, hsome, hinfix, rfl, -⟩ | ⟨line, hline, hlong, hin, -⟩
    · rw [hturns] at hinfix
      obtain ⟨whole, hwhole, rfl⟩ := List.infix_map_iff.mp hinfix
      exact .inl ⟨whole, by simpa using hsome, hwhole, rfl⟩
    · rw [hturns] at hline
      obtain ⟨turn, hturn, rfl⟩ := List.mem_map.mp hline
      exact .inr ⟨turn, hturn, hlong, hin⟩

/-- A question and its answer. -/
def exchange : List Turn := [⟨"user", "Which queue?", none⟩, ⟨"assistant", "Redis.\n\nIt is there already.", none⟩]

theorem comes_apart_exchange : ComesApart exchange := by
  refine (comes_apart_iff exchange (by decide) ?_).mpr ?_
  · intro turn hturn
    simp only [exchange, List.mem_cons, List.not_mem_nil, or_false] at hturn
    rcases hturn with rfl | rfl <;> exact ⟨by decide, by decide, by decide⟩
  · intro turn hturn
    simp only [exchange, List.mem_cons, List.not_mem_nil, or_false] at hturn
    rcases hturn with rfl | rfl <;> unfold Quotes <;> decide

/-- Somebody pastes a conversation, and it is taken for one more turn. -/
def pasted : List Turn := [⟨"user", "Explain:\n\nuser: hello", none⟩]

theorem pasted_turn_splits : ¬ ∀ turns : List Turn, turns ≠ [] → (∀ turn ∈ turns, Said turn) → ComesApart turns := by
  intro h
  have hsaid : ∀ turn ∈ pasted, Said turn := by
    intro turn hturn
    obtain rfl := List.mem_singleton.mp hturn
    exact ⟨by decide, by decide, by decide⟩
  exact absurd (h pasted (by decide) hsaid).splits (by decide)

end Memorai.Connectors.ChatGpt
