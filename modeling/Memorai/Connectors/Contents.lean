import Memorai.Connectors.Chunkers

/-! What is written in a text, and what of it is in its chunks. -/
namespace Memorai.Connectors
open Text Packing

/-- There are chunks, and put together they say what the text says. -/
def Keeps (source text : String) : Prop :=
  ∃ chunks, chunkForSource text source = .ok chunks ∧ written (join "" chunks) = written text

/-- The text is shaped like a diff. -/
abbrev DiffShaped (text : String) : Prop := "\n@@".toList <:+: text.toList

/-- There is something in front of the first hunk marker, and something between each of them and the next or the end. -/
def EveryHunkWritten (text : String) : Prop := ∀ piece ∈ split "\n@@" text, strip piece ≠ ""

section Diffs
variable {text : String} {parts chunks : List String}

theorem written_chunks (chunks : List String) : written (join "" chunks) = chunks.flatMap written := written_join rfl chunks

/-- Every part but the first has a marker. -/
theorem length_written_hunks (h : parts ≠ []) :
    (written (join "\n@@" parts)).length + 2 = (parts.flatMap written).length + 2 * parts.length := by
  induction parts with
  | nil => exact absurd rfl h
  | cons part parts ih =>
    cases parts with
    | nil => rw [join, String.intercalate_singleton, List.flatMap_singleton, List.length_singleton]
    | cons second parts =>
      have hrest := ih (List.cons_ne_nil _ _)
      have hmarker : (written "\n@@").length = 2 := by decide
      rw [join] at hrest ⊢
      rw [String.intercalate_cons_cons, written_append, written_append, List.length_append, List.length_append, hmarker,
        List.flatMap_cons, List.length_append, List.length_cons]
      omega

/-- The chunks of a diff are the parts with something in them, with the markers between these. -/
theorem written_chunkDiff {first : String} :
    (strip first :: parts.map (fun part => strip ("@@" ++ part))).flatMap written = written (join "\n@@" (first :: parts)) := by
  have hmarked : ∀ part, written (strip ("@@" ++ part)) = written "\n@@" ++ written part := by
    intro part
    rw [written_strip, written_append]
    rfl
  rw [List.flatMap_cons, written_strip, List.flatMap_map]
  simp only [hmarked]
  induction parts generalizing first with
  | nil => rw [join, String.intercalate_singleton, List.flatMap_nil, List.append_nil]
  | cons second parts ih =>
    rw [join, String.intercalate_cons_cons, written_append, written_append, List.flatMap_cons, List.append_assoc,
      List.append_assoc, ih]
    rfl

theorem join_hunks (text : String) : join "\n@@" (split "\n@@" text) = text := join_cut (by decide) _ text

theorem keeps_github_iff (h : DiffShaped text) : Keeps "github" text ↔ EveryHunkWritten text := by
  have hchunk : chunkForSource text "github" = GitHub.chunkDiff text := rfl
  have hall : notBlank (split "\n@@" text) = split "\n@@" text ↔ EveryHunkWritten text := by
    rw [notBlank, List.filter_eq_self]
    simp only [decide_eq_true_eq]
    rfl
  rw [← hall, Keeps, hchunk, GitHub.chunkDiff, if_neg (not_not.mpr h)]
  cases hparts : notBlank (split "\n@@" text) with
  | nil =>
    constructor
    · rintro ⟨_, hraised, -⟩
      cases hraised
    · intro hnone
      exact absurd (List.map_eq_nil_iff.mp hnone.symm) (cut_ne_nil _ _ (by decide))
  | cons first parts =>
    constructor
    · rintro ⟨chunks, hok, hkept⟩
      obtain rfl := Except.ok.inj hok
      rw [written_chunks, written_chunkDiff] at hkept
      have hlen := length_written_hunks (List.cons_ne_nil first parts)
      have hpieces : split "\n@@" text ≠ [] := fun hnone => by simp [hnone, notBlank] at hparts
      have htext := length_written_hunks hpieces
      rw [hkept, ← hparts, written_notBlank] at hlen
      rw [join_hunks] at htext
      rw [← hparts]
      exact List.Sublist.eq_of_length List.filter_sublist (by omega)
    · intro hall
      refine ⟨_, rfl, ?_⟩
      rw [written_chunks, written_chunkDiff, hall, join_hunks]

/-- Every other source keeps every text, and so does this one if the text is not shaped like a diff. -/
theorem keeps_of_not_diff {source : String} (h : source ≠ "github" ∨ ¬ DiffShaped text) : Keeps source text := by
  suffices hchunks : ∃ chunks, chunkForSource text source = .ok chunks ∧ chunks.flatMap written = written text by
    obtain ⟨chunks, hok, hwritten⟩ := hchunks
    exact ⟨chunks, hok, (written_chunks chunks).trans hwritten⟩
  by_cases hgithub : source = "github"
  · subst hgithub
    exact ⟨_, if_pos (h.resolve_left (not_not.mpr rfl)), written_packParagraphs 600 text⟩
  by_cases hmock : source = "mock"
  · subst hmock
    exact ⟨_, rfl, written_packParagraphs 800 text⟩
  by_cases hgoogle : source = "google"
  · subst hgoogle
    exact ⟨_, rfl, written_packParagraphs 1200 text⟩
  by_cases hchatgpt : source = "chatgpt"
  · subst hchatgpt
    exact ⟨_, rfl, ChatGpt.written_chunkTranscript 1200 text⟩
  have hnone : chunkers.lookup source = none := by
    simp only [chunkers, List.lookup_cons, beq_false_of_ne hgithub, beq_false_of_ne hmock, beq_false_of_ne hgoogle,
      beq_false_of_ne hchatgpt, List.lookup_nil]
  refine ⟨defaultChunker text, ?_, written_packParagraphs 1000 text⟩
  rw [chunkForSource, hnone, Option.getD_none]

end Diffs

/-- A text is kept unless it is a diff with an empty hunk. -/
theorem keeps_iff (source text : String) :
    Keeps source text ↔ source ≠ "github" ∨ ¬ DiffShaped text ∨ EveryHunkWritten text := by
  by_cases hdiff : source ≠ "github" ∨ ¬ DiffShaped text
  · exact iff_of_true (keeps_of_not_diff hdiff) (or_assoc.mp (.inl hdiff))
  · obtain ⟨hgithub, hshaped⟩ := not_or.mp hdiff
    obtain rfl := not_not.mp hgithub
    rw [keeps_github_iff (not_not.mp hshaped), ← or_assoc, or_iff_right hdiff]

/-- Hunk markers and nothing else. -/
theorem markers_alone_raise : ¬ ∀ source text, Keeps source text := by
  intro h
  obtain ⟨chunks, hok, -⟩ := h "github" "\n@@\n@@"
  have hraised : chunkForSource "\n@@\n@@" "github" = .error .listIndexOutOfRange := by decide +kernel
  exact absurd (hraised.symm.trans hok) nofun

end Memorai.Connectors
