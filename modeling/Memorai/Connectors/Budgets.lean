import Memorai.Connectors.Chunkers

/-! How long chunks are, and where they begin. -/
namespace Memorai.Connectors
open Text Packing ChatGpt

/-- The chunks of `pack_paragraphs` as groups of paragraphs: one that is too long is of a single paragraph without a
blank line, and none has room for the first paragraph of the next one. -/
structure Groups (maxChars : Int) (text : String) (groups : List (List String)) : Prop where
  chunks : packParagraphs maxChars text = groups.map (join "\n\n")
  paragraphs : groups.flatten = paragraphs text
  short : ∀ group ∈ groups, group ≠ [] ∧
    ((join "\n\n" group).length ≤ maxChars ∨ ∃ paragraph, group = [paragraph] ∧ ¬ "\n\n".toList <:+: paragraph.toList)
  full : groups.IsChain (fun group next =>
    ∀ paragraph ∈ next.head?, maxChars < (join "\n\n" group).length + ("\n\n" ++ paragraph).length)

/-- A chunk that begins where a turn does, and is within the budget. -/
def WholeTurns (maxChars : Int) (text chunk : String) : Prop :=
  ∃ turns, turns ≠ [] ∧ turns <:+: turnsOf text ∧ chunk = join "\n\n" turns ∧ chunk.length ≤ maxChars

/-- A chunk of a turn that is not. It is within the budget or a single paragraph of the turn. -/
def InLongTurn (maxChars : Int) (text chunk : String) : Prop :=
  ∃ turn ∈ turnsOf text, maxChars < turn.length ∧ chunk ∈ packParagraphs maxChars turn ∧
    (chunk.length ≤ maxChars ∨ chunk ∈ paragraphs turn ∧ ¬ "\n\n".toList <:+: chunk.toList)

/-- The budgets of both packers hold. -/
structure Budgeted (maxChars : Int) (text : String) : Prop where
  paragraphs : ∃ groups, Groups maxChars text groups
  turns : ∀ chunk ∈ chunkTranscript maxChars text, WholeTurns maxChars text chunk ∨ InLongTurn maxChars text chunk

variable {maxChars : Int} {text : String}

/-- There is no blank line in a paragraph. -/
theorem not_infix_of_mem_paragraphs {paragraph : String} (h : paragraph ∈ paragraphs text) :
    ¬ "\n\n".toList <:+: paragraph.toList := by
  obtain ⟨piece, hpiece, rfl⟩ := List.mem_map.mp h
  obtain ⟨cs, hcs, rfl⟩ := List.mem_map.mp (mem_notBlank hpiece).1
  have hstrip : (strip (String.ofList cs)).toList = trimEnds isSpace cs := by
    rw [strip, String.toList_ofList, String.toList_ofList, stripChars_eq]
  rw [hstrip]
  rintro ⟨before, after, hinfix⟩
  obtain ⟨pre, post, hends, -⟩ := exists_trimEnds isSpace cs
  refine follows_of_mem_cut (by decide) (fun _ _ _ => rfl) hcs (pre ++ before) (after ++ post) ?_ rfl
  rw [hends, ← hinfix]
  simp only [List.append_assoc]

theorem groups_pack (maxChars : Int) (text : String) : Groups maxChars text (pack (fitsIn maxChars) (paragraphs text)) := by
  have hpacked := packed_pack (fitsIn maxChars) (paragraphs text)
  refine ⟨packParagraphs_eq maxChars text, hpacked.flatten, ?_, ?_⟩
  · intro group hgroup
    refine ⟨hpacked.nonempty group hgroup, ?_⟩
    rcases hpacked.fit group hgroup with hfit | ⟨paragraph, rfl⟩
    · exact .inl (of_decide_eq_true hfit)
    · have hmem : paragraph ∈ paragraphs text := by
        rw [← hpacked.flatten]
        exact List.mem_flatten.mpr ⟨_, hgroup, List.mem_singleton_self _⟩
      exact .inr ⟨paragraph, rfl, not_infix_of_mem_paragraphs hmem⟩
  · refine hpacked.full.imp_of_mem_imp (fun group next hgroup _ hfull paragraph hparagraph => ?_)
    have hroom := (full_iff (hpacked.nonempty group hgroup)).mpr (hfull paragraph hparagraph)
    rw [String.length_append]
    have htwo : "\n\n".length = 2 := rfl
    omega

/-- A chunk of a text is within the budget or one of its paragraphs. -/
theorem short_of_mem_packParagraphs {chunk : String} (h : chunk ∈ packParagraphs maxChars text) :
    chunk.length ≤ maxChars ∨ chunk ∈ paragraphs text ∧ ¬ "\n\n".toList <:+: chunk.toList := by
  have hgroups := groups_pack maxChars text
  rw [hgroups.chunks] at h
  obtain ⟨group, hgroup, rfl⟩ := List.mem_map.mp h
  rcases (hgroups.short group hgroup).2 with hshort | ⟨paragraph, rfl, hsingle⟩
  · exact .inl hshort
  · rw [join, String.intercalate_singleton]
    refine .inr ⟨?_, hsingle⟩
    rw [← hgroups.paragraphs]
    exact List.mem_flatten.mpr ⟨_, hgroup, List.mem_singleton_self _⟩

theorem wholeTurns_or_inLongTurn {chunk : String} (h : chunk ∈ chunkTranscript maxChars text) :
    WholeTurns maxChars text chunk ∨ InLongTurn maxChars text chunk := by
  have hpacked := packed_pack (fitsIn maxChars) (turnsOf text)
  rw [chunkTranscript_eq] at h
  obtain ⟨group, hgroup, hchunk⟩ := List.mem_flatMap.mp h
  have hinfix : group <:+: turnsOf text := by
    rw [← hpacked.flatten]
    exact List.infix_of_mem_flatten hgroup
  by_cases hfit : fitsIn maxChars group = true
  · rw [chunksOf_of_fits hfit] at hchunk
    obtain rfl := List.mem_singleton.mp hchunk
    exact .inl ⟨group, hpacked.nonempty group hgroup, hinfix, rfl, of_decide_eq_true hfit⟩
  · obtain ⟨turn, rfl⟩ := (hpacked.fit group hgroup).resolve_left hfit
    have hlong : maxChars < turn.length := not_not.mp (mt fitsIn_singleton.mpr hfit)
    rw [chunksOf, join, String.intercalate_singleton, if_pos hlong] at hchunk
    exact .inr ⟨turn, hinfix.subset (List.mem_singleton_self turn), hlong, hchunk, short_of_mem_packParagraphs hchunk⟩

/-- Chunks keep to the budget, and begin where turns do, except in a turn that is too long itself. -/
theorem budgets_hold (maxChars : Int) (text : String) : Budgeted maxChars text :=
  ⟨⟨_, groups_pack maxChars text⟩, fun _ hchunk => wholeTurns_or_inLongTurn hchunk⟩

end Memorai.Connectors
