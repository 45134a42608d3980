import Memorai.Collections.Packing
import Memorai.Connectors.ChatGpt
import Memorai.Text.Splitting
import Memorai.Text.Trimming

/-! Texts split into chunks for retrieval, each source its own way. -/
namespace Memorai.Connectors
open Text Packing

/-- `text.split(sep)` -/
def split (sep text : String) : List String := (cut sep.toList (fun _ => true) text.toList).map String.ofList

/-- The list of the pieces that are not blank. -/
def notBlank (pieces : List String) : List String := pieces.filter (fun piece => strip piece ≠ "")

/-- The loop of `pack_paragraphs` with its `current` chunk. -/
def packUnits (maxChars : Int) : String → List String → List String
  | current, [] => if current ≠ "" then [current] else []
  | current, unit :: units =>
    if current ≠ "" ∧ maxChars < current.length + unit.length + 2 then current :: packUnits maxChars unit units
    else packUnits maxChars (if current ≠ "" then current ++ "\n\n" ++ unit else unit) units

def paragraphs (text : String) : List String := (notBlank (split "\n\n" text)).map strip

/-- `pack_paragraphs` -/
def packParagraphs (maxChars : Int) (text : String) : List String :=
  packUnits maxChars "" (if paragraphs text = [] then [strip text] else paragraphs text)

def defaultChunker : String → List String := packParagraphs 1000

/-- `parts[0]` of no parts. -/
inductive IndexError where
  | listIndexOutOfRange
  deriving DecidableEq, Repr

namespace GitHub

/-- `chunk_diff` -/
def chunkDiff (text : String) : Except IndexError (List String) :=
  if ¬ "\n@@".toList <:+: text.toList then .ok (packParagraphs 600 text)
  else
    match notBlank (split "\n@@" text) with
    | [] => .error .listIndexOutOfRange
    | first :: parts => .ok (strip first :: parts.map (fun part => strip ("@@" ++ part)))

end GitHub

namespace ChatGpt

/-- `_ROLE_PREFIX.split`: at a blank line in front of a role. -/
def splitRoles (text : String) : List String :=
  (cut "\n\n".toList (followedBy ["user: ".toList, "assistant: ".toList]) text.toList).map String.ofList

/-- The loop of `chunk_transcript` with its `current` chunk. -/
def packTurns (maxChars : Int) : String → List String → List String
  | current, [] => if current ≠ "" then [current] else []
  | current, turn :: turns =>
    if maxChars < turn.length then
      (if current ≠ "" then [current] else []) ++ (packParagraphs maxChars turn ++ packTurns maxChars "" turns)
    else if current ≠ "" ∧ maxChars < current.length + turn.length + 2 then current :: packTurns maxChars turn turns
    else packTurns maxChars (if current ≠ "" then current ++ "\n\n" ++ turn else turn) turns

/-- `chunk_transcript`. A text without turns goes to the module's own packer, whatever the budget. -/
def chunkTranscript (maxChars : Int) (text : String) : List String :=
  if notBlank (splitRoles text) = [] then packParagraphs 1200 text else packTurns maxChars "" (notBlank (splitRoles text))

end ChatGpt

/-- The chunkers of the sources that are built in. -/
def chunkers : List (String × (String → Except IndexError (List String))) := [
  ("mock", fun text => .ok (packParagraphs 800 text)),
  ("google", fun text => .ok (packParagraphs 1200 text)),
  ("github", GitHub.chunkDiff),
  ("chatgpt", fun text => .ok (ChatGpt.chunkTranscript 1200 text))]

/-- `chunk_for_source`, in the registry this build ships with. -/
def chunkForSource (text source : String) : Except IndexError (List String) :=
  ((chunkers.lookup source).getD (fun text => .ok (defaultChunker text))) text

section Groups
variable {maxChars : Int} {group units : List String}

/-- The pieces fit into one chunk. -/
def fitsIn (maxChars : Int) (group : List String) : Bool := (join "\n\n" group).length ≤ maxChars

theorem join_concat {unit : String} (h : group ≠ []) : join "\n\n" (group ++ [unit]) = join "\n\n" group ++ "\n\n" ++ unit := by
  rw [join, String.intercalate_append_of_ne_nil h (List.cons_ne_nil _ _), String.intercalate_singleton]
  rfl

theorem join_eq_empty_iff (h : ∀ unit ∈ group, unit ≠ "") : join "\n\n" group = "" ↔ group = [] := by
  constructor
  · intro hempty
    cases group with
    | nil => rfl
    | cons unit rest =>
      cases rest with
      | nil => exact absurd (String.intercalate_singleton.symm.trans hempty) (h unit List.mem_cons_self)
      | cons second rest =>
        rw [join, String.intercalate_cons_cons, String.append_assoc, String.append_eq_empty_iff] at hempty
        exact absurd hempty.1 (h unit List.mem_cons_self)
  · rintro rfl
    rfl

/-- Whether there is room for a unit is whether it fits. -/
theorem full_iff {unit : String} (h : group ≠ []) :
    maxChars < (join "\n\n" group).length + unit.length + 2 ↔ fitsIn maxChars (group ++ [unit]) = false := by
  rw [fitsIn, join_concat h, decide_eq_false_iff_not, String.length_append, String.length_append]
  have htwo : "\n\n".length = 2 := rfl
  omega

/-- The loop opens a group with a unit, closes it because of one, or adds one to it. -/
theorem room_iff {unit : String} (h : ∀ u ∈ group, u ≠ "") :
    (join "\n\n" group ≠ "" ∧ maxChars < (join "\n\n" group).length + unit.length + 2) ↔
      group ≠ [] ∧ fitsIn maxChars (group ++ [unit]) = false := by
  rw [ne_eq, join_eq_empty_iff h]
  exact and_congr_right full_iff

theorem added_eq {unit : String} (h : ∀ u ∈ group, u ≠ "") :
    (if join "\n\n" group ≠ "" then join "\n\n" group ++ "\n\n" ++ unit else unit) = join "\n\n" (group ++ [unit]) := by
  by_cases hgroup : group = []
  · subst hgroup
    rw [if_neg (not_not.mpr ((join_eq_empty_iff h).mpr rfl)), List.nil_append]
    exact String.intercalate_singleton.symm
  · rw [if_pos (mt (join_eq_empty_iff h).mp hgroup), join_concat hgroup]

theorem closed_eq (h : ∀ u ∈ group, u ≠ "") :
    (if join "\n\n" group ≠ "" then [join "\n\n" group] else []) = (if group = [] then [] else [group]).map (join "\n\n") := by
  by_cases hgroup : group = []
  · rw [if_neg (not_not.mpr ((join_eq_empty_iff h).mpr hgroup)), if_pos hgroup, List.map_nil]
  · rw [if_pos (mt (join_eq_empty_iff h).mp hgroup), if_neg hgroup, List.map_singleton]

theorem packUnits_eq (h : ∀ unit ∈ group ++ units, unit ≠ "") :
    packUnits maxChars (join "\n\n" group) units = (packOnto (fitsIn maxChars) group units).map (join "\n\n") := by
  induction units generalizing group with
  | nil =>
    rw [List.append_nil] at h
    exact closed_eq h
  | cons unit units ih =>
    have hgroup : ∀ u ∈ group, u ≠ "" := fun u hu => h u (List.mem_append_left _ hu)
    rw [packUnits, packOnto, added_eq hgroup]
    by_cases hfull : group ≠ [] ∧ fitsIn maxChars (group ++ [unit]) = false
    · have hone : join "\n\n" [unit] = unit := String.intercalate_singleton
      have hrest : packUnits maxChars (join "\n\n" [unit]) units = (packOnto (fitsIn maxChars) [unit] units).map (join "\n\n") :=
        ih (fun u hu => h u (List.mem_append_right _ hu))
      rw [hone] at hrest
      rw [if_pos ((room_iff hgroup).mpr hfull), if_pos hfull, hrest, List.map_cons]
    · rw [if_neg (mt (room_iff hgroup).mp hfull), if_neg hfull]
      exact ih (fun u hu => h u (by rwa [List.append_assoc, List.singleton_append] at hu))

end Groups

section Contents

/-- The characters that are not white space. -/
def written (s : String) : List Char := s.toList.filter (fun c => !isSpace c)

variable {sep text : String} {parts : List String}

theorem written_strip (s : String) : written (strip s) = written s := by
  rw [written, strip, String.toList_ofList, stripChars_eq, filter_trimEnds, written]

theorem written_append (s t : String) : written (s ++ t) = written s ++ written t := by
  rw [written, String.toList_append, List.filter_append, written, written]

theorem written_eq_nil_iff {s : String} : written s = [] ↔ strip s = "" := by
  rw [strip_eq_empty_iff, written, List.filter_eq_nil_iff]
  simp

/-- A separator that nothing is written in. -/
theorem written_join (hsep : written sep = []) (parts : List String) : written (join sep parts) = parts.flatMap written := by
  induction parts with
  | nil => rfl
  | cons part parts ih =>
    cases parts with
    | nil => rw [join, String.intercalate_singleton, List.flatMap_singleton]
    | cons second parts =>
      rw [join, String.intercalate_cons_cons, written_append, written_append, hsep, List.append_nil, List.flatMap_cons, ← ih]
      rfl

theorem join_cut (hsep : sep ≠ "") (follows : List Char → Bool) (text : String) :
    join sep ((cut sep.toList follows text.toList).map String.ofList) = text := by
  have hne : sep.toList ≠ [] := mt String.toList_eq_nil_iff.mp hsep
  have hback : String.toList ∘ String.ofList = id := funext (fun _ => String.toList_ofList)
  rw [← String.toList_inj, join, String.toList_intercalate, List.map_map, hback, List.map_id, intercalate_cut _ _ hne]

/-- Nothing that is written gets lost in the pieces, if it is not in the separator. -/
theorem written_cut (hsep : sep ≠ "") (hblank : written sep = []) (follows : List Char → Bool) (text : String) :
    ((cut sep.toList follows text.toList).map String.ofList).flatMap written = written text := by
  rw [← written_join hblank, join_cut hsep]

theorem written_notBlank (pieces : List String) : (notBlank pieces).flatMap written = pieces.flatMap written := by
  induction pieces with
  | nil => rfl
  | cons piece pieces ih =>
    rw [notBlank, List.filter_cons, List.flatMap_cons]
    by_cases hblank : strip piece = ""
    · rw [if_neg (by simpa using hblank), written_eq_nil_iff.mpr hblank, List.nil_append]
      exact ih
    · rw [if_pos (by simpa using hblank), List.flatMap_cons]
      exact congrArg _ ih

theorem written_blankLine : written "\n\n" = [] := by decide

theorem written_paragraphs (text : String) : (paragraphs text).flatMap written = written text := by
  rw [paragraphs, List.flatMap_map]
  simp only [written_strip]
  rw [written_notBlank, split, written_cut (by decide) written_blankLine]

theorem mem_notBlank {pieces : List String} {piece : String} (h : piece ∈ notBlank pieces) :
    piece ∈ pieces ∧ strip piece ≠ "" := by
  obtain ⟨hmem, hne⟩ := List.mem_filter.mp h
  exact ⟨hmem, by simpa using hne⟩

theorem ne_empty_of_mem_paragraphs {unit : String} (h : unit ∈ paragraphs text) : unit ≠ "" := by
  obtain ⟨piece, hpiece, rfl⟩ := List.mem_map.mp h
  exact (mem_notBlank hpiece).2

theorem notBlank_eq_nil {pieces : List String} (h : pieces.flatMap written = []) : notBlank pieces = [] := by
  rw [List.flatMap_eq_nil_iff] at h
  refine List.filter_eq_nil_iff.mpr (fun piece hpiece => ?_)
  rw [decide_eq_true_eq, not_not, ← written_eq_nil_iff]
  exact h piece hpiece

/-- The paragraphs of a text, packed. -/
theorem packParagraphs_eq (maxChars : Int) (text : String) :
    packParagraphs maxChars text = (pack (fitsIn maxChars) (paragraphs text)).map (join "\n\n") := by
  rw [packParagraphs]
  split_ifs with hnone
  · have hblank : strip text = "" := by rw [← written_eq_nil_iff, ← written_paragraphs, hnone, List.flatMap_nil]
    rw [hnone, hblank]
    rfl
  · have hunits : ∀ unit ∈ [] ++ paragraphs text, unit ≠ "" := fun unit hunit => ne_empty_of_mem_paragraphs hunit
    exact packUnits_eq hunits

theorem written_groups (groups : List (List String)) :
    groups.flatMap (fun group => written (join "\n\n" group)) = groups.flatten.flatMap written := by
  simp only [written_join written_blankLine]
  rw [List.flatten_eq_flatMap, List.flatMap_assoc]
  rfl

theorem written_packParagraphs (maxChars : Int) (text : String) :
    (packParagraphs maxChars text).flatMap written = written text := by
  rw [packParagraphs_eq, List.flatMap_map, written_groups, (packed_pack _ _).flatten, written_paragraphs]

end Contents

namespace ChatGpt
variable {maxChars : Int} {group turns : List String}

/-- A group that does not fit is one turn too long, and goes to the packer. -/
def chunksOf (maxChars : Int) (group : List String) : List String :=
  if maxChars < (join "\n\n" group).length then packParagraphs maxChars (join "\n\n" group) else [join "\n\n" group]

theorem chunksOf_of_fits (h : fitsIn maxChars group = true) : chunksOf maxChars group = [join "\n\n" group] := by
  rw [fitsIn, decide_eq_true_eq] at h
  rw [chunksOf, if_neg (by omega)]

theorem fitsIn_singleton {turn : String} : fitsIn maxChars [turn] = true ↔ ¬ maxChars < turn.length := by
  rw [fitsIn, join, String.intercalate_singleton, decide_eq_true_eq, Int.not_lt]

/-- Nothing fits beside a turn that is too long itself. -/
theorem packOnto_long {turn : String} (h : maxChars < turn.length) :
    packOnto (fitsIn maxChars) group (turn :: turns) =
      (if group = [] then [] else [group]) ++ [turn] :: packOnto (fitsIn maxChars) [] turns := by
  have hafter : packOnto (fitsIn maxChars) [turn] turns = [turn] :: packOnto (fitsIn maxChars) [] turns := by
    cases turns with
    | nil => rfl
    | cons next turns =>
      have hfull : fitsIn maxChars ([turn] ++ [next]) = false := by
        rw [← full_iff (List.cons_ne_nil _ _), join, String.intercalate_singleton]
        omega
      rw [packOnto, if_pos ⟨List.cons_ne_nil _ _, hfull⟩, packOnto, if_neg (fun h => h.1 rfl), List.nil_append]
  rw [packOnto]
  by_cases hgroup : group = []
  · rw [if_neg (fun h => h.1 hgroup), if_pos hgroup, hgroup, List.nil_append, List.nil_append, hafter]
  · have hfull : fitsIn maxChars (group ++ [turn]) = false := by
      rw [← full_iff hgroup]
      omega
    rw [if_pos ⟨hgroup, hfull⟩, if_neg hgroup, hafter, List.singleton_append]

theorem closed_chunks_eq (h : ∀ turn ∈ group, turn ≠ "") (hfits : group = [] ∨ fitsIn maxChars group = true) :
    (if join "\n\n" group ≠ "" then [join "\n\n" group] else []) =
      (if group = [] then [] else [group]).flatMap (chunksOf maxChars) := by
  rw [closed_eq h]
  split_ifs with hnil
  · rfl
  · rw [List.map_singleton, List.flatMap_singleton, chunksOf_of_fits (hfits.resolve_left hnil)]

/-- The loop with an open group that fits. -/
theorem packTurns_eq (h : ∀ turn ∈ group ++ turns, turn ≠ "") (hfits : group = [] ∨ fitsIn maxChars group = true) :
    packTurns maxChars (join "\n\n" group) turns = (packOnto (fitsIn maxChars) group turns).flatMap (chunksOf maxChars) := by
  induction turns generalizing group with
  | nil =>
    rw [List.append_nil] at h
    exact closed_chunks_eq h hfits
  | cons turn turns ih =>
    have hgroup : ∀ u ∈ group, u ≠ "" := fun u hu => h u (List.mem_append_left _ hu)
    have hturns : ∀ u ∈ turn :: turns, u ≠ "" := fun u hu => h u (List.mem_append_right _ hu)
    have hone : join "\n\n" [turn] = turn := String.intercalate_singleton
    rw [packTurns, added_eq hgroup]
    by_cases hlong : maxChars < turn.length
    · have hrest : packTurns maxChars (join "\n\n" []) turns = (packOnto (fitsIn maxChars) [] turns).flatMap (chunksOf maxChars) :=
        ih (fun u hu => hturns u (List.mem_cons_of_mem _ hu)) (.inl rfl)
      have hchunks : chunksOf maxChars [turn] = packParagraphs maxChars turn := by rw [chunksOf, hone, if_pos hlong]
      rw [if_pos hlong, closed_chunks_eq hgroup hfits, ← hchunks, packOnto_long hlong, List.flatMap_append, List.flatMap_cons, ← hrest]
      rfl
    · rw [if_neg hlong, packOnto]
      by_cases hfull : group ≠ [] ∧ fitsIn maxChars (group ++ [turn]) = false
      · have hrest : packTurns maxChars (join "\n\n" [turn]) turns =
            (packOnto (fitsIn maxChars) [turn] turns).flatMap (chunksOf maxChars) :=
          ih hturns (.inr (fitsIn_singleton.mpr hlong))
        rw [hone] at hrest
        rw [if_pos ((room_iff hgroup).mpr hfull), if_pos hfull, hrest, List.flatMap_cons,
          chunksOf_of_fits (hfits.resolve_left hfull.1), List.singleton_append]
      · have hnext : fitsIn maxChars (group ++ [turn]) = true := by
          by_cases hnil : group = []
          · rw [hnil, List.nil_append]
            exact fitsIn_singleton.mpr hlong
          · simpa [hnil] using hfull
        rw [if_neg (mt (room_iff hgroup).mp hfull), if_neg hfull]
        exact ih (fun u hu => h u (by rwa [List.append_assoc, List.singleton_append] at hu)) (.inr hnext)

/-- The turns of a transcript. -/
def turnsOf (text : String) : List String := notBlank (splitRoles text)

theorem written_turnsOf (text : String) : (turnsOf text).flatMap written = written text := by
  rw [turnsOf, written_notBlank, splitRoles, written_cut (by decide) written_blankLine]

theorem ne_empty_of_mem_turnsOf {text turn : String} (h : turn ∈ turnsOf text) : turn ≠ "" := by
  rintro rfl
  exact (mem_notBlank h).2 (by decide)

/-- The turns of a transcript, packed, and the long ones split. -/
theorem chunkTranscript_eq (maxChars : Int) (text : String) :
    chunkTranscript maxChars text = (pack (fitsIn maxChars) (turnsOf text)).flatMap (chunksOf maxChars) := by
  rw [chunkTranscript, ← turnsOf]
  split_ifs with hnone
  · have hblank : written text = [] := by rw [← written_turnsOf, hnone, List.flatMap_nil]
    have hpieces : (split "\n\n" text).flatMap written = [] := by
      rw [split, written_cut (by decide) written_blankLine, hblank]
    rw [packParagraphs_eq, paragraphs, notBlank_eq_nil hpieces, hnone]
    rfl
  · have hturns : ∀ turn ∈ [] ++ turnsOf text, turn ≠ "" := fun turn hturn => ne_empty_of_mem_turnsOf hturn
    exact packTurns_eq hturns (.inl rfl)

theorem written_chunksOf (maxChars : Int) (group : List String) :
    (chunksOf maxChars group).flatMap written = written (join "\n\n" group) := by
  rw [chunksOf]
  split_ifs
  · exact written_packParagraphs maxChars _
  · exact List.flatMap_singleton ..

theorem written_chunkTranscript (maxChars : Int) (text : String) :
    (chunkTranscript maxChars text).flatMap written = written text := by
  rw [chunkTranscript_eq, List.flatMap_assoc]
  simp only [written_chunksOf]
  rw [written_groups, (packed_pack _ _).flatten, written_turnsOf]

end ChatGpt
end Memorai.Connectors
