import Memorai.Text.Trimming
import Memorai.Shared.Scopes

/-! Source ids of the gateway and of the orchestrator. Each side checks them on its own. -/
namespace Memorai.Shared
open Schema (checkSourceId)
open Text

namespace SourceId

/-- The length is counted in bytes. -/
def parse (raw : String) : Option SourceId :=
  let trimmed := trim raw
  if trimmed.isEmpty || trimmed.utf8ByteSize > 64 then none
  else if trimmed ≠ raw then none
  else
    let valid := raw.toList.all (fun c => ('a' ≤ c && c ≤ 'z') || ('0' ≤ c && c ≤ '9') || c = '_' || c = '-')
    if valid then some ⟨raw⟩ else none

end SourceId

def sourceIdChar (c : Char) : Bool := ('a' ≤ c && c ≤ 'z') || ('0' ≤ c && c ≤ '9') || c = '_' || c = '-'

/-- 1 to 64 characters, all of them lower case letters, digits, underscores and hyphens. -/
structure PlainId (s : String) : Prop where
  nonempty : 1 ≤ s.toList.length
  short : s.toList.length ≤ 64
  chars : ∀ c ∈ s.toList, sourceIdChar c = true

/-- Both sides take it for a source id, or neither, and they do if it is plain. -/
structure SameSourceId (s : String) : Prop where
  both : (SourceId.parse s).isSome = true ↔ checkSourceId s = true
  plain : (SourceId.parse s).isSome = true ↔ PlainId s

theorem ascii_of_sourceIdChar {c : Char} (h : sourceIdChar c = true) : 45 ≤ c.toNat ∧ c.toNat ≤ 122 := by
  simp only [sourceIdChar, Bool.or_eq_true, Bool.and_eq_true, decide_eq_true_eq] at h
  rcases h with ((⟨ha, hz⟩ | ⟨h0, h9⟩) | rfl) | rfl
  · have ha' : 97 ≤ c.toNat := ha
    have hz' : c.toNat ≤ 122 := hz
    omega
  · have h0' : 48 ≤ c.toNat := h0
    have h9' : c.toNat ≤ 57 := h9
    omega
  · decide
  · decide

theorem not_isWhitespace_of_sourceIdChar {c : Char} (h : sourceIdChar c = true) : isWhitespace c = false := by
  obtain ⟨hle, hge⟩ := ascii_of_sourceIdChar h
  simp [isWhitespace]
  omega

theorem utf8ByteSize_of_ascii (l : List Char) (h : ∀ c ∈ l, c.toNat ≤ 127) : (String.ofList l).utf8ByteSize = l.length := by
  induction l with
  | nil => rfl
  | cons c l ih =>
    have hsize : c.utf8Size = 1 := Char.utf8Size_eq_one_iff.mpr (h c List.mem_cons_self)
    have hsplit : String.ofList (c :: l) = String.singleton c ++ String.ofList l := by
      rw [← String.toList_inj]
      simp
    rw [hsplit, String.utf8ByteSize_append, String.utf8ByteSize_singleton, hsize,
      ih (fun d hd => h d (List.mem_cons_of_mem _ hd)), List.length_cons, Nat.add_comm]

theorem parse_isSome_iff {s : String} : (SourceId.parse s).isSome = true ↔
    trim s ≠ "" ∧ (trim s).utf8ByteSize ≤ 64 ∧ trim s = s ∧ ∀ c ∈ s.toList, sourceIdChar c = true := by
  have hchars : s.toList.all (fun c => ('a' ≤ c && c ≤ 'z') || ('0' ≤ c && c ≤ '9') || c = '_' || c = '-') = true ↔
      ∀ c ∈ s.toList, sourceIdChar c = true := List.all_eq_true
  rw [← hchars]
  dsimp only [SourceId.parse]
  split_ifs with hbounds htrim hvalid
  · rw [Bool.or_eq_true, String.isEmpty_iff, decide_eq_true_eq] at hbounds
    refine iff_of_false (by simp) ?_
    rintro ⟨hsome, hshort, -⟩
    rcases hbounds with hempty | hlong
    · exact hsome hempty
    · omega
  · exact iff_of_false (by simp) (fun h => htrim h.2.2.1)
  · rw [Bool.or_eq_true, String.isEmpty_iff, decide_eq_true_eq, not_or, not_lt] at hbounds
    exact iff_of_true rfl ⟨hbounds.1, hbounds.2, not_not.mp htrim, hvalid⟩
  · exact iff_of_false (by simp) (fun h => hvalid h.2.2.2)

theorem parse_isSome_iff_plain {s : String} : (SourceId.parse s).isSome = true ↔ PlainId s := by
  have htrim : (∀ c ∈ s.toList, sourceIdChar c = true) → trim s = s := by
    intro hchars
    rw [trim, trimEnds_of_forall (fun c hc => not_isWhitespace_of_sourceIdChar (hchars c hc)), String.ofList_toList]
  have hsize : (∀ c ∈ s.toList, sourceIdChar c = true) → s.utf8ByteSize = s.toList.length := by
    intro hchars
    have hascii : ∀ c ∈ s.toList, c.toNat ≤ 127 := fun c hc => (ascii_of_sourceIdChar (hchars c hc)).2.trans (by decide)
    rw [← utf8ByteSize_of_ascii s.toList hascii, String.ofList_toList]
  have hempty : s ≠ "" ↔ 1 ≤ s.toList.length := by
    rw [ne_eq, ← String.toList_eq_nil_iff, ← ne_eq, ← List.length_pos_iff]
    rfl
  rw [parse_isSome_iff]
  constructor
  · rintro ⟨hsome, hshort, hself, hchars⟩
    rw [hself] at hsome hshort
    exact ⟨hempty.mp hsome, hsize hchars ▸ hshort, hchars⟩
  · rintro ⟨hsome, hshort, hchars⟩
    rw [htrim hchars, hsize hchars]
    exact ⟨hempty.mpr hsome, hshort, rfl, hchars⟩

theorem plainId_ofList_iff {l : List Char} : PlainId (String.ofList l) ↔
    1 ≤ l.length ∧ l.length ≤ 64 ∧ ∀ c ∈ l, sourceIdChar c = true := by
  constructor
  · rintro ⟨hsome, hshort, hchars⟩
    rw [String.toList_ofList] at hsome hshort hchars
    exact ⟨hsome, hshort, hchars⟩
  · rintro ⟨hsome, hshort, hchars⟩
    rw [← String.toList_ofList (l := l)] at hsome hshort hchars
    exact ⟨hsome, hshort, hchars⟩

theorem not_plainId_newline {id : String} : ¬ PlainId (id ++ "\n") := by
  rintro ⟨-, -, hchars⟩
  have hnewline := hchars '\n' (by simp)
  exact absurd hnewline (by decide)

/-- The pattern ends before a final newline as well as at the end. -/
theorem checkSourceId_iff {s : String} : checkSourceId s = true ↔ PlainId s ∨ ∃ id, PlainId id ∧ s = id ++ "\n" := by
  have hbody : checkSourceId s = true ↔
      PlainId (String.ofList (if s.toList.getLast? = some '\n' then s.toList.dropLast else s.toList)) := by
    rw [plainId_ofList_iff, checkSourceId, Bool.and_eq_true, Bool.and_eq_true, decide_eq_true_eq, decide_eq_true_eq,
      List.all_eq_true, and_assoc]
    rfl
  rw [hbody]
  split_ifs with hlast
  · obtain ⟨l, hl⟩ := List.getLast?_eq_some_iff.mp hlast
    have hs : s = String.ofList l ++ "\n" := by
      rw [← String.toList_inj, hl]
      simp
    rw [hl, List.dropLast_concat]
    constructor
    · intro hplain
      exact .inr ⟨_, hplain, hs⟩
    · rintro (hplain | ⟨id, hplain, hid⟩)
      · exact absurd (hs ▸ hplain) not_plainId_newline
      · rwa [(String.append_left_inj _).mp (hs.symm.trans hid)]
  · rw [String.ofList_toList]
    constructor
    · exact .inl
    · rintro (hplain | ⟨id, -, rfl⟩)
      · exact hplain
      · exact absurd (by simp) hlast

/-- The two sides agree on a string unless it is a source id with a newline after it. -/
theorem same_source_id_iff (s : String) : SameSourceId s ↔ ¬ ∃ id, PlainId id ∧ s = id ++ "\n" := by
  constructor
  · rintro ⟨hboth, hplain⟩ hline
    have hcheck := checkSourceId_iff.mpr (.inr hline)
    obtain ⟨id, -, rfl⟩ := hline
    exact not_plainId_newline (hplain.mp (hboth.mpr hcheck))
  · intro hline
    refine ⟨?_, parse_isSome_iff_plain⟩
    rw [parse_isSome_iff_plain, checkSourceId_iff, or_iff_left hline]

theorem slack_line_passes_one_side : ¬ ∀ s, SameSourceId s := by
  intro h
  have hcheck : checkSourceId "slack\n" = true := by decide
  exact absurd ((h "slack\n").both.mpr hcheck) (by decide +kernel)

end Memorai.Shared
