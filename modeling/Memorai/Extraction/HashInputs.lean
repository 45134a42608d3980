import Memorai.Extraction.Wordings
import Memorai.Shared.SourceIds
import Memorai.Text.Bytes

/-! What the digests of ids are taken of, and which owners these texts tell apart. -/
namespace Memorai.Extraction
open Schema Text

section Fields
variable {α : Type} {sep : α} {a a' m m' x x' : List α}

/-- The field in front of a separator is the one up to it, or begins with that one and a separator. -/
theorem field_eq_or (hm : sep ∉ m) {w : List α} (h : m ++ sep :: x = w ++ sep :: x') :
    (w = m ∧ x = x') ∨ ∃ more, w = m ++ sep :: more := by
  rcases List.append_eq_append_iff.mp h with ⟨rest, rfl, hrest⟩ | ⟨rest, rfl, hrest⟩
  · cases rest with
    | nil => exact .inl ⟨List.append_nil m, (List.cons.inj hrest).2⟩
    | cons b rest =>
      obtain ⟨rfl, -⟩ := List.cons.inj hrest
      exact .inr ⟨rest, rfl⟩
  · cases rest with
    | nil => exact .inl ⟨(List.append_nil w).symm, (List.cons.inj hrest).2.symm⟩
    | cons b rest =>
      obtain ⟨rfl, -⟩ := List.cons.inj hrest
      exact absurd (List.mem_append_right w List.mem_cons_self) hm

/-- What comes in front of two fields is nothing, or begins with the same first field. -/
theorem front_eq_or (hm : sep ∉ m) (hm' : sep ∉ m') {w : List α} (h : sep :: (m ++ sep :: x) = w ++ sep :: (m' ++ sep :: x')) :
    (w = [] ∧ m = m' ∧ x = x') ∨ w = sep :: m ∨ ∃ more, w = sep :: (m ++ sep :: more) := by
  cases w with
  | nil =>
    rcases field_eq_or hm (List.cons.inj h).2 with ⟨rfl, rfl⟩ | ⟨more, rfl⟩
    · exact .inl ⟨rfl, rfl, rfl⟩
    · exact absurd (List.mem_append_right m List.mem_cons_self) hm'
  | cons b w =>
    obtain ⟨rfl, hw⟩ := List.cons.inj h
    rcases field_eq_or hm hw with ⟨rfl, -⟩ | ⟨more, rfl⟩
    · exact .inr (.inl rfl)
    · exact .inr (.inr ⟨more, rfl⟩)

/-- Of three fields, the one in the middle without a separator, the first comes apart unless it goes on as the other one. -/
theorem fields_eq_or (hm : sep ∉ m) (hm' : sep ∉ m') (h : a ++ sep :: (m ++ sep :: x) = a' ++ sep :: (m' ++ sep :: x')) :
    (a = a' ∧ m = m' ∧ x = x') ∨ (a' = a ++ sep :: m ∨ ∃ more, a' = a ++ sep :: (m ++ sep :: more)) ∨
      (a = a' ++ sep :: m' ∨ ∃ more, a = a' ++ sep :: (m' ++ sep :: more)) := by
  rcases List.append_eq_append_iff.mp h with ⟨w, rfl, hw⟩ | ⟨w, rfl, hw⟩
  · rcases front_eq_or hm hm' hw with ⟨rfl, hsame⟩ | rfl | ⟨more, rfl⟩
    · exact .inl ⟨(List.append_nil a).symm, hsame⟩
    · exact .inr (.inl (.inl rfl))
    · exact .inr (.inl (.inr ⟨more, rfl⟩))
  · rcases front_eq_or hm' hm hw with ⟨rfl, hsame, htail⟩ | rfl | ⟨more, rfl⟩
    · exact .inl ⟨List.append_nil a', hsame.symm, htail.symm⟩
    · exact .inr (.inr (.inl rfl))
    · exact .inr (.inr (.inr ⟨more, rfl⟩))

end Fields

section Texts

/-- The text an event's id is made from. -/
def eventText (ownerId : String) (record : RawRecord) : String := join "\x1f" [ownerId, record.connector.val, record.externalId]

/-- The digits that are kept of a digest. -/
structure HexDigest (env : Ambient) : Prop where
  length : ∀ text, (env.digest text).toList.length = 20
  digits : ∀ text, ∀ c ∈ (env.digest text).toList, c ∈ hexAlphabet

/-- Equal texts are those of equal triples, in each of the three families. -/
structure TextsTell (env : Ambient) (owners : Set String) : Prop where
  events : ∀ owner ∈ owners, ∀ owner' ∈ owners, ∀ record record' : RawRecord,
    eventText owner record = eventText owner' record' →
      owner = owner' ∧ record.connector = record'.connector ∧ record.externalId = record'.externalId
  entities : ∀ owner ∈ owners, ∀ owner' ∈ owners, ∀ (kind kind' : EntityKind) (name name' : String),
    partyText owner (kind, env.lower name) = partyText owner' (kind', env.lower name') →
      owner = owner' ∧ kind = kind' ∧ env.lower name = env.lower name'
  claims : ∀ owner ∈ owners, ∀ owner' ∈ owners, ∀ (record record' : RawRecord) (statement statement' : String),
    claimText env owner record statement = claimText env owner' record' statement' →
      owner = owner' ∧ eventIdOf env owner record = eventIdOf env owner' record' ∧ statement = statement'

/-- The one owner id is the other one, a separator, a source id, and then it ends or there is one more separator. -/
def Continues (owner owner' : String) : Prop :=
  ∃ source : SourceId, owner' = join "\x1f" [owner, source.val] ∨ ∃ more, owner' = join "\x1f" [owner, source.val, more]

end Texts

section Joins
variable {env : Ambient} {owners : Set String} {owner owner' third third' : String}

theorem toList_join_three (first middle third : String) :
    (join "\x1f" [first, middle, third]).toList = first.toList ++ '\x1f' :: (middle.toList ++ '\x1f' :: third.toList) := by
  have hjoin : join "\x1f" [first, middle, third] = first ++ "\x1f" ++ middle ++ "\x1f" ++ third := rfl
  simp [hjoin]

theorem toList_join_two (first middle : String) : (join "\x1f" [first, middle]).toList = first.toList ++ '\x1f' :: middle.toList := by
  have hjoin : join "\x1f" [first, middle] = first ++ "\x1f" ++ middle := rfl
  simp [hjoin]

theorem separator_not_mem (source : SourceId) : '\x1f' ∉ source.val.toList := by
  intro hmem
  rcases Shared.checkSourceId_iff.mp source.property with hplain | ⟨id, hplain, hid⟩
  · exact absurd (hplain.chars _ hmem) (by decide)
  · rw [hid, String.toList_append, List.mem_append] at hmem
    rcases hmem with hmem | hmem
    · exact absurd (hplain.chars _ hmem) (by decide)
    · exact absurd hmem (by decide)

theorem continues_of_toList {source : SourceId} (h : owner'.toList = owner.toList ++ '\x1f' :: source.val.toList ∨
    ∃ more, owner'.toList = owner.toList ++ '\x1f' :: (source.val.toList ++ '\x1f' :: more)) : Continues owner owner' := by
  rcases h with h | ⟨more, h⟩
  · exact ⟨source, .inl (String.toList_inj.mp (by rw [h, toList_join_two]))⟩
  · exact ⟨source, .inr ⟨String.ofList more, String.toList_inj.mp (by rw [h, toList_join_three, String.toList_ofList])⟩⟩

/-- Where neither owner id goes on as the other one, the three fields come apart. -/
theorem join_three_inj (source source' : SourceId) (hnot : ¬ Continues owner owner') (hnot' : ¬ Continues owner' owner)
    (h : join "\x1f" [owner, source.val, third] = join "\x1f" [owner', source'.val, third']) :
    owner = owner' ∧ source = source' ∧ third = third' := by
  have hlists := congrArg String.toList h
  rw [toList_join_three, toList_join_three] at hlists
  rcases fields_eq_or (separator_not_mem source) (separator_not_mem source') hlists with ⟨howner, hsource, hthird⟩ | hgoes | hgoes
  · exact ⟨String.toList_inj.mp howner, Subtype.ext (String.toList_inj.mp hsource), String.toList_inj.mp hthird⟩
  · exact absurd (continues_of_toList hgoes) hnot
  · exact absurd (continues_of_toList hgoes) hnot'

theorem Continues.ne (h : Continues owner owner') : owner ≠ owner' := by
  rintro rfl
  have hlonger : ∀ rest : List Char, owner.toList ≠ owner.toList ++ '\x1f' :: rest := by
    intro rest hself
    exact List.cons_ne_nil _ _ (List.append_right_eq_self.mp hself.symm)
  obtain ⟨source, h | ⟨more, h⟩⟩ := h
  · exact hlonger _ ((congrArg String.toList h).trans (toList_join_two _ _))
  · exact hlonger _ ((congrArg String.toList h).trans (toList_join_three _ _ _))

def bareRecord (connector : SourceId) (externalId : String) : RawRecord where
  externalId := externalId
  connector := connector
  occurredAtMs := 0
  title := ""
  body := ""

/-- The longer owner id then has an event under the text of an event of the shorter one. -/
theorem Continues.exists_eventText (h : Continues owner owner') (connector : SourceId) (externalId : String) :
    ∃ record, eventText owner record = eventText owner' (bareRecord connector externalId) := by
  obtain ⟨source, rfl | ⟨more, rfl⟩⟩ := h
  · refine ⟨bareRecord source (join "\x1f" [connector.val, externalId]), String.toList_inj.mp ?_⟩
    rw [eventText, eventText, toList_join_three, toList_join_three, toList_join_two]
    dsimp only [bareRecord]
    rw [toList_join_two, List.append_assoc, List.cons_append]
  · refine ⟨bareRecord source (join "\x1f" [more, connector.val, externalId]), String.toList_inj.mp ?_⟩
    rw [eventText, eventText, toList_join_three, toList_join_three, toList_join_three]
    dsimp only [bareRecord]
    rw [toList_join_three, List.append_assoc, List.cons_append, List.append_assoc, List.cons_append]

/-- A kind is spelled like a source id, and so is the id of an event. -/
theorem checkSourceId_kind (kind : EntityKind) : checkSourceId kind.value = true := by
  cases kind <;> decide

theorem checkSourceId_eventId (hdigest : HexDigest env) (record : RawRecord) : checkSourceId (eventIdOf env owner record) = true := by
  have htag : ∀ c ∈ "evt_".toList, Shared.sourceIdChar c = true := List.all_eq_true.mp (by decide)
  have hhex : ∀ c ∈ hexAlphabet, Shared.sourceIdChar c = true := List.all_eq_true.mp (by decide)
  have htext : (eventIdOf env owner record).toList = "evt_".toList ++ (env.digest (eventText owner record)).toList := by
    rw [eventIdOf, stableId, String.toList_append]
    rfl
  have hlength : (eventIdOf env owner record).toList.length = 24 := by
    rw [htext, List.length_append, hdigest.length]
    rfl
  refine Shared.checkSourceId_iff.mpr (.inl ⟨by omega, by omega, ?_⟩)
  rw [htext, List.forall_mem_append]
  exact ⟨htag, fun c hc => hhex c (hdigest.digits _ c hc)⟩

/-- The ids of some owners keep them and their records apart exactly if none of these owners goes on as another one. -/
theorem textsTell_iff (hdigest : HexDigest env) :
    TextsTell env owners ↔ ∀ owner ∈ owners, ∀ owner' ∈ owners, ¬ Continues owner owner' := by
  constructor
  · intro htell owner howner owner' howner' hgoes
    obtain ⟨record, htext⟩ := hgoes.exists_eventText ⟨"slack", by decide⟩ ""
    exact hgoes.ne (htell.events owner howner owner' howner' record _ htext).1
  · intro hapart
    refine ⟨?_, ?_, ?_⟩
    · intro owner howner owner' howner' record record' htext
      exact join_three_inj _ _ (hapart owner howner owner' howner') (hapart owner' howner' owner howner) htext
    · intro owner howner owner' howner' kind kind' name name' htext
      obtain ⟨rfl, hkind, hname⟩ := join_three_inj ⟨kind.value, checkSourceId_kind kind⟩ ⟨kind'.value, checkSourceId_kind kind'⟩
        (hapart owner howner owner' howner') (hapart owner' howner' owner howner) htext
      refine ⟨rfl, ?_, hname⟩
      rw [← Option.some_inj, ← EntityKind.ofValue_value, ← EntityKind.ofValue_value, Subtype.mk.inj hkind]
    · intro owner howner owner' howner' record record' statement statement' htext
      obtain ⟨hown, hevent, hstatement⟩ := join_three_inj ⟨_, checkSourceId_eventId hdigest record⟩
        ⟨_, checkSourceId_eventId hdigest record'⟩ (hapart owner howner owner' howner') (hapart owner' howner' owner howner) htext
      exact ⟨hown, Subtype.mk.inj hevent, hstatement⟩

theorem not_continues_of_not_mem (h : '\x1f' ∉ owner'.toList) : ¬ Continues owner owner' := by
  rintro ⟨source, rfl | ⟨more, rfl⟩⟩
  · rw [toList_join_two] at h
    exact h (List.mem_append_right _ List.mem_cons_self)
  · rw [toList_join_three] at h
    exact h (List.mem_append_right _ List.mem_cons_self)

end Joins

/-- Twenty hexadecimal digits of a text. -/
def firstDigits (text : String) : String := upTo 20 (hexEncode (utf8 text) ++ "00000000000000000000")

theorem hexDigest_firstDigits : HexDigest ⟨id, firstDigits, fun _ => none, 0⟩ := by
  have htext : ∀ text, (firstDigits text).toList = ((hexEncode (utf8 text)).toList ++ List.replicate 20 '0').take 20 := by
    intro text
    rw [firstDigits, upTo, String.toList_ofList, String.toList_append]
    rfl
  constructor
  · intro text
    rw [htext, List.length_take, List.length_append, List.length_replicate]
    omega
  · intro text c hc
    rw [htext] at hc
    rcases List.mem_append.mp (List.mem_of_mem_take hc) with hc | hc
    · exact mem_hexAlphabet hc
    · rw [(List.mem_replicate.mp hc).2]
      decide

theorem textsTell_iff_two : TextsTell ⟨id, firstDigits, fun _ => none, 0⟩ {"alice", "bob"} := by
  refine (textsTell_iff hexDigest_firstDigits).mpr ?_
  rintro _ - owner' (rfl | rfl)
  · exact not_continues_of_not_mem (by decide)
  · exact not_continues_of_not_mem (by decide)

/-- The separator in an owner id lets a message of one owner and an issue of another have one id. -/
theorem alice_and_longer_alice : ¬ ∀ (owner owner' : String) (record record' : RawRecord),
    eventText owner record = eventText owner' record' →
      owner = owner' ∧ record.connector = record'.connector ∧ record.externalId = record'.externalId := by
  intro h
  have htext : eventText "alice" (bareRecord ⟨"slack", by decide⟩ "m\x1fgithub\x1f42") =
      eventText "alice\x1fslack\x1fm" (bareRecord ⟨"github", by decide⟩ "42") := by decide
  exact absurd (h _ _ _ _ htext).1 (by decide)

end Memorai.Extraction
