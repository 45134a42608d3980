import Mathlib.Data.List.Lex
import Mathlib.Data.List.Sort
import Mathlib.Data.String.Basic
import Memorai.Text.Strings

/-! Where an owner's export lies. A path is the names it goes through, in a file system without symbolic links. -/
namespace Memorai.Connectors.Exports
open Text

section Paths

/-- `pathlib.PurePosixPath` -/
structure Path where
  absolute : Bool
  names : List String
  deriving DecidableEq, Repr

/-- `dir / part`: an absolute part stands alone, empty names and `.` are dropped. -/
def Path.div (dir : Path) (part : String) : Path :=
  let names := ((part.toList.splitOn '/').map String.ofList).filter (fun name => name ≠ "" && name ≠ ".")
  if part.toList.head? = some '/' then ⟨true, names⟩ else ⟨dir.absolute, dir.names ++ names⟩

/-- `str(path)` -/
def Path.str (path : Path) : String :=
  if path.absolute then "/" ++ join "/" path.names else if path.names = [] then "." else join "/" path.names

/-- What a directory can hold an entry under. -/
def IsName (name : String) : Prop := '/' ∉ name.toList ∧ name ≠ "" ∧ name ≠ "." ∧ name ≠ ".."

inductive FileKind where
  | file
  | directory
  deriving DecidableEq, Repr

structure FileSystem where
  kind : Path → Option FileKind
  entries : Path → List String
  entries_name : ∀ dir, ∀ name ∈ entries dir, IsName name

namespace FileSystem

/-- `path.is_file()` -/
def isFile (fs : FileSystem) (path : Path) : Bool := fs.kind path = some .file

/-- `path.is_dir()` -/
def isDir (fs : FileSystem) (path : Path) : Bool := fs.kind path = some .directory

/-- `dir.glob("*" + suffix)` -/
def glob (fs : FileSystem) (dir : Path) (suffix : String) : List Path :=
  ((fs.entries dir).filter (fun name => suffix.toList.isSuffixOf name.toList)).map
    (fun name => ⟨dir.absolute, dir.names ++ [name]⟩)

end FileSystem
end Paths

section Lookup

def isAlnum (c : Char) : Bool := ('A' ≤ c && c ≤ 'Z') || ('a' ≤ c && c ≤ 'z') || ('0' ≤ c && c ≤ '9')

/-- `_SAFE_OWNER.match`. The end it asks for may be in front of a last newline. -/
def safeOwner (ownerId : String) : Bool :=
  let text := if ownerId.toList.getLast? = some '\n' then ownerId.toList.dropLast else ownerId.toList
  match text with
  | [] => false
  | first :: rest => isAlnum first && rest.length ≤ 127 && rest.all (fun c => isAlnum c || c = '.' || c = '_' || c = '@' || c = '-')

def CONVERSATIONS : String := "conversations.json"

/-- Where an owner's export may sit, in the order they are tried. The last is a directory to hold any archive. -/
def candidatePaths (exportDir : Path) (ownerId : String) : List Path := [
  (exportDir.div ownerId).div CONVERSATIONS,
  exportDir.div (ownerId ++ ".json"),
  exportDir.div (ownerId ++ ".zip"),
  exportDir.div ownerId]

inductive ExportError where
  | refused (ownerId : String)
  | notFound (ownerId : String) (lookedIn : Option (List Path)) (configured : Bool)
  deriving DecidableEq, Repr

/-- The text of the error. `repr` is how a string is quoted. -/
def ExportError.message (repr : String → String) : ExportError → String
  | refused ownerId => "refusing to build an export path from owner id " ++ repr ownerId
  | notFound ownerId lookedIn configured =>
    let detail :=
      if configured then
        "No export found for owner " ++ repr ownerId ++ ". Looked for:\n  " ++ join "\n  " ((lookedIn.getD []).map Path.str)
      else "CHATGPT_EXPORT_DIR is not set, so there is nowhere to look for an export."
    detail ++ "\n\nChatGPT has no conversation-history API; the only source is your own data " ++
      "export. In ChatGPT: Settings -> Data controls -> Export data. OpenAI emails " ++
      "you a .zip; put the .zip (or the conversations.json inside it) at one of the " ++
      "paths above and re-run the ingest."

/-- `sorted(owner_dir.glob("*.zip"))`, if it is a directory. -/
def ownerZips (fs : FileSystem) (ownerDir : Path) : List Path :=
  if fs.isDir ownerDir then (fs.glob ownerDir ".zip").insertionSort (fun a b => a.names ≤ b.names) else []

/-- `resolve_export_path` -/
def resolveExportPath (fs : FileSystem) (exportDir : Option Path) (ownerId : String) : Except ExportError Path :=
  if safeOwner ownerId then
    match exportDir with
    | none => .error (.notFound ownerId none false)
    | some exportDir =>
      let candidates := candidatePaths exportDir ownerId
      match (candidates.take 3).find? fs.isFile with
      | some candidate => .ok candidate
      | none =>
        match candidates[3]?.bind (fun ownerDir => (ownerZips fs ownerDir).getLast?) with
        | some zip => .ok zip
        | none => .error (.notFound ownerId (some candidates) true)
  else .error (.refused ownerId)

end Lookup

section Names

theorem Path.div_name (dir : Path) {name : String} (h : IsName name) : dir.div name = ⟨dir.absolute, dir.names ++ [name]⟩ := by
  obtain ⟨hslash, hempty, hdot, -⟩ := h
  have hrelative : name.toList.head? ≠ some '/' := by
    intro hhead
    exact hslash (List.mem_of_mem_head? hhead)
  have hkept : (name ≠ "" && name ≠ ".") = true := by
    rw [Bool.and_eq_true, decide_eq_true_eq, decide_eq_true_eq]
    exact ⟨hempty, hdot⟩
  rw [Path.div, if_neg hrelative, List.splitOn_eq_singleton hslash, List.map_singleton, String.ofList_toList,
    List.filter_cons_of_pos (by rw [hkept]), List.filter_nil]

theorem isAlnum_ne {c : Char} (h : isAlnum c = true) : c ≠ '/' ∧ c ≠ '.' := by
  constructor
  · rintro rfl
    exact absurd h (by decide)
  · rintro rfl
    exact absurd h (by decide)

/-- An owner id that is let through begins with a letter or a digit, and no part of a path ends in it. -/
theorem safeOwner_text {ownerId : String} (h : safeOwner ownerId = true) :
    (∃ first rest, ownerId.toList = first :: rest ∧ isAlnum first = true) ∧ '/' ∉ ownerId.toList := by
  have hline : ∃ text ending, ownerId.toList = text ++ ending ∧ '/' ∉ ending ∧
      ((if ownerId.toList.getLast? = some '\n' then ownerId.toList.dropLast else ownerId.toList) = text) := by
    by_cases hlast : ownerId.toList.getLast? = some '\n'
    · refine ⟨ownerId.toList.dropLast, ['\n'], (List.dropLast_append_getLast? '\n' hlast).symm, by decide, if_pos hlast⟩
    · exact ⟨ownerId.toList, [], (List.append_nil _).symm, List.not_mem_nil, if_neg hlast⟩
  obtain ⟨text, ending, hsplit, hending, htext⟩ := hline
  rw [safeOwner, htext] at h
  cases text with
  | nil => exact absurd h (by decide)
  | cons first rest =>
    simp only [Bool.and_eq_true] at h
    obtain ⟨⟨hfirst, -⟩, hrest⟩ := h
    refine ⟨⟨first, rest ++ ending, by rw [hsplit, List.cons_append], hfirst⟩, ?_⟩
    rw [hsplit, List.mem_append, List.mem_cons]
    rintro ((hslash | hslash) | hslash)
    · exact (isAlnum_ne hfirst).1 hslash.symm
    · exact absurd (List.all_eq_true.mp hrest _ hslash) (by decide)
    · exact hending hslash

theorem isName_of_safeOwner {ownerId : String} (h : safeOwner ownerId = true) (suffix : String) (hsuffix : '/' ∉ suffix.toList) :
    IsName (ownerId ++ suffix) := by
  obtain ⟨⟨first, rest, htext, hfirst⟩, hslash⟩ := safeOwner_text h
  have hcons : (ownerId ++ suffix).toList = first :: (rest ++ suffix.toList) := by
    rw [String.toList_append, htext, List.cons_append]
  have hne : ∀ name : String, name.toList.head? ≠ some first → ownerId ++ suffix ≠ name := by
    rintro name hhead rfl
    exact hhead (by rw [hcons, List.head?_cons])
  have hdot : some '.' ≠ some first := fun hfirsts => (isAlnum_ne hfirst).2 (Option.some.inj hfirsts).symm
  refine ⟨?_, hne "" (Option.some_ne_none first).symm, hne "." hdot, hne ".." hdot⟩
  rw [String.toList_append, List.mem_append]
  exact not_or.mpr ⟨hslash, hsuffix⟩

end Names

section Owners

/-- The names of an owner's export below the export directory. -/
inductive Below (ownerId : String) : List String → Prop
  | inDirectory (name : String) : Below ownerId [ownerId, name]
  | suffixed {suffix : String} (hsuffix : suffix = ".json" ∨ suffix = ".zip") : Below ownerId [ownerId ++ suffix]

theorem isName_conversations : IsName CONVERSATIONS := by
  refine ⟨?_, ?_, ?_, ?_⟩ <;> decide

theorem candidatePaths_eq (exportDir : Path) {ownerId : String} (h : safeOwner ownerId = true) :
    candidatePaths exportDir ownerId = [
      ⟨exportDir.absolute, exportDir.names ++ [ownerId, CONVERSATIONS]⟩,
      ⟨exportDir.absolute, exportDir.names ++ [ownerId ++ ".json"]⟩,
      ⟨exportDir.absolute, exportDir.names ++ [ownerId ++ ".zip"]⟩,
      ⟨exportDir.absolute, exportDir.names ++ [ownerId]⟩] := by
  have howner : IsName ownerId := by
    have hname := isName_of_safeOwner h "" (by decide)
    rwa [String.append_empty] at hname
  rw [candidatePaths, Path.div_name exportDir howner, Path.div_name _ isName_conversations,
    Path.div_name _ (isName_of_safeOwner h _ (by decide)), Path.div_name _ (isName_of_safeOwner h _ (by decide)), List.append_assoc]
  rfl

theorem mem_ownerZips {fs : FileSystem} {dir zip : Path} (h : zip ∈ ownerZips fs dir) :
    ∃ name, IsName name ∧ zip = ⟨dir.absolute, dir.names ++ [name]⟩ := by
  rw [ownerZips] at h
  split_ifs at h
  · obtain ⟨name, hentry, rfl⟩ := List.mem_map.mp ((List.mem_insertionSort _).mp h)
    exact ⟨name, fs.entries_name dir name (List.mem_of_mem_filter hentry), rfl⟩
  · exact absurd h List.not_mem_nil

/-- What is resolved is one of the three files, or an archive in the owner's directory. -/
theorem resolveExportPath_ok {fs : FileSystem} {exportDir path : Path} {ownerId : String}
    (h : resolveExportPath fs (some exportDir) ownerId = .ok path) :
    ∃ names, Below ownerId names ∧ (∀ name ∈ names, IsName name) ∧ path = ⟨exportDir.absolute, exportDir.names ++ names⟩ := by
  by_cases hsafe : safeOwner ownerId = true
  · have hname : ∀ suffix : String, '/' ∉ suffix.toList → IsName (ownerId ++ suffix) := isName_of_safeOwner hsafe
    have howner : IsName ownerId := by
      have hempty := hname "" (by decide)
      rwa [String.append_empty] at hempty
    rw [resolveExportPath, if_pos hsafe] at h
    dsimp only at h
    rw [candidatePaths_eq exportDir hsafe] at h
    split at h
    · rename_i candidate hfound
      obtain rfl := Except.ok.inj h
      have hmem := List.mem_of_find?_eq_some hfound
      simp only [List.take_succ_cons, List.take_zero, List.mem_cons, List.not_mem_nil, or_false] at hmem
      rcases hmem with rfl | rfl | rfl
      · refine ⟨_, .inDirectory CONVERSATIONS, ?_, rfl⟩
        exact List.forall_mem_cons.mpr ⟨howner, List.forall_mem_singleton.mpr isName_conversations⟩
      · exact ⟨_, .suffixed (.inl rfl), List.forall_mem_singleton.mpr (hname _ (by decide)), rfl⟩
      · exact ⟨_, .suffixed (.inr rfl), List.forall_mem_singleton.mpr (hname _ (by decide)), rfl⟩
    · split at h
      · rename_i zip hzip
        obtain rfl := Except.ok.inj h
        have hmem := List.mem_of_getLast? hzip
        obtain ⟨name, hentry, rfl⟩ := mem_ownerZips hmem
        refine ⟨_, .inDirectory name, ?_, by rw [List.append_assoc]; rfl⟩
        exact List.forall_mem_cons.mpr ⟨howner, List.forall_mem_singleton.mpr hentry⟩
      · exact absurd h (by simp)
  · rw [resolveExportPath, if_neg hsafe] at h
    exact absurd h (by simp)

theorem eq_of_append_suffix {a b suffix suffix' : String} (hsuffix : suffix = ".json" ∨ suffix = ".zip")
    (hsuffix' : suffix' = ".json" ∨ suffix' = ".zip") (h : a ++ suffix = b ++ suffix') : a = b := by
  have hlist : a.toList ++ suffix.toList = b.toList ++ suffix'.toList := by rw [← String.toList_append, h, String.toList_append]
  have hlast : suffix = suffix' → a = b := by
    rintro rfl
    exact String.toList_inj.mp (List.append_cancel_right hlist)
  have hends : suffix.toList.getLast? = suffix'.toList.getLast? := by
    have hsome : ∀ ending : String, ending = ".json" ∨ ending = ".zip" → ending.toList ≠ [] := by
      rintro ending (rfl | rfl) <;> decide
    rw [← List.getLast?_append_of_ne_nil a.toList (hsome suffix hsuffix), hlist,
      List.getLast?_append_of_ne_nil b.toList (hsome suffix' hsuffix')]
  rcases hsuffix with rfl | rfl
  · rcases hsuffix' with rfl | rfl
    · exact hlast rfl
    · exact absurd hends (by decide)
  · rcases hsuffix' with rfl | rfl
    · exact absurd hends (by decide)
    · exact hlast rfl

/-- Whoever's they are, the names below the directory tell whose. -/
theorem Below.owner_eq {a b : String} {names : List String} (ha : Below a names) (hb : Below b names) : a = b := by
  generalize hnames : names = names' at hb
  cases ha with
  | inDirectory =>
    cases hb with
    | inDirectory => exact (List.cons.inj hnames).1
    | suffixed => exact absurd (List.cons.inj hnames).2 (List.cons_ne_nil _ _)
  | suffixed hsuffix =>
    cases hb with
    | inDirectory => exact absurd (List.cons.inj hnames).2 (List.cons_ne_nil _ _).symm
    | suffixed hsuffix' => exact eq_of_append_suffix hsuffix hsuffix' (List.cons.inj hnames).1

/-- An export lies in the export directory or in a directory of it, and no two owners have the same one, whatever
happens to the files between the two requests. -/
theorem resolveExportPath_apart {fs fs' : FileSystem} {exportDir path path' : Path} {a b : String}
    (ha : resolveExportPath fs (some exportDir) a = .ok path) (hb : resolveExportPath fs' (some exportDir) b = .ok path') :
    (∃ names, path = ⟨exportDir.absolute, exportDir.names ++ names⟩ ∧ (∀ name ∈ names, IsName name) ∧
      (names.length = 1 ∨ names.length = 2)) ∧ (a ≠ b → path ≠ path') := by
  obtain ⟨names, hbelow, hnames, rfl⟩ := resolveExportPath_ok ha
  obtain ⟨names', hbelow', -, rfl⟩ := resolveExportPath_ok hb
  constructor
  · refine ⟨names, rfl, hnames, ?_⟩
    cases hbelow with
    | inDirectory => exact .inr rfl
    | suffixed => exact .inl rfl
  · intro hne hpath
    have hsame : names = names' := List.append_cancel_left (Path.mk.inj hpath).2
    exact hne (hbelow.owner_eq (hsame ▸ hbelow'))

/-- Alice has an unpacked export, and there is an archive beside it. -/
def oneExport : FileSystem where
  kind path :=
    if path.names ∈ [["exports", "alice", "conversations.json"], ["exports", "alice.json.zip"]] then some .file else none
  entries _ := []
  entries_name _ _ h := absurd h List.not_mem_nil

theorem resolveExportPath_apart_two :
    resolveExportPath oneExport (some ⟨true, ["exports"]⟩) "alice" = .ok ⟨true, ["exports", "alice", "conversations.json"]⟩ ∧
      resolveExportPath oneExport (some ⟨true, ["exports"]⟩) "alice.json" = .ok ⟨true, ["exports", "alice.json.zip"]⟩ ∧
      (⟨true, ["exports", "alice", "conversations.json"]⟩ : Path) ≠ ⟨true, ["exports", "alice.json.zip"]⟩ :=
  have ha : resolveExportPath oneExport (some ⟨true, ["exports"]⟩) "alice" =
      .ok ⟨true, ["exports", "alice", "conversations.json"]⟩ := by decide
  have hb : resolveExportPath oneExport (some ⟨true, ["exports"]⟩) "alice.json" = .ok ⟨true, ["exports", "alice.json.zip"]⟩ := by
    decide
  ⟨ha, hb, (resolveExportPath_apart ha hb).2 (by decide)⟩

end Owners
end Memorai.Connectors.Exports
