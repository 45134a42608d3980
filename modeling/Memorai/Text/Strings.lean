import Mathlib.Data.List.Basic

/-! String operations of the source language, over character lists. -/
namespace Memorai.Text

/-- White space as `str.isspace` has it, not only the ASCII blanks. -/
def isSpace (c : Char) : Bool :=
  let n := c.toNat
  (9 ≤ n && n ≤ 13) || (28 ≤ n && n ≤ 32) || n = 0x85 || n = 0xA0 || n = 0x1680 ||
    (0x2000 ≤ n && n ≤ 0x200A) || n = 0x2028 || n = 0x2029 || n = 0x202F || n = 0x205F || n = 0x3000

def stripChars (cs : List Char) : List Char :=
  ((cs.dropWhile isSpace).reverse.dropWhile isSpace).reverse

/-- `str.strip` -/
def strip (s : String) : String := String.ofList (stripChars s.toList)

/-- White space as `char::is_whitespace` has it. -/
def isWhitespace (c : Char) : Bool :=
  let n := c.toNat
  (9 ≤ n && n ≤ 13) || n = 32 || n = 0x85 || n = 0xA0 || n = 0x1680 || (0x2000 ≤ n && n ≤ 0x200A) || n = 0x2028 ||
    n = 0x2029 || n = 0x202F || n = 0x205F || n = 0x3000

/-- `str::trim` leaves nothing. -/
def isBlank (s : String) : Bool := s.toList.all isWhitespace

/-- `str::strip_prefix` -/
def stripPrefix (start s : String) : Option String := (start.toList.isPrefixOf? s.toList).map String.ofList

/-- `str::split` at some characters, without the empty parts. -/
def splitNonempty (separators : List Char) (s : String) : List String :=
  ((s.toList.splitOnP (fun c => separators.contains c)).filter (fun part => !part.isEmpty)).map String.ofList

/-- `str.split()`: the stretches without white space. -/
def words (s : String) : List String :=
  ((s.toList.splitOnP isSpace).filter (fun part => !part.isEmpty)).map String.ofList

/-- `s[:n]` -/
def upTo (n : Nat) (s : String) : String := String.ofList (s.toList.take n)

/-- `str.partition` at a character: what stands before its first occurrence and what after it. -/
def partition (sep : Char) (s : String) : String × String :=
  (String.ofList (s.toList.takeWhile (fun c => c ≠ sep)), String.ofList ((s.toList.dropWhile (fun c => c ≠ sep)).drop 1))

/-- `sep.join(parts)` -/
def join (sep : String) (parts : List String) : String := sep.intercalate parts

theorem stripPrefix_append (start s : String) : stripPrefix start (start ++ s) = some s := by
  rw [stripPrefix, String.toList_append, List.isPrefixOf?_eq_some_iff_append_eq.mpr rfl, Option.map_some, String.ofList_toList]

end Memorai.Text
