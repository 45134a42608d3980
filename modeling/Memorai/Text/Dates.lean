import Mathlib.Data.List.Basic
import Mathlib.Tactic.IntervalCases

/-! Calendar dates, as they are written and as `datetime.strptime` reads them. -/
namespace Memorai.Text

section Calendar

def isLeap (year : Nat) : Bool := year % 4 = 0 && (year % 100 ≠ 0 || year % 400 = 0)

def daysIn (year month : Nat) : Nat :=
  if month = 2 then (if isLeap year then 29 else 28)
  else if month = 4 ∨ month = 6 ∨ month = 9 ∨ month = 11 then 30
  else 31

/-- A day the calendar has. -/
structure IsDay (year month day : Nat) : Prop where
  year_pos : 1 ≤ year
  year_le : year ≤ 9999
  month_pos : 1 ≤ month
  month_le : month ≤ 12
  day_pos : 1 ≤ day
  day_le : day ≤ daysIn year month

/-- `date.toordinal` -/
def ordinal (year month day : Nat) : Nat :=
  let before := year - 1
  before * 365 + before / 4 - before / 100 + before / 400 + ((List.range (month - 1)).map (fun m => daysIn year (m + 1))).sum + day

/-- The time a day begins, in UTC. -/
def dayMs (year month day : Nat) : Int := ((ordinal year month day : Int) - ordinal 1970 1 1) * 86400000

end Calendar

section Reading

/-- The zeros of the decimal digits, as Unicode 14 has them. -/
def digitZeros : List Nat := [
  0x30, 0x660, 0x6f0, 0x7c0, 0x966, 0x9e6, 0xa66, 0xae6, 0xb66, 0xbe6, 0xc66, 0xce6, 0xd66, 0xde6, 0xe50, 0xed0, 0xf20, 0x1040,
  0x1090, 0x17e0, 0x1810, 0x1946, 0x19d0, 0x1a80, 0x1a90, 0x1b50, 0x1bb0, 0x1c40, 0x1c50, 0xa620, 0xa8d0, 0xa900, 0xa9d0, 0xa9f0,
  0xaa50, 0xabf0, 0xff10, 0x104a0, 0x10d30, 0x11066, 0x110f0, 0x11136, 0x111d0, 0x112f0, 0x11450, 0x114d0, 0x11650, 0x116c0,
  0x11730, 0x118e0, 0x11950, 0x11c50, 0x11d50, 0x11da0, 0x16a60, 0x16ac0, 0x16b50, 0x1d7ce, 0x1d7d8, 0x1d7e2, 0x1d7ec, 0x1d7f6,
  0x1e140, 0x1e2f0, 0x1e950, 0x1fbf0]

/-- What `\d` matches, and the number it is. -/
def digit? (c : Char) : Option Nat :=
  (digitZeros.find? (fun first => first ≤ c.toNat && c.toNat < first + 10)).map (fun first => c.toNat - first)

/-- `\d\d\d\d` -/
def readYear : List Char → Option Nat
  | [a, b, c, d] => do return ((← digit? a) * 10 + (← digit? b)) * 100 + ((← digit? c) * 10 + (← digit? d))
  | _ => none

def between (low c high : Char) : Option Nat := if low ≤ c ∧ c ≤ high then some (c.toNat - 48) else none

/-- `1[0-2]|0[1-9]|[1-9]` -/
def readMonth : List Char → Option Nat
  | ['1', c] => (between '0' c '2').map (10 + ·)
  | ['0', c] => between '1' c '9'
  | [c] => between '1' c '9'
  | _ => none

/-- `3[0-1]|[1-2]\d|0[1-9]|[1-9]| [1-9]` -/
def readDay : List Char → Option Nat
  | ['3', c] => (between '0' c '1').map (30 + ·)
  | ['2', c] => (digit? c).map (20 + ·)
  | ['1', c] => (digit? c).map (10 + ·)
  | ['0', c] => between '1' c '9'
  | [' ', c] => between '1' c '9'
  | [c] => between '1' c '9'
  | _ => none

/-- `datetime.strptime(date, "%Y-%m-%d")`, as the time the day begins. It raises where this is none. -/
def strptimeDay (date : String) : Option Int :=
  match date.toList.splitOn '-' with
  | [y, m, d] =>
    match readYear y, readMonth m, readDay d with
    | some year, some month, some day => if 1 ≤ year ∧ day ≤ daysIn year month then some (dayMs year month day) else none
    | _, _, _ => none
  | _ => none

end Reading

section Writing

def twoDigits (n : Nat) : List Char := [Nat.digitChar (n / 10 % 10), Nat.digitChar (n % 10)]

/-- A day as `YYYY-MM-DD`. -/
def dayText (year month day : Nat) : String :=
  String.ofList ((twoDigits (year / 100) ++ twoDigits year) ++ '-' :: (twoDigits month ++ '-' :: twoDigits day))

/-- The text is a day of the calendar. -/
def RealDay (date : String) : Prop := ∃ year month day, IsDay year month day ∧ date = dayText year month day

theorem digit?_digitChar {n : Nat} (h : n < 10) : digit? (Nat.digitChar n) = some n := by
  interval_cases n <;> decide

theorem digitChar_ne_hyphen {n : Nat} (h : n < 10) : Nat.digitChar n ≠ '-' := by
  interval_cases n <;> decide

theorem hyphen_not_mem_twoDigits (n : Nat) : '-' ∉ twoDigits n := by
  have hhigh := digitChar_ne_hyphen (Nat.mod_lt (n / 10) (by decide : 0 < 10))
  have hlow := digitChar_ne_hyphen (Nat.mod_lt n (by decide : 0 < 10))
  simp [twoDigits, hhigh.symm, hlow.symm]

theorem readYear_twoDigits {year : Nat} (h : year ≤ 9999) : readYear (twoDigits (year / 100) ++ twoDigits year) = some year := by
  have hdigit : ∀ n, digit? (Nat.digitChar (n % 10)) = some (n % 10) := fun n => digit?_digitChar (Nat.mod_lt n (by decide))
  simp only [twoDigits, List.cons_append, List.nil_append, readYear, hdigit]
  refine congrArg some ?_
  omega

theorem readMonth_twoDigits {month : Nat} (hpos : 1 ≤ month) (hle : month ≤ 12) : readMonth (twoDigits month) = some month := by
  interval_cases month <;> decide

theorem readDay_twoDigits {day : Nat} (hpos : 1 ≤ day) (hle : day ≤ 31) : readDay (twoDigits day) = some day := by
  interval_cases day <;> decide

theorem daysIn_le (year month : Nat) : daysIn year month ≤ 31 := by
  unfold daysIn
  split_ifs <;> omega

/-- A day that is written so is read as the day it is. -/
theorem strptimeDay_dayText {year month day : Nat} (h : IsDay year month day) :
    strptimeDay (dayText year month day) = some (dayMs year month day) := by
  have hsplit : (dayText year month day).toList.splitOn '-' =
      [twoDigits (year / 100) ++ twoDigits year, twoDigits month, twoDigits day] := by
    have hyear : '-' ∉ twoDigits (year / 100) ++ twoDigits year := by
      rw [List.mem_append, not_or]
      exact ⟨hyphen_not_mem_twoDigits _, hyphen_not_mem_twoDigits _⟩
    rw [dayText, String.toList_ofList, List.splitOn_append_cons_self_of_not_mem hyear,
      List.splitOn_append_cons_self_of_not_mem (hyphen_not_mem_twoDigits month),
      List.splitOn_eq_singleton (hyphen_not_mem_twoDigits day)]
  rw [strptimeDay, hsplit]
  dsimp only
  rw [readYear_twoDigits h.year_le, readMonth_twoDigits h.month_pos h.month_le,
    readDay_twoDigits h.day_pos (h.day_le.trans (daysIn_le year month))]
  exact if_pos ⟨h.year_pos, h.day_le⟩

example : strptimeDay "2025-02-14" = some 1739491200000 := by decide

/-- A month and a day need not have two digits to be read. -/
example : strptimeDay "2025-2-3" = strptimeDay "2025-02-03" := by decide

end Writing
end Memorai.Text
