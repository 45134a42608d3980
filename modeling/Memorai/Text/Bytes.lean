import Mathlib.Data.List.Basic

/-! Bytes of strings, and bytes spelled out in them. -/
namespace Memorai.Text

/-- `str.as_bytes` -/
def utf8 (s : String) : List UInt8 := s.toByteArray.data.toList

theorem utf8_injective : Function.Injective utf8 := by
  intro s t h
  exact String.toByteArray_inj.mp (ByteArray.ext (Array.toList_inj.mp h))

theorem utf8_append (s t : String) : utf8 (s ++ t) = utf8 s ++ utf8 t := by
  rw [utf8, String.toByteArray_append, ByteArray.data_append, Array.toList_append]
  rfl

/-- What the bytes begin with, the characters begin with. -/
theorem isPrefix_of_utf8_append {start s : String} {rest : List UInt8} (h : utf8 start ++ rest = utf8 s) :
    start.toList <+: s.toList := by
  apply List.isPrefix_of_utf8Encode_append_eq_utf8Encode ⟨rest.toArray⟩
  rw [String.utf8Encode_toList, String.utf8Encode_toList]
  apply ByteArray.ext
  rw [ByteArray.data_append, ← Array.toList_inj, Array.toList_append, List.toList_toArray]
  exact h

/-- The two digits of a byte. -/
def hexDigits (b : UInt8) : List Char := [Nat.digitChar (b.toNat / 16), Nat.digitChar (b.toNat % 16)]

/-- `hex::encode` -/
def hexEncode (bytes : List UInt8) : String := String.ofList (bytes.flatMap hexDigits)

theorem digitChar_inj {m n : Nat} (hm : m < 16) (hn : n < 16) (h : Nat.digitChar m = Nat.digitChar n) : m = n := by
  have hfin : ∀ i j : Fin 16, Nat.digitChar i = Nat.digitChar j → i = j := by decide
  exact Fin.mk.inj (hfin ⟨m, hm⟩ ⟨n, hn⟩ h)

theorem hexDigits_inj {a b : UInt8} (h : hexDigits a = hexDigits b) : a = b := by
  have ha := a.toNat_lt
  have hb := b.toNat_lt
  obtain ⟨hhigh, hlow⟩ := List.cons.inj h
  have hdiv : a.toNat / 16 = b.toNat / 16 := digitChar_inj (by omega) (by omega) hhigh
  have hmod : a.toNat % 16 = b.toNat % 16 := digitChar_inj (by omega) (by omega) (List.cons.inj hlow).1
  exact UInt8.toNat_inj.mp (by omega)

theorem flatMap_hexDigits_inj {as bs : List UInt8} (h : as.flatMap hexDigits = bs.flatMap hexDigits) : as = bs := by
  induction as generalizing bs with
  | nil =>
    cases bs with
    | nil => rfl
    | cons b bs => exact absurd h (by simp [hexDigits])
  | cons a as ih =>
    cases bs with
    | nil => exact absurd h (by simp [hexDigits])
    | cons b bs =>
      rw [List.flatMap_cons, List.flatMap_cons] at h
      obtain ⟨hdigits, hrest⟩ := List.append_inj h rfl
      rw [hexDigits_inj hdigits, ih hrest]

theorem hexEncode_injective : Function.Injective hexEncode := by
  intro as bs h
  exact flatMap_hexDigits_inj (String.ofList_injective h)

def hexAlphabet : List Char := ['0', '1', '2', '3', '4', '5', '6', '7', '8', '9', 'a', 'b', 'c', 'd', 'e', 'f']

theorem mem_hexAlphabet {bytes : List UInt8} {c : Char} (h : c ∈ (hexEncode bytes).toList) : c ∈ hexAlphabet := by
  have hdigit : ∀ i : Fin 16, Nat.digitChar i ∈ hexAlphabet := by decide
  rw [hexEncode, String.toList_ofList] at h
  obtain ⟨b, _, hc⟩ := List.mem_flatMap.mp h
  have hb := b.toNat_lt
  rcases List.mem_cons.mp hc with rfl | hc
  · exact hdigit ⟨b.toNat / 16, by omega⟩
  · rw [List.mem_singleton.mp hc]
    exact hdigit ⟨b.toNat % 16, by omega⟩

end Memorai.Text
