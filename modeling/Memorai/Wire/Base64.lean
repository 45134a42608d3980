import Mathlib.Data.List.Basic

/-! Bytes as text: a library for Base64, and the standard alphabet with padding. -/
namespace Memorai.Wire

/-- A library for Base64. The error texts are its own. -/
structure Base64 where
  encode : List UInt8 → String
  decode : String → Except String (List UInt8)

namespace Base64

/-- What was encoded is decoded again. -/
def RoundTrips (base64 : Base64) : Prop := ∀ bytes, base64.decode (base64.encode bytes) = .ok bytes

/-- The character of six bits. -/
def digit (n : Nat) : Char :=
  if n < 26 then Char.ofNat (n + 65)
  else if n < 52 then Char.ofNat (n + 71)
  else if n < 62 then Char.ofNat (n - 4)
  else if n = 62 then '+'
  else '/'

def value? (c : Char) : Option Nat := (List.range 64).find? (fun n => digit n == c)

theorem value?_digit {n : Nat} (h : n < 64) : value? (digit n) = some n := by
  have hfin : ∀ i : Fin 64, value? (digit i) = some i.val := by decide
  exact hfin ⟨n, h⟩

theorem digit_ne_pad {n : Nat} (h : n < 64) : digit n ≠ '=' := by
  have hfin : ∀ i : Fin 64, digit i ≠ '=' := by decide
  exact hfin ⟨n, h⟩

def encodeChars : List UInt8 → List Char
  | [] => []
  | [a] => [digit (a.toNat / 4), digit (a.toNat % 4 * 16), '=', '=']
  | [a, b] => [digit (a.toNat / 4), digit (a.toNat % 4 * 16 + b.toNat / 16), digit (b.toNat % 16 * 4), '=']
  | a :: b :: c :: rest =>
    digit (a.toNat / 4) :: digit (a.toNat % 4 * 16 + b.toNat / 16) :: digit (b.toNat % 16 * 4 + c.toNat / 64) ::
      digit (c.toNat % 64) :: encodeChars rest

/-- The padding has to be there, and what it pads has to be zero. -/
def decodeChars : List Char → Option (List UInt8)
  | [] => some []
  | [w, x, '=', '='] => do
    let w ← value? w
    let x ← value? x
    if x % 16 = 0 then some [.ofNat (w * 4 + x / 16)] else none
  | [w, x, y, '='] => do
    let w ← value? w
    let x ← value? x
    let y ← value? y
    if y % 4 = 0 then some [.ofNat (w * 4 + x / 16), .ofNat (x % 16 * 16 + y / 4)] else none
  | w :: x :: y :: z :: rest => do
    let w ← value? w
    let x ← value? x
    let y ← value? y
    let z ← value? z
    let rest ← decodeChars rest
    some (.ofNat (w * 4 + x / 16) :: .ofNat (x % 16 * 16 + y / 4) :: .ofNat (y % 4 * 64 + z) :: rest)
  | _ => none

theorem ofNat_byte {n : Nat} {b : UInt8} (h : n = b.toNat) : UInt8.ofNat n = b := by
  rw [h, UInt8.ofNat_toNat]

theorem decodeChars_one {w x : Nat} (hw : w < 64) (hx : x < 64) (hzero : x % 16 = 0) :
    decodeChars [digit w, digit x, '=', '='] = some [.ofNat (w * 4 + x / 16)] := by
  simp [decodeChars, value?_digit hw, value?_digit hx, hzero]

theorem decodeChars_two {w x y : Nat} (hw : w < 64) (hx : x < 64) (hy : y < 64) (hzero : y % 4 = 0) :
    decodeChars [digit w, digit x, digit y, '='] = some [.ofNat (w * 4 + x / 16), .ofNat (x % 16 * 16 + y / 4)] := by
  rw [decodeChars]
  · simp [value?_digit hw, value?_digit hx, value?_digit hy, hzero]
  · exact digit_ne_pad hy

theorem decodeChars_three {w x y z : Nat} (hw : w < 64) (hx : x < 64) (hy : y < 64) (hz : z < 64) (rest : List Char) :
    decodeChars (digit w :: digit x :: digit y :: digit z :: rest) = (decodeChars rest).map (fun bytes =>
      .ofNat (w * 4 + x / 16) :: .ofNat (x % 16 * 16 + y / 4) :: .ofNat (y % 4 * 64 + z) :: bytes) := by
  rw [decodeChars]
  · simp only [value?_digit hw, value?_digit hx, value?_digit hy, value?_digit hz, Option.bind_eq_bind, Option.bind_some]
    cases decodeChars rest <;> rfl
  · intro _ hpad
    exact absurd hpad (digit_ne_pad hz)
  · intro hpad
    exact absurd hpad (digit_ne_pad hz)

theorem decodeChars_encodeChars (bytes : List UInt8) : decodeChars (encodeChars bytes) = some bytes := by
  fun_induction encodeChars bytes with
  | case1 => rfl
  | case2 a =>
    have ha := a.toNat_lt
    rw [decodeChars_one (by omega) (by omega) (by omega), ofNat_byte (b := a) (by omega)]
  | case3 a b =>
    have ha := a.toNat_lt
    have hb := b.toNat_lt
    rw [decodeChars_two (by omega) (by omega) (by omega) (by omega), ofNat_byte (b := a) (by omega),
      ofNat_byte (b := b) (by omega)]
  | case4 a b c rest ih =>
    have ha := a.toNat_lt
    have hb := b.toNat_lt
    have hc := c.toNat_lt
    rw [decodeChars_three (by omega) (by omega) (by omega) (by omega), ih, ofNat_byte (b := a) (by omega),
      ofNat_byte (b := b) (by omega), ofNat_byte (b := c) (by omega)]
    rfl

/-- The standard alphabet, with padding. -/
def standard : Base64 where
  encode := fun bytes => String.ofList (encodeChars bytes)
  decode := fun s =>
    match decodeChars s.toList with
    | some bytes => .ok bytes
    | none => .error "Invalid padding"

theorem standard_roundTrips : standard.RoundTrips := by
  intro bytes
  simp only [standard, String.toList_ofList, decodeChars_encodeChars]

end Base64
end Memorai.Wire
