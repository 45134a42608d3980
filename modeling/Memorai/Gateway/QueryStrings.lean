import Memorai.Gateway.Auth

/-! A query string as a server reads it: cut at every `&`, each part at its first `=`, the escapes undone. -/
namespace Memorai.Gateway
open Shared Text Wire

section Reading

/-- The value of a digit, in either case. -/
def hexValue (b : UInt8) : Option Nat :=
  let n := b.toNat
  if 48 ≤ n ∧ n ≤ 57 then some (n - 48)
  else if 65 ≤ n ∧ n ≤ 70 then some (n - 55)
  else if 97 ≤ n ∧ n ≤ 102 then some (n - 87)
  else none

/-- The byte that two digits spell. -/
def hexByte (high low : UInt8) : Option UInt8 :=
  match hexValue high, hexValue low with
  | some h, some l => some (UInt8.ofNat (16 * h + l))
  | _, _ => none

/-- A `%` without two digits behind it stands for itself. -/
def percentDecode : List UInt8 → List UInt8
  | a :: b :: c :: rest =>
    match if a = 37 then hexByte b c else none with
    | some byte => byte :: percentDecode rest
    | none => a :: percentDecode (b :: c :: rest)
  | a :: rest => a :: percentDecode rest
  | [] => []

def decodeComponent (part : String) : Option String := String.fromUTF8? ⟨(percentDecode (utf8 part)).toArray⟩

def readParam (part : String) : Option (String × String) :=
  match decodeComponent (partition '=' part).1, decodeComponent (partition '=' part).2 with
  | some key, some value => some (key, value)
  | _, _ => none

def readQuery (query : String) : Option (List (String × String)) :=
  (query.toList.splitOn '&').mapM (fun part => readParam (String.ofList part))

/-- Unreserved characters, escapes in upper case and the two separators. -/
inductive QueryText : List Char → Prop
  | nil : QueryText []
  | unreserved {b : UInt8} {text} (hb : isUnreserved b = true) (htext : QueryText text) : QueryText (Char.ofNat b.toNat :: text)
  | escape {high low : Char} {text} (hhigh : high ∈ "0123456789ABCDEF".toList) (hlow : low ∈ "0123456789ABCDEF".toList)
      (htext : QueryText text) : QueryText ('%' :: high :: low :: text)
  | separator {c : Char} {text} (hc : c = '&' ∨ c = '=') (htext : QueryText text) : QueryText (c :: text)

end Reading

section Bytes

/-- What a byte is written as. -/
def escapeByte (b : UInt8) : List Char :=
  if isUnreserved b then [Char.ofNat b.toNat] else '%' :: (hexDigits b).map Char.toUpper

theorem toList_percentEncode (s : String) : (percentEncode s).toList = (utf8 s).flatMap escapeByte := by
  rw [percentEncode, String.toList_ofList]
  rfl

theorem utf8_ofList (text : List Char) : utf8 (String.ofList text) = text.flatMap String.utf8EncodeChar := by
  rw [utf8, String.toByteArray_ofList, List.utf8Encode, List.data_toByteArray]

theorem utf8EncodeChar_ascii {c : Char} (h : c.toNat < 128) : String.utf8EncodeChar c = [UInt8.ofNat c.toNat] := by
  have hval : c.val.toNat ≤ 0x7f := Nat.le_of_lt_succ h
  rw [String.utf8EncodeChar, if_pos hval]
  rfl

/-- A digit as it is written. -/
def upperDigit (n : Nat) : Char := (Nat.digitChar n).toUpper

theorem hexValue_upperDigit {n : Nat} (h : n < 16) :
    upperDigit n ∈ "0123456789ABCDEF".toList ∧ (upperDigit n).toNat < 128 ∧
      hexValue (UInt8.ofNat (upperDigit n).toNat) = some n := by
  have hall : ∀ i : Fin 16, upperDigit i ∈ "0123456789ABCDEF".toList ∧ (upperDigit i).toNat < 128 ∧
      hexValue (UInt8.ofNat (upperDigit i).toNat) = some i.val := by decide
  exact hall ⟨n, h⟩

theorem escapeByte_of_reserved {b : UInt8} (h : ¬ isUnreserved b = true) :
    escapeByte b = ['%', upperDigit (b.toNat / 16), upperDigit (b.toNat % 16)] := by
  rw [escapeByte, if_neg h]
  rfl

theorem isUnreserved_lt {b : UInt8} (h : isUnreserved b = true) : b.toNat < 128 ∧ b ≠ 37 := by
  simp only [isUnreserved, Bool.or_eq_true, Bool.and_eq_true, decide_eq_true_eq] at h
  constructor
  · omega
  · rintro rfl
    exact absurd h (by decide)

theorem toNat_ofNat_ascii {n : Nat} (h : n < 128) : (Char.ofNat n).toNat = n := by
  have hall : ∀ i : Fin 128, (Char.ofNat i).toNat = i.val := by decide
  exact hall ⟨n, h⟩

theorem percentDecode_cons {a : UInt8} (h : a ≠ 37) (rest : List UInt8) : percentDecode (a :: rest) = a :: percentDecode rest := by
  match rest with
  | [] => rfl
  | [_] => rfl
  | _ :: _ :: _ => rw [percentDecode, if_neg h]

theorem percentDecode_escapeByte (b : UInt8) (rest : List UInt8) :
    percentDecode ((escapeByte b).flatMap String.utf8EncodeChar ++ rest) = b :: percentDecode rest := by
  by_cases hb : isUnreserved b = true
  · obtain ⟨hlt, hne⟩ := isUnreserved_lt hb
    have hnat := toNat_ofNat_ascii hlt
    rw [escapeByte, if_pos hb, List.flatMap_singleton, utf8EncodeChar_ascii (by rw [hnat]; exact hlt), hnat, UInt8.ofNat_toNat]
    exact percentDecode_cons hne rest
  · have hlt := b.toNat_lt
    obtain ⟨-, hhigh, hhighValue⟩ := hexValue_upperDigit (n := b.toNat / 16) (by omega)
    obtain ⟨-, hlow, hlowValue⟩ := hexValue_upperDigit (n := b.toNat % 16) (by omega)
    have hbyte : hexByte (UInt8.ofNat (upperDigit (b.toNat / 16)).toNat) (UInt8.ofNat (upperDigit (b.toNat % 16)).toNat) = some b := by
      rw [hexByte, hhighValue, hlowValue]
      show some (UInt8.ofNat (16 * (b.toNat / 16) + b.toNat % 16)) = some b
      rw [Nat.div_add_mod, UInt8.ofNat_toNat]
    rw [escapeByte_of_reserved hb, List.flatMap_cons, List.flatMap_cons, List.flatMap_singleton, utf8EncodeChar_ascii hhigh,
      utf8EncodeChar_ascii hlow]
    show percentDecode (37 :: _ :: _ :: rest) = _
    rw [percentDecode, if_pos rfl, hbyte]

theorem percentDecode_percentEncode (s : String) : percentDecode (utf8 (percentEncode s)) = utf8 s := by
  have hbytes : ∀ bytes : List UInt8, percentDecode ((bytes.flatMap escapeByte).flatMap String.utf8EncodeChar) = bytes := by
    intro bytes
    induction bytes with
    | nil => rfl
    | cons b bytes ih => rw [List.flatMap_cons, List.flatMap_append, percentDecode_escapeByte, ih]
  rw [← String.ofList_toList (s := percentEncode s), utf8_ofList, toList_percentEncode, hbytes]

theorem fromUTF8?_utf8 (s : String) : String.fromUTF8? ⟨(utf8 s).toArray⟩ = some s := by
  have hbytes : (⟨(utf8 s).toArray⟩ : ByteArray) = s.toByteArray := by rw [utf8, Array.toArray_toList]
  rw [hbytes, String.fromUTF8?, dif_pos s.isValidUTF8]
  rfl

theorem decodeComponent_percentEncode (s : String) : decodeComponent (percentEncode s) = some s := by
  rw [decodeComponent, percentDecode_percentEncode, fromUTF8?_utf8]

end Bytes
section Params

theorem QueryText.append {text more : List Char} (h : QueryText text) (hmore : QueryText more) : QueryText (text ++ more) := by
  induction h with
  | nil => exact hmore
  | unreserved hb _ ih => exact .unreserved hb ih
  | escape hhigh hlow _ ih => exact .escape hhigh hlow ih
  | separator hc _ ih => exact .separator hc ih

theorem queryText_percentEncode (s : String) : QueryText (percentEncode s).toList := by
  have hbytes : ∀ bytes : List UInt8, QueryText (bytes.flatMap escapeByte) := by
    intro bytes
    induction bytes with
    | nil => exact .nil
    | cons b bytes ih =>
      by_cases hb : isUnreserved b = true
      · rw [List.flatMap_cons, escapeByte, if_pos hb]
        exact .unreserved hb ih
      · have hlt := b.toNat_lt
        rw [List.flatMap_cons, escapeByte_of_reserved hb]
        exact .escape (hexValue_upperDigit (by omega)).1 (hexValue_upperDigit (by omega)).1 ih
  rw [toList_percentEncode]
  exact hbytes (utf8 s)

/-- No separator is left in what is encoded. -/
theorem not_mem_percentEncode {c : Char} (hc : c = '&' ∨ c = '=') (s : String) : c ∉ (percentEncode s).toList := by
  have hsign : isUnreserved (UInt8.ofNat c.toNat) = false ∧ c ≠ '%' ∧ c ∉ "0123456789ABCDEF".toList := by
    rcases hc with rfl | rfl <;> decide
  obtain ⟨hreserved, hpercent, hdigit⟩ := hsign
  rw [toList_percentEncode]
  intro hmem
  obtain ⟨b, -, hb⟩ := List.mem_flatMap.mp hmem
  have hlt := b.toNat_lt
  by_cases hun : isUnreserved b = true
  · rw [escapeByte, if_pos hun, List.mem_singleton] at hb
    rw [hb, toNat_ofNat_ascii (isUnreserved_lt hun).1, UInt8.ofNat_toNat, hun] at hreserved
    exact absurd hreserved (by decide)
  · rw [escapeByte_of_reserved hun] at hb
    simp only [List.mem_cons, List.not_mem_nil, or_false] at hb
    rcases hb with rfl | rfl | rfl
    · exact hpercent rfl
    · exact hdigit (hexValue_upperDigit (by omega)).1
    · exact hdigit (hexValue_upperDigit (by omega)).1

/-- A parameter as it stands in the query string. -/
def paramText (param : String × String) : String := percentEncode param.1 ++ "=" ++ percentEncode param.2

theorem toList_urlencode (params : List (String × String)) :
    (urlencode params).toList = ['&'].intercalate (params.map (fun param => (paramText param).toList)) := by
  rw [urlencode, join, String.toList_intercalate, List.map_map]
  rfl

theorem queryText_paramText (param : String × String) : QueryText (paramText param).toList := by
  rw [paramText, String.toList_append, String.toList_append, List.append_assoc]
  exact (queryText_percentEncode _).append (.separator (.inr rfl) (queryText_percentEncode _))

theorem queryText_urlencode (params : List (String × String)) : QueryText (urlencode params).toList := by
  rw [toList_urlencode]
  induction params with
  | nil => exact .nil
  | cons param params ih =>
    cases params with
    | nil =>
      rw [List.map_singleton, List.intercalate_singleton]
      exact queryText_paramText param
    | cons second params =>
      rw [List.map_cons, List.map_cons, List.intercalate_cons_cons, List.append_assoc]
      exact (queryText_paramText param).append (.separator (.inl rfl) ih)

theorem partition_paramText (param : String × String) :
    partition '=' (paramText param) = (percentEncode param.1, percentEncode param.2) := by
  have hkey : ∀ c ∈ (percentEncode param.1).toList, decide (c ≠ '=') = true := by
    intro c hmem
    rw [decide_eq_true_eq]
    rintro rfl
    exact not_mem_percentEncode (.inr rfl) param.1 hmem
  have htext : (paramText param).toList = (percentEncode param.1).toList ++ '=' :: (percentEncode param.2).toList := by
    rw [paramText, String.toList_append, String.toList_append, List.append_assoc]
    rfl
  rw [partition, htext, List.takeWhile_append_of_pos hkey, List.dropWhile_append_of_pos hkey,
    List.takeWhile_cons_of_neg (by decide), List.dropWhile_cons_of_neg (by decide), List.append_nil, List.drop_one, List.tail_cons,
    String.ofList_toList, String.ofList_toList]

theorem readParam_paramText (param : String × String) : readParam (paramText param) = some param := by
  rw [readParam, partition_paramText, decodeComponent_percentEncode, decodeComponent_percentEncode]

theorem amp_not_mem_paramText (param : String × String) : '&' ∉ (paramText param).toList := by
  rw [paramText, String.toList_append, String.toList_append, List.mem_append, List.mem_append]
  rintro ((hkey | hsign) | hvalue)
  · exact not_mem_percentEncode (.inl rfl) _ hkey
  · exact absurd hsign (by decide)
  · exact not_mem_percentEncode (.inl rfl) _ hvalue

theorem readQuery_urlencode (params : List (String × String)) (hne : params ≠ []) : readQuery (urlencode params) = some params := by
  have hparts : params.map (fun param => (paramText param).toList) ≠ [] := mt List.map_eq_nil_iff.mp hne
  have hamp : ∀ part ∈ params.map (fun param => (paramText param).toList), '&' ∉ part := by
    intro part hpart
    obtain ⟨param, -, rfl⟩ := List.mem_map.mp hpart
    exact amp_not_mem_paramText param
  have hread : ∀ params : List (String × String),
      (params.map (fun param => (paramText param).toList)).mapM (fun part => readParam (String.ofList part)) = some params := by
    intro params
    induction params with
    | nil => rfl
    | cons param params ih =>
      rw [List.map_cons, List.mapM_cons, String.ofList_toList, readParam_paramText, ih]
      rfl
  rw [readQuery, toList_urlencode, List.splitOn_intercalate '&' hamp hparts, hread]

/-- No value adds a parameter to the query string or changes one: it is read back as it was meant. -/
theorem urlencode_reads_back (params : List (String × String)) (hne : params ≠ []) :
    QueryText (urlencode params).toList ∧ readQuery (urlencode params) = some params :=
  ⟨queryText_urlencode params, readQuery_urlencode params hne⟩

theorem urlencode_reads_back_signs :
    [("état", "a&b=c%"), ("", "")] ≠ ([] : List (String × String)) ∧
      readQuery (urlencode [("état", "a&b=c%"), ("", "")]) = some [("état", "a&b=c%"), ("", "")] :=
  ⟨List.cons_ne_nil _ _, (urlencode_reads_back [("état", "a&b=c%"), ("", "")] (List.cons_ne_nil _ _)).2⟩

example : urlencode [("état", "a&b=c%"), ("", "")] = "%C3%A9tat=a%26b%3Dc%25&=" := by decide

end Params

/-- Behind its `?` the URL of the consent page has the state and the challenge it was given, whatever they are. -/
theorem authorizeUrl_query (jwt : Jwt) (config : Config) (spell : jwt.Token → String) (provider : Provider)
    (issued : IssuedState jwt) :
    ∃ params, authorizeUrl jwt config spell provider issued = provider.authorizeEndpoint ++ "?" ++ urlencode params ∧
      readQuery (urlencode params) = some params ∧ params.lookup "state" = some (spell issued.stateToken) ∧
      params.lookup "code_challenge" = some issued.codeChallenge ∧ params.lookup "redirect_uri" = some (config.redirectUri provider) :=
  ⟨_, rfl, readQuery_urlencode _ (List.cons_ne_nil _ _), rfl, rfl, rfl⟩

end Memorai.Gateway
