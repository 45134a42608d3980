import Memorai.Shared.OAuth
import Memorai.Text.Bytes
import Memorai.Wire.Codes

/-! An owner's identity as `serde_json` writes it. -/
namespace Memorai.Shared
open Text Wire

section Strings

/-- One character of a quoted string. -/
def escape (c : Char) : List Char :=
  if c = '"' then ['\\', '"']
  else if c = '\\' then ['\\', '\\']
  else if c = '\n' then ['\\', 'n']
  else if c = '\r' then ['\\', 'r']
  else if c = '\t' then ['\\', 't']
  else if c.toNat = 8 then ['\\', 'b']
  else if c.toNat = 12 then ['\\', 'f']
  else if c.toNat < 32 then ['\\', 'u', '0', '0', Nat.digitChar (c.toNat / 16), Nat.digitChar (c.toNat % 16)]
  else [c]

def quote (s : String) : List Char := '"' :: terminated '"' escape s.toList

def digitValue (c : Char) : Nat := if c.toNat < 58 then c.toNat - 48 else c.toNat - 87

/-- The character that was escaped, and the rest. -/
def unescape : List Char → Option (Char × List Char)
  | '\\' :: 'n' :: rest => some ('\n', rest)
  | '\\' :: 'r' :: rest => some ('\r', rest)
  | '\\' :: 't' :: rest => some ('\t', rest)
  | '\\' :: 'b' :: rest => some (Char.ofNat 8, rest)
  | '\\' :: 'f' :: rest => some (Char.ofNat 12, rest)
  | '\\' :: 'u' :: _ :: _ :: high :: low :: rest => some (Char.ofNat (16 * digitValue high + digitValue low), rest)
  | '\\' :: c :: rest => some (c, rest)
  | c :: rest => some (c, rest)
  | [] => none

theorem digitValue_digitChar {n : Nat} (h : n < 16) : digitValue (Nat.digitChar n) = n := by
  have hfin : ∀ i : Fin 16, digitValue (Nat.digitChar i) = i := by decide
  exact hfin ⟨n, h⟩

theorem unescape_escape (c : Char) (rest : List Char) : unescape (escape c ++ rest) = some (c, rest) := by
  unfold escape
  split_ifs with hquote hback hn hr ht hb hf hcontrol
  · rw [hquote]; rfl
  · rw [hback]; rfl
  · rw [hn]; rfl
  · rw [hr]; rfl
  · rw [ht]; rfl
  · rw [← Char.ofNat_toNat c, hb]; rfl
  · rw [← Char.ofNat_toNat c, hf]; rfl
  · have hhigh := digitValue_digitChar (n := c.toNat / 16) (by omega)
    have hlow := digitValue_digitChar (n := c.toNat % 16) (by omega)
    change some (Char.ofNat (16 * digitValue (Nat.digitChar (c.toNat / 16)) + digitValue (Nat.digitChar (c.toNat % 16))), rest) = _
    rw [hhigh, hlow, Nat.div_add_mod, Char.ofNat_toNat]
  · simp [unescape, hback]

theorem escape_ne_quote (c : Char) (rest rest' : List Char) : escape c ++ rest ≠ '"' :: rest' := by
  intro h
  have hread := congrArg unescape h
  rw [unescape_escape] at hread
  obtain rfl : c = '"' := (Prod.mk.inj (Option.some.inj hread)).1
  exact absurd (List.cons.inj h).1 (by decide)

theorem selfDelimiting_quote : SelfDelimiting quote :=
  (((SelfDelimiting.of_read unescape_escape).terminated escape_ne_quote).comp (fun _ _ h => String.toList_injective h)).behind ['"']

end Strings

section Identities

/-- Quoted strings, each behind what is written in front of it, and a closing brace. -/
def object : List (String × String) → List Char
  | [] => ['\x7d']
  | (key, value) :: fields => key.toList ++ (quote value ++ object fields)

/-- What is written of a signal, behind the provider it is tagged with. -/
def OAuthSignal.fields : OAuthSignal → List (String × String)
  | .google subject email => [("\"provider\":\"google\",\"subject\":", subject), (",\"email\":", email)]
  | .gitHub subject login => [("\"provider\":\"github\",\"subject\":", subject), (",\"login\":", login)]
  | .wallet address => [("\"provider\":\"wallet\",\"address\":", address)]
  | .domain name => [("\"provider\":\"domain\",\"domain\":", name)]

def OAuthSignal.json (signal : OAuthSignal) : List Char := '\x7b' :: object signal.fields

def TrustTier.name : TrustTier → String
  | .none => "None"
  | .google => "Google"
  | .googleGithub => "GoogleGithub"
  | .googleGithubWallet => "GoogleGithubWallet"
  | .googleGithubWalletDomain => "GoogleGithubWalletDomain"

def OwnerIdentity.json (identity : OwnerIdentity) : List Char :=
  '\x7b' :: ("\"owner_id\":".toList ++ (quote identity.ownerId ++ (",\"signals\":[".toList ++
    (separated ',' ']' OAuthSignal.json identity.signals ++ (",\"trust_tier\":".toList ++ (quote identity.trustTier.name ++ ['\x7d']))))))

/-- `serde_json::to_vec` -/
def OwnerIdentity.serialize (identity : OwnerIdentity) : List UInt8 := utf8 (String.ofList identity.json)

theorem TrustTier.name_injective : Function.Injective TrustTier.name := by
  intro t t' h
  cases t <;> cases t' <;> first | rfl | exact absurd h (by decide)

/-- Under the same keys, the values can be told, and where the object ends. -/
theorem object_append_inj {fields fields' : List (String × String)} {rest rest' : List Char}
    (hkeys : fields.map Prod.fst = fields'.map Prod.fst) (h : object fields ++ rest = object fields' ++ rest') :
    fields = fields' ∧ rest = rest' := by
  induction fields generalizing fields' with
  | nil =>
    obtain rfl := List.map_eq_nil_iff.mp hkeys.symm
    exact ⟨rfl, List.append_cancel_left h⟩
  | cons field fields ih =>
    cases fields' with
    | nil => exact absurd hkeys (List.cons_ne_nil _ _)
    | cons field' fields' =>
      obtain ⟨hkey, hkeys⟩ := List.cons.inj hkeys
      rw [object, object, hkey] at h
      simp only [List.append_assoc, List.append_cancel_left_eq] at h
      obtain ⟨hvalue, hfields⟩ := selfDelimiting_quote h
      obtain ⟨rfl, hrest⟩ := ih hkeys hfields
      rw [Prod.ext hkey hvalue]
      exact ⟨rfl, hrest⟩

theorem OAuthSignal.fields_injective : Function.Injective OAuthSignal.fields := by
  intro signal signal' h
  cases signal <;> cases signal' <;> simp_all [OAuthSignal.fields]

theorem OAuthSignal.selfDelimiting_json : SelfDelimiting OAuthSignal.json := by
  intro signal signal' rest rest' h
  have hkeys : signal.fields.map Prod.fst = signal'.fields.map Prod.fst := by
    cases signal <;> cases signal' <;> first | rfl | exact absurd h (by simp [OAuthSignal.json, OAuthSignal.fields, object])
  obtain ⟨hfields, hrest⟩ := object_append_inj hkeys (List.cons.inj h).2
  exact ⟨OAuthSignal.fields_injective hfields, hrest⟩

theorem OwnerIdentity.selfDelimiting_json : SelfDelimiting OwnerIdentity.json := by
  have hsignals : SelfDelimiting (separated ',' ']' OAuthSignal.json) :=
    OAuthSignal.selfDelimiting_json.separated (by decide) (fun _ _ _ h => absurd (List.cons.inj h).1 (by decide))
  intro identity identity' rest rest' h
  simp only [OwnerIdentity.json, List.cons_append, List.cons.injEq, true_and, List.append_assoc,
    List.append_cancel_left_eq] at h
  obtain ⟨howner, htail⟩ := selfDelimiting_quote h
  simp only [List.append_cancel_left_eq] at htail
  obtain ⟨hsignals, htail⟩ := hsignals htail
  simp only [List.append_cancel_left_eq] at htail
  obtain ⟨htier, hrest⟩ := selfDelimiting_quote htail
  obtain ⟨ownerId, signals, trustTier⟩ := identity
  obtain ⟨ownerId', signals', trustTier'⟩ := identity'
  obtain rfl : ownerId = ownerId' := howner
  obtain rfl : signals = signals' := hsignals
  obtain rfl : trustTier = trustTier' := TrustTier.name_injective htier
  exact ⟨rfl, (List.cons.inj hrest).2⟩

theorem OwnerIdentity.serialize_injective : Function.Injective OwnerIdentity.serialize := by
  intro identity identity' h
  exact OwnerIdentity.selfDelimiting_json.injective (String.ofList_injective (utf8_injective h))

theorem OwnerIdentity.exists_serialize_eq (identity : OwnerIdentity) : ∃ rest, identity.serialize = utf8 "\x7b" ++ rest := by
  refine ⟨utf8 (String.ofList identity.json.tail), ?_⟩
  rw [OwnerIdentity.serialize, ← utf8_append]
  apply congrArg utf8
  rw [← String.toList_inj, String.toList_append, String.toList_ofList, String.toList_ofList]
  simp [OwnerIdentity.json]

end Identities
end Memorai.Shared
