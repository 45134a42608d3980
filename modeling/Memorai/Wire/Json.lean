import Mathlib.Data.List.Nodup

/-! JSON values, and how typed records are read from them and written to them. -/
namespace Memorai.Wire

inductive Json where
  | null
  | bool (b : Bool)
  | int (n : Int)
  /-- A number with a fraction or an exponent, as spelled. -/
  | decimal (literal : String)
  | str (s : String)
  | arr (items : List Json)
  | obj (fields : List (String × Json))

/-- A record as it is read, by field name. -/
abbrev Fields := List (String × Json)

namespace Json

/-- A record is an object with no declared field twice, or an array of the declared fields in order. -/
def record (declared : List String) : Json → Option Fields
  | obj fields => if ((fields.map Prod.fst).filter (· ∈ declared)).Nodup then some fields else none
  | arr items => if items.length = declared.length then some (declared.zip items) else none
  | _ => none

def string? : Json → Option String
  | str s => some s
  | _ => none

def u64? : Json → Option UInt64
  | int n => if 0 ≤ n ∧ n.toNat < UInt64.size then some (.ofNat n.toNat) else none
  | _ => none

/-- The name of a variant without content, spelled out or as `{"name": null}`. -/
def variant? : Json → Option String
  | str s => some s
  | obj [(s, null)] => some s
  | _ => none

section Reading
variable {α : Type} (value : Json → Option α)

def list? : Json → Option (List α)
  | arr items => items.mapM value
  | _ => none

def option? : Json → Option (Option α)
  | null => some none
  | j => (value j).map some

def u64 (n : UInt64) : Json := int n.toNat

def option (value : α → Json) : Option α → Json
  | none => null
  | some a => value a

end Reading
end Json

namespace Fields
variable {α : Type} (fields : Fields) (key : String) (value : Json → Option α)

def required : Option α := (fields.lookup key).bind value

/-- A field that may be null or missing. -/
def optional : Option (Option α) :=
  match fields.lookup key with
  | none => some none
  | some j => Json.option? value j

/-- A field with a default. -/
def withDefault (otherwise : α) : Option α :=
  match fields.lookup key with
  | none => some otherwise
  | some j => value j

end Fields

section Laws
open Json

/-- An object of just the declared fields is read as it is. -/
theorem record_obj {fields : Fields} {declared : List String} (hnames : fields.map Prod.fst = declared)
    (hnd : declared.Nodup) : (obj fields).record declared = some fields := by
  rw [record, hnames, if_pos (hnd.filter _)]

@[simp] theorem u64?_u64 (n : UInt64) : (u64 n).u64? = some n := by
  rw [u64, u64?, Int.toNat_natCast, if_pos ⟨by omega, n.toNat_lt_size⟩, UInt64.ofNat_toNat]

@[simp] theorem option?_u64 (n : Option UInt64) : option? u64? (option u64 n) = some n := by
  cases n with
  | none => rfl
  | some n => exact congrArg (Option.map some) (u64?_u64 n)

/-- A list that was written item by item is read back if its items are. -/
theorem list?_pmap {α β : Type} {p : α → Prop} {value : Json → Option β} {write : α → Json} {f : ∀ a, p a → β}
    (h : ∀ a ha, value (write a) = some (f a ha)) {items : List α} (hitems : ∀ a ∈ items, p a) :
    list? value (arr (items.map write)) = some (items.pmap f hitems) := by
  rw [list?, List.mapM_map]
  induction items with
  | nil => rfl
  | cons a items ih =>
    have ha := hitems a List.mem_cons_self
    rw [List.mapM_cons, Function.comp_apply, h a ha, ih (fun b hb => hitems b (List.mem_cons_of_mem _ hb))]
    rfl

theorem list?_map {α β : Type} {value : Json → Option β} {write : α → Json} {f : α → β}
    (h : ∀ a, value (write a) = some (f a)) (items : List α) :
    list? value (arr (items.map write)) = some (items.map f) := by
  rw [list?_pmap (fun a (_ : True) => h a) (fun _ _ => trivial), List.pmap_eq_map]

/-- One item that cannot be read spoils the list. -/
theorem list?_map_eq_none {α β : Type} {value : Json → Option β} {write : α → Json} {items : List α} {a : α}
    (ha : a ∈ items) (hnone : value (write a) = none) : list? value (arr (items.map write)) = none := by
  rw [list?, List.mapM_map]
  induction items with
  | nil => exact absurd ha List.not_mem_nil
  | cons b items ih =>
    rw [List.mapM_cons, Function.comp_apply]
    rcases List.mem_cons.mp ha with rfl | ha
    · rw [hnone]
      rfl
    · cases value (write b) with
      | none => rfl
      | some _ =>
        rw [ih ha]
        rfl

end Laws
end Memorai.Wire
