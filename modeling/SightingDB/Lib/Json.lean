import Mathlib.Algebra.Order.Ring.Int
import Mathlib.Data.List.Basic
import Mathlib.Data.String.Basic

/-!
JSON values, and what can be looked up in them. An object is its fields, each name once.
-/

inductive Json where
  | null
  | bool (value : Bool)
  | int (value : Int)
  /-- A number that is not a whole one, as it is written. -/
  | fraction (text : String)
  | str (text : String)
  | arr (items : List Json)
  | obj (fields : List (String × Json))

namespace Json

/-- The field of a name. -/
def field (fields : List (String × Json)) (name : String) : Option Json := (fields.find? (·.1 = name)).map (·.2)

/-- A field that is there only with a value. -/
def optional (name : String) (value : Option Json) : List (String × Json) := value.toList.map (Prod.mk name)

def get : Json → String → Option Json
  | .obj fields, name => field fields name
  | _, _ => none

def asStr : Json → Option String
  | .str text => some text
  | _ => none

def asArray : Json → Option (List Json)
  | .arr items => some items
  | _ => none

/-- A number that fits in 64 bits without sign. -/
def asU64 : Json → Option Nat
  | .int n => if 0 ≤ n ∧ n < 2 ^ 64 then some n.toNat else none
  | _ => none

/-- The text of a field. -/
def getStr (json : Json) (name : String) : Option String := (json.get name).bind asStr

section

variable {name other : String} {value : Json} {fields fields' : List (String × Json)}

@[simp] theorem field_nil : field [] name = none := rfl

@[simp] theorem field_self : field ((name, value) :: fields) name = some value := by simp [field]

@[simp] theorem field_of_ne (differs : other ≠ name) : field ((other, value) :: fields) name = field fields name := by
  simp [field, differs]

@[simp] theorem field_append : field (fields ++ fields') name = (field fields name).or (field fields' name) := by
  simp [field, List.find?_append, Option.map_or]

@[simp] theorem field_optional_self {value : Option Json} : field (optional name value) name = value := by
  cases value <;> simp [optional]

@[simp] theorem field_optional_of_ne {value : Option Json} (differs : other ≠ name) :
    field (optional other value) name = none := by
  cases value <;> simp [optional, differs]

@[simp] theorem get_obj : (obj fields).get name = field fields name := rfl

@[simp] theorem asStr_str (text : String) : (str text).asStr = some text := rfl

@[simp] theorem asArray_arr (items : List Json) : (arr items).asArray = some items := rfl

theorem asU64_int {n : Nat} (fits : n < 2 ^ 64) : (int n).asU64 = some n := by
  have small : 0 ≤ (n : Int) ∧ (n : Int) < 2 ^ 64 := ⟨Int.natCast_nonneg n, by exact_mod_cast fits⟩
  rw [asU64, if_pos small, Int.toNat_natCast]

end

end Json
