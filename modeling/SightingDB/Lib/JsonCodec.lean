import SightingDB.Lib.Json

/-!
JSON as text, by a writer and a reader that are given. What is asked of them is that written values are read, that
objects are known by their brace, and that what ends by itself is read alike whatever follows. Then what was written
reads back, and an object of which the end is missing is not read at all.
-/
namespace Json

/-- How deep a text may go. -/
def depthLimit : Nat := 128

/-- Whole numbers only, and lists and objects no deeper than a text may go. -/
inductive Within : Nat → Json → Prop
  | null (depth : Nat) : Within depth .null
  | bool (depth : Nat) (value : Bool) : Within depth (.bool value)
  | int (depth : Nat) (n : Int) : Within depth (.int n)
  | str (depth : Nat) (text : String) : Within depth (.str text)
  | arr {depth : Nat} {items : List Json} (inside : ∀ item ∈ items, Within (depth + 1) item) : Within (depth + 2) (.arr items)
  | obj {depth : Nat} {fields : List (String × Json)} (inside : ∀ f ∈ fields, Within (depth + 1) f.2) : Within (depth + 2) (.obj fields)

/-- Strings, words, lists and objects end where they end; a number may go on. -/
def Closed : Json → Prop
  | .int _ => False
  | .fraction _ => False
  | _ => True

end Json

/-- A writer and a reader of JSON. -/
structure JsonCodec where
  write : Json → List Char
  /-- One value off the front of a text, and what is left. -/
  value : List Char → Option (Json × List Char)
  /-- A key that is a whole number. -/
  key : String → Option Int
  value_write : ∀ j, Json.Within Json.depthLimit j → value (write j) = some (j, [])
  value_nil : value [] = none
  value_more : ∀ text j rest more, value text = some (j, rest) → Json.Closed j → value (text ++ more) = some (j, rest ++ more)
  write_obj : ∀ fields, (write (.obj fields)).head? = some '\x7b'
  value_obj : ∀ text j rest, value ('\x7b' :: text) = some (j, rest) → Json.Closed j
  key_toString : ∀ n : Int, -2 ^ 63 ≤ n → n < 2 ^ 63 → key (toString n) = some n

namespace JsonCodec

variable (codec : JsonCodec)

def isBlank (c : Char) : Bool := c = ' ' || c = '\n' || c = '\t' || c = '\r'

/-- A text that is one value. -/
def parse (text : List Char) : Option Json := (codec.value text).bind fun r => if r.2.all isBlank then some r.1 else none

/-- What was written is read back. -/
theorem parse_write {j : Json} (within : Json.Within Json.depthLimit j) : codec.parse (codec.write j) = some j := by
  rw [parse, codec.value_write j within]
  rfl

/-- A written object without its end is not read as anything. -/
theorem parse_cut {fields : List (String × Json)} (within : Json.Within Json.depthLimit (.obj fields)) {front back : List Char}
    (split : codec.write (.obj fields) = front ++ back) (cut : back ≠ []) : codec.parse front = none := by
  have written := codec.value_write _ within
  have head := codec.write_obj fields
  rw [split] at written head
  cases front with
  | nil => rw [parse, codec.value_nil, Option.bind_none]
  | cons c text =>
      obtain rfl : c = '\x7b' := Option.some.inj head
      cases read : codec.value ('\x7b' :: text) with
      | none => rw [parse, read, Option.bind_none]
      | some r =>
          -- The shorter text would be read to its end, and so would the longer one, with something left.
          have whole := codec.value_more _ r.1 r.2 back read (codec.value_obj text r.1 r.2 read)
          have nothing : r.2 ++ back = [] := (Prod.mk.inj (Option.some.inj (whole.symm.trans written))).2
          exact absurd (List.append_eq_nil_iff.mp nothing).2 cut

end JsonCodec
