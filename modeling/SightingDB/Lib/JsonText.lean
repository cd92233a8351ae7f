import SightingDB.Lib.JsonCodec
import SightingDB.Lib.Numerals
import Mathlib.Data.List.TakeWhile

/-!
A writer of JSON without blanks, and a reader of it by recursive descent: one that does what is asked of such a pair.
-/
namespace JsonText

open Json (Within Closed depthLimit)

/-! ## Writing -/

/-- A character inside a string. -/
def escape (c : Char) : List Char :=
  if c = '"' then ['\\', '"']
  else if c = '\\' then ['\\', '\\']
  else if c.toNat = 8 then ['\\', 'b']
  else if c.toNat = 9 then ['\\', 't']
  else if c.toNat = 10 then ['\\', 'n']
  else if c.toNat = 12 then ['\\', 'f']
  else if c.toNat = 13 then ['\\', 'r']
  else if c.toNat < 32 then ['\\', 'u', '0', '0', (c.toNat / 16).digitChar, (c.toNat % 16).digitChar]
  else [c]

def quoted (text : String) : List Char := '"' :: (text.toList.flatMap escape ++ ['"'])

def writeInt : Int → List Char
  | .ofNat n => Nat.toDigits 10 n
  | .negSucc n => '-' :: Nat.toDigits 10 (n + 1)

mutual

def write : Json → List Char
  | .null => ['n', 'u', 'l', 'l']
  | .bool true => ['t', 'r', 'u', 'e']
  | .bool false => ['f', 'a', 'l', 's', 'e']
  | .int n => writeInt n
  | .fraction text => text.toList
  | .str text => quoted text
  | .arr [] => ['[', ']']
  | .arr (first :: rest) => '[' :: (write first ++ writeItems rest)
  | .obj [] => ['{', '}']
  | .obj ((name, first) :: rest) => '{' :: (quoted name ++ ':' :: (write first ++ writeFields rest))
termination_by structural j => j

def writeItems : List Json → List Char
  | [] => [']']
  | item :: rest => ',' :: (write item ++ writeItems rest)
termination_by structural l => l

def writeFields : List (String × Json) → List Char
  | [] => ['}']
  | (name, value) :: rest => ',' :: (quoted name ++ ':' :: (write value ++ writeFields rest))
termination_by structural l => l

end

/-! ## Reading -/

def isBlank (c : Char) : Bool := c = ' ' || c = '\n' || c = '\t' || c = '\r'

def skip (text : List Char) : List Char := text.dropWhile isBlank

def hexValue (c : Char) : Option Nat :=
  if c.isDigit then some (c.toNat - '0'.toNat)
  else if 'a' ≤ c ∧ c ≤ 'f' then some (c.toNat - 'a'.toNat + 10)
  else if 'A' ≤ c ∧ c ≤ 'F' then some (c.toNat - 'A'.toNat + 10)
  else none

/-- Four hexadecimal digits. -/
def readHex : List Char → Option (Nat × List Char)
  | a :: b :: c :: d :: rest => do
      let a ← hexValue a
      let b ← hexValue b
      let c ← hexValue c
      let d ← hexValue d
      some (((a * 16 + b) * 16 + c) * 16 + d, rest)
  | _ => none

/-- The second half of a character beyond the first plane. -/
def readLow : List Char → Option (Nat × List Char)
  | a :: b :: rest => if a = '\\' ∧ b = 'u' then readHex rest else none
  | _ => none

/-- A character by its number. No half stands alone. -/
def readUnicode (text : List Char) : Option (Char × List Char) :=
  (readHex text).bind fun high =>
    if 0xd800 ≤ high.1 ∧ high.1 < 0xdc00 then
      (readLow high.2).bind fun low =>
        if 0xdc00 ≤ low.1 ∧ low.1 < 0xe000 then
          some (Char.ofNat (0x10000 + (high.1 - 0xd800) * 0x400 + (low.1 - 0xdc00)), low.2)
        else none
    else if 0xdc00 ≤ high.1 ∧ high.1 < 0xe000 then none
    else some (Char.ofNat high.1, high.2)

/-- What follows a backslash. -/
def readEscape : List Char → Option (Char × List Char)
  | [] => none
  | c :: rest =>
      if c = 'u' then readUnicode rest
      else if c = '"' ∨ c = '\\' ∨ c = '/' then some (c, rest)
      else if c = 'b' then some (Char.ofNat 8, rest)
      else if c = 'f' then some (Char.ofNat 12, rest)
      else if c = 'n' then some (Char.ofNat 10, rest)
      else if c = 'r' then some (Char.ofNat 13, rest)
      else if c = 't' then some (Char.ofNat 9, rest)
      else none

/-- A string up to its closing quote. -/
def readText : Nat → List Char → Option (List Char × List Char)
  | 0, _ => none
  | _ + 1, [] => none
  | fuel + 1, c :: rest =>
      if c = '"' then some ([], rest)
      else if c = '\\' then (readEscape rest).bind fun e => (readText fuel e.2).map fun r => (e.1 :: r.1, r.2)
      else if c.toNat < 32 then none
      else (readText fuel rest).map fun r => (c :: r.1, r.2)

/-- At least one digit. -/
def readDigits (text : List Char) : Option (List Char × List Char) :=
  let digits := text.takeWhile Char.isDigit
  if digits = [] then none else some (digits, text.dropWhile Char.isDigit)

/-- What makes a number more than a whole one. -/
def readFraction : List Char → Option (List Char × List Char)
  | [] => some ([], [])
  | c :: rest => if c = '.' then (readDigits rest).map fun r => (c :: r.1, r.2) else some ([], c :: rest)

/-- Digits with or without a sign. -/
def readSigned : List Char → Option (List Char × List Char)
  | [] => none
  | s :: rest =>
      if s = '+' ∨ s = '-' then (readDigits rest).map fun r => (s :: r.1, r.2) else readDigits (s :: rest)

def readExponent : List Char → Option (List Char × List Char)
  | [] => some ([], [])
  | c :: rest => if c = 'e' ∨ c = 'E' then (readSigned rest).map fun r => (c :: r.1, r.2) else some ([], c :: rest)

/-- The number that some digits are, which do not begin with a zero unless they are one. -/
def readNatural (text : List Char) : Option (List Char × List Char) :=
  (readDigits text).bind fun r => if 1 < r.1.length ∧ r.1.head? = some '0' then none else some r

/-- The number of some digits and what follows them. Nothing below zero is a float, since no whole number says so. -/
def numeral (negative : Bool) (digits tail : List Char) : Json :=
  if tail ≠ [] ∨ negative ∧ digits = ['0'] then .fraction (String.ofList ((if negative then ['-'] else []) ++ digits ++ tail))
  else .int (if negative then -(Nat.ofDigitChars 10 digits 0 : Int) else Nat.ofDigitChars 10 digits 0)

def readMagnitude (negative : Bool) (text : List Char) : Option (Json × List Char) :=
  (readNatural text).bind fun whole => (readFraction whole.2).bind fun fraction => (readExponent fraction.2).bind fun exponent =>
    some (numeral negative whole.1 (fraction.1 ++ exponent.1), exponent.2)

def readNumber : List Char → Option (Json × List Char)
  | [] => none
  | c :: rest => if c = '-' then readMagnitude true rest else readMagnitude false (c :: rest)

/-- A word that is a value. -/
def readWord (word : List Char) (value : Json) (text : List Char) : Option (Json × List Char) :=
  if word.isPrefixOf text then some (value, text.drop word.length) else none

mutual

/-- A value. `depth` is how deep lists and objects may still go. -/
def readValue : Nat → Nat → List Char → Option (Json × List Char)
  | 0, _, _ => none
  | fuel + 1, depth, text =>
      match skip text with
      | [] => none
      | c :: rest =>
          if c = '"' then (readText fuel rest).map fun r => (.str (String.ofList r.1), r.2)
          else if c = '[' then
            if depth ≤ 1 then none
            else if (skip rest).head? = some ']' then some (.arr [], (skip rest).tail)
            else (readValue fuel (depth - 1) rest).bind fun first =>
              (readItems fuel (depth - 1) first.2).map fun r => (.arr (first.1 :: r.1), r.2)
          else if c = '{' then
            if depth ≤ 1 then none
            else if (skip rest).head? = some '}' then some (.obj [], (skip rest).tail)
            else (readField fuel (depth - 1) rest).bind fun first =>
              (readFields fuel (depth - 1) first.2).map fun r => (.obj (first.1 :: r.1), r.2)
          else if c = 'n' then readWord ['n', 'u', 'l', 'l'] .null (c :: rest)
          else if c = 't' then readWord ['t', 'r', 'u', 'e'] (.bool true) (c :: rest)
          else if c = 'f' then readWord ['f', 'a', 'l', 's', 'e'] (.bool false) (c :: rest)
          else readNumber (c :: rest)
termination_by structural n => n

/-- The rest of a list. -/
def readItems : Nat → Nat → List Char → Option (List Json × List Char)
  | 0, _, _ => none
  | fuel + 1, depth, text =>
      match skip text with
      | [] => none
      | c :: rest =>
          if c = ']' then some ([], rest)
          else if c = ',' then (readValue fuel depth rest).bind fun first =>
            (readItems fuel depth first.2).map fun r => (first.1 :: r.1, r.2)
          else none
termination_by structural n => n

def readField : Nat → Nat → List Char → Option ((String × Json) × List Char)
  | 0, _, _ => none
  | fuel + 1, depth, text =>
      match skip text with
      | [] => none
      | c :: rest =>
          if c = '"' then (readText fuel rest).bind fun name =>
            if (skip name.2).head? = some ':' then
              (readValue fuel depth (skip name.2).tail).map fun value => ((String.ofList name.1, value.1), value.2)
            else none
          else none
termination_by structural n => n

/-- The rest of an object. -/
def readFields : Nat → Nat → List Char → Option (List (String × Json) × List Char)
  | 0, _, _ => none
  | fuel + 1, depth, text =>
      match skip text with
      | [] => none
      | c :: rest =>
          if c = '}' then some ([], rest)
          else if c = ',' then (readField fuel depth rest).bind fun first =>
            (readFields fuel depth first.2).map fun r => (first.1 :: r.1, r.2)
          else none
termination_by structural n => n

end

/-! ## What was written is read -/

section RoundTrip

/-- What may stand behind a value. -/
def Stops (rest : List Char) : Prop := ∀ c, rest.head? = some c → c = ',' ∨ c = ']' ∨ c = '}'

theorem skip_cons {c : Char} (solid : isBlank c = false) (rest : List Char) : skip (c :: rest) = c :: rest :=
  List.dropWhile_cons_of_neg (by simp [solid])

theorem Stops.skip {rest : List Char} (stops : Stops rest) : JsonText.skip rest = rest := by
  cases rest with
  | nil => rfl
  | cons c rest =>
      refine skip_cons ?_ rest
      rcases stops c rfl with rfl | rfl | rfl
      · rfl
      · rfl
      · rfl

theorem stops_cons {c : Char} (rest : List Char) (stop : c = ',' ∨ c = ']' ∨ c = '}') : Stops (c :: rest) := by
  intro d head
  obtain rfl := Option.some.inj head
  exact stop

/-! ### Strings -/

theorem hexValue_digitChar {d : Nat} (small : d < 16) : hexValue d.digitChar = some d := by
  have table : ∀ d : Fin 16, hexValue (Nat.digitChar d) = some d.val := by decide
  exact table ⟨d, small⟩

theorem readEscape_control {c : Char} (control : c.toNat < 32) (rest : List Char) :
    readEscape ('u' :: '0' :: '0' :: (c.toNat / 16).digitChar :: (c.toNat % 16).digitChar :: rest) = some (c, rest) := by
  have high := hexValue_digitChar (d := c.toNat / 16) (by omega)
  have low := hexValue_digitChar (d := c.toNat % 16) (by omega)
  have zero : hexValue '0' = some 0 := rfl
  have value : ((0 * 16 + 0) * 16 + c.toNat / 16) * 16 + c.toNat % 16 = c.toNat := by omega
  have hex : readHex ('0' :: '0' :: (c.toNat / 16).digitChar :: (c.toNat % 16).digitChar :: rest) = some (c.toNat, rest) := by
    simp only [readHex, zero, high, low, Option.bind_eq_bind, Option.bind_some, value]
  rw [readEscape, if_pos rfl, readUnicode, hex, Option.bind_some, if_neg (by omega), if_neg (by omega), Char.ofNat_toNat]

/-- Each character is read back from what it was written as. -/
theorem readText_escape (c : Char) (fuel : Nat) (rest : List Char) :
    readText (fuel + 1) (escape c ++ rest) = (readText fuel rest).map fun r => (c :: r.1, r.2) := by
  have back (d : Char) (rest' : List Char) (read : readEscape (d :: rest') = some (c, rest)) :
      readText (fuel + 1) ('\\' :: d :: rest') = (readText fuel rest).map fun r => (c :: r.1, r.2) := by
    rw [readText, if_neg (by decide), if_pos rfl, read]
    rfl
  have numbered (n : Nat) (same : c.toNat = n) : Char.ofNat n = c := by rw [← same, Char.ofNat_toNat]
  unfold escape
  split_ifs with quote slash bs tab nl ff cr control
  · subst quote
    exact back '"' rest rfl
  · subst slash
    exact back '\\' rest rfl
  · exact back 'b' rest (by rw [← numbered 8 bs]; rfl)
  · exact back 't' rest (by rw [← numbered 9 tab]; rfl)
  · exact back 'n' rest (by rw [← numbered 10 nl]; rfl)
  · exact back 'f' rest (by rw [← numbered 12 ff]; rfl)
  · exact back 'r' rest (by rw [← numbered 13 cr]; rfl)
  · exact back 'u' _ (readEscape_control control rest)
  · change readText (fuel + 1) (c :: rest) = _
    rw [readText, if_neg quote, if_neg slash, if_neg control]

theorem length_escape (c : Char) : 1 ≤ (escape c).length := by
  unfold escape
  split_ifs <;> simp

theorem length_escaped (text : List Char) : text.length ≤ (text.flatMap escape).length := by
  induction text with
  | nil => exact Nat.le_refl _
  | cons c rest ih =>
      have := length_escape c
      rw [List.flatMap_cons, List.length_append, List.length_cons]
      omega

theorem readText_written {text rest : List Char} {fuel : Nat} (enough : text.length < fuel) :
    readText fuel (text.flatMap escape ++ '"' :: rest) = some (text, rest) := by
  induction text generalizing fuel with
  | nil =>
      obtain ⟨fuel, rfl⟩ := Nat.exists_eq_add_one.mpr enough
      rw [List.flatMap_nil, List.nil_append, readText, if_pos rfl]
  | cons c more ih =>
      obtain ⟨fuel, rfl⟩ := Nat.exists_eq_add_one.mpr (Nat.zero_lt_of_lt enough)
      rw [List.flatMap_cons, List.append_assoc, readText_escape, ih (by rw [List.length_cons] at enough; omega)]
      rfl

/-! ### Numbers -/

theorem isDigit_toDigits {n : Nat} {c : Char} (member : c ∈ Nat.toDigits 10 n) : c.isDigit = true := by
  obtain ⟨d, small, rfl⟩ := Numerals.mem_toDigits (by decide) member
  have table : ∀ d : Fin 10, (Nat.digitChar d).isDigit = true := by decide
  exact table ⟨d, small⟩

theorem Stops.not_digit {rest : List Char} (stops : Stops rest) {c : Char} (head : rest.head? = some c) : c.isDigit = false := by
  rcases stops c head with rfl | rfl | rfl
  · rfl
  · rfl
  · rfl

theorem readNatural_written (n : Nat) {rest : List Char} (stops : Stops rest) :
    readNatural (Nat.toDigits 10 n ++ rest) = some (Nat.toDigits 10 n, rest) := by
  have all : ∀ c ∈ Nat.toDigits 10 n, c.isDigit = true := fun c => isDigit_toDigits
  have stop : rest.takeWhile Char.isDigit = [] ∧ rest.dropWhile Char.isDigit = rest := by
    cases rest with
    | nil => exact ⟨rfl, rfl⟩
    | cons c rest =>
        have other := stops.not_digit (c := c) rfl
        exact ⟨List.takeWhile_cons_of_neg (by simp [other]), List.dropWhile_cons_of_neg (by simp [other])⟩
  have digits : readDigits (Nat.toDigits 10 n ++ rest) = some (Nat.toDigits 10 n, rest) := by
    rw [readDigits, List.takeWhile_append_of_pos all, List.dropWhile_append_of_pos all, stop.1, stop.2, List.append_nil,
      if_neg Nat.toDigits_ne_nil]
  rw [readNatural, digits, Option.bind_some, if_neg]
  rintro ⟨long, zero⟩
  obtain rfl : n = 0 := Numerals.head_toDigits zero
  exact absurd long (Nat.lt_irrefl 1)

theorem readFraction_stops {rest : List Char} (stops : Stops rest) : readFraction rest = some ([], rest) := by
  cases rest with
  | nil => rfl
  | cons c rest =>
      have plain : c ≠ '.' := by
        rcases stops c rfl with rfl | rfl | rfl
        · decide
        · decide
        · decide
      rw [readFraction, if_neg plain]

theorem readExponent_stops {rest : List Char} (stops : Stops rest) : readExponent rest = some ([], rest) := by
  cases rest with
  | nil => rfl
  | cons c rest =>
      have plain : ¬ (c = 'e' ∨ c = 'E') := by
        rcases stops c rfl with rfl | rfl | rfl
        · decide
        · decide
        · decide
      rw [readExponent, if_neg plain]

theorem readMagnitude_written (negative : Bool) (n : Nat) {rest : List Char} (stops : Stops rest) :
    readMagnitude negative (Nat.toDigits 10 n ++ rest) = some (numeral negative (Nat.toDigits 10 n) [], rest) := by
  rw [readMagnitude, readNatural_written n stops, Option.bind_some, readFraction_stops stops, Option.bind_some,
    readExponent_stops stops, Option.bind_some, List.append_nil]

theorem readNumber_written (n : Int) (rest : List Char) (stops : Stops rest) : readNumber (writeInt n ++ rest) = some (.int n, rest) := by
  cases n with
  | ofNat n =>
      obtain ⟨c, more, digits⟩ := List.exists_cons_of_ne_nil (Nat.toDigits_ne_nil (b := 10) (n := n))
      have digit : c.isDigit = true := isDigit_toDigits (n := n) (digits ▸ List.mem_cons_self)
      have positive : c ≠ '-' := by
        rintro rfl
        cases digit
      have read := readMagnitude_written false n stops
      have value : numeral false (Nat.toDigits 10 n) [] = .int n := by
        simp [numeral, Nat.ofDigitChars_ten_toDigits]
      rw [value] at read
      rw [writeInt]
      rw [digits, List.cons_append] at read ⊢
      rw [readNumber, if_neg positive]
      exact read
  | negSucc n =>
      have some_ : Nat.toDigits 10 (n + 1) ≠ ['0'] := by
        intro zero
        exact absurd (Numerals.head_toDigits (n := n + 1) (by rw [zero]; rfl)) (Nat.succ_ne_zero n)
      have value : numeral true (Nat.toDigits 10 (n + 1)) [] = .int (.negSucc n) := by
        simp [numeral, some_, Nat.ofDigitChars_ten_toDigits, Int.negSucc_eq]
      rw [writeInt, List.cons_append, readNumber, if_pos rfl, readMagnitude_written true (n + 1) stops, value]

/-! ### Values -/

/-- How a value begins: neither with a blank nor with what ends a list. -/
structure Opening (c : Char) : Prop where
  solid : isBlank c = false
  item : c ≠ ']'

theorem write_opening {depth : Nat} {j : Json} (within : Within depth j) : ∃ c rest, write j = c :: rest ∧ Opening c := by
  cases within with
  | null => exact ⟨_, _, rfl, rfl, by decide⟩
  | bool _ value =>
      cases value with
      | false => exact ⟨_, _, rfl, rfl, by decide⟩
      | true => exact ⟨_, _, rfl, rfl, by decide⟩
  | int _ n =>
      cases n with
      | ofNat n =>
          obtain ⟨c, rest, digits⟩ := List.exists_cons_of_ne_nil (Nat.toDigits_ne_nil (b := 10) (n := n))
          have digit : c.isDigit = true := isDigit_toDigits (n := n) (digits ▸ List.mem_cons_self)
          refine ⟨c, rest, digits, ?_, ?_⟩
          · cases blank : isBlank c with
            | false => rfl
            | true =>
                simp only [isBlank, Bool.or_eq_true, decide_eq_true_eq] at blank
                rcases blank with ((rfl | rfl) | rfl) | rfl
                · cases digit
                · cases digit
                · cases digit
                · cases digit
          · rintro rfl
            cases digit
      | negSucc n => exact ⟨_, _, rfl, rfl, by decide⟩
  | str _ text => exact ⟨_, _, rfl, rfl, by decide⟩
  | @arr _ items _ =>
      cases items with
      | nil => exact ⟨_, _, rfl, rfl, by decide⟩
      | cons first rest => exact ⟨_, _, rfl, rfl, by decide⟩
  | @obj _ fields _ =>
      cases fields with
      | nil => exact ⟨_, _, rfl, rfl, by decide⟩
      | cons first rest => exact ⟨_, _, rfl, rfl, by decide⟩

theorem readValue_int (n : Int) (fuel depth : Nat) {rest : List Char} (stops : Stops rest) :
    readValue (fuel + 1) depth (writeInt n ++ rest) = some (.int n, rest) := by
  obtain ⟨c, more, start, opening⟩ := write_opening (Within.int 0 n)
  have written : writeInt n ++ rest = c :: (more ++ rest) := by
    change writeInt n = _ at start
    rw [start]
    rfl
  have number : c.isDigit = true ∨ c = '-' := by
    change writeInt n = _ at start
    cases n with
    | ofNat n =>
        left
        exact isDigit_toDigits (n := n) (by rw [show Nat.toDigits 10 n = c :: more from start]; exact List.mem_cons_self)
    | negSucc n => exact .inr (List.cons.inj start).1.symm
  have read := readNumber_written n rest stops
  rw [written] at read ⊢
  have other (d : Char) (odd : d.isDigit = false ∧ d ≠ '-') : c ≠ d := by
    rintro rfl
    rcases number with digit | minus
    · rw [odd.1] at digit
      cases digit
    · exact odd.2 minus
  rw [readValue, skip_cons opening.solid]
  dsimp only
  rw [if_neg (other '"' (by decide)), if_neg (other '[' (by decide)), if_neg (other '{' (by decide)), if_neg (other 'n' (by decide)),
    if_neg (other 't' (by decide)), if_neg (other 'f' (by decide)), read]

theorem quoted_append (name : String) (rest : List Char) :
    quoted name ++ rest = '"' :: (name.toList.flatMap escape ++ '"' :: rest) := by
  simp [quoted]

theorem length_quoted (name : String) : name.toList.length + 2 ≤ (quoted name).length := by
  have := length_escaped name.toList
  simp only [quoted, List.length_cons, List.length_append, List.length_nil]
  omega

theorem stops_writeItems (items : List Json) (rest : List Char) : Stops (writeItems items ++ rest) := by
  cases items with
  | nil => exact stops_cons _ (.inr (.inl rfl))
  | cons item more => exact stops_cons _ (.inl rfl)

theorem stops_writeFields (fields : List (String × Json)) (rest : List Char) : Stops (writeFields fields ++ rest) := by
  cases fields with
  | nil => exact stops_cons _ (.inr (.inr rfl))
  | cons f more => exact stops_cons _ (.inl rfl)

/-- What is read with some fuel, of a value and of what follows one. -/
structure Reads (fuel : Nat) : Prop where
  value : ∀ depth j rest, Within depth j → (write j).length ≤ fuel → Stops rest → readValue fuel depth (write j ++ rest) = some (j, rest)
  items : ∀ depth items rest, (∀ item ∈ items, Within depth item) → (writeItems items).length ≤ fuel →
    readItems fuel depth (writeItems items ++ rest) = some (items, rest)
  field : ∀ depth name j rest, Within depth j → (quoted name).length + (write j).length < fuel → Stops rest →
    readField fuel depth (quoted name ++ ':' :: (write j ++ rest)) = some ((name, j), rest)
  fields : ∀ depth fields rest, (∀ f ∈ fields, Within depth f.2) → (writeFields fields).length ≤ fuel →
    readFields fuel depth (writeFields fields ++ rest) = some (fields, rest)

theorem reads (fuel : Nat) : Reads fuel := by
  induction fuel with
  | zero =>
      refine ⟨fun depth j rest within short => ?_, fun depth items rest _ short => ?_, fun _ _ _ _ _ short => absurd short (Nat.not_lt_zero _),
        fun depth fields rest _ short => ?_⟩
      · obtain ⟨c, more, start, -⟩ := write_opening within
        rw [start] at short
        cases short
      · cases items with
        | nil => cases short
        | cons item more => cases short
      · cases fields with
        | nil => cases short
        | cons f more => cases short
  | succ fuel ih =>
      refine ⟨fun depth j rest within enough stops => ?_, fun depth items rest within enough => ?_,
        fun depth name j rest within enough stops => ?_, fun depth fields rest within enough => ?_⟩
      · cases within with
        | null => rfl
        | bool _ value =>
            cases value with
            | false => rfl
            | true => rfl
        | int _ n => exact readValue_int n fuel depth stops
        | str _ text =>
            have length := length_quoted text
            rw [write] at enough ⊢
            rw [quoted_append, readValue, skip_cons rfl]
            dsimp only
            rw [if_pos rfl, readText_written (by omega), Option.map_some, String.ofList_toList]
        | @arr depth items inside =>
            cases items with
            | nil => rfl
            | cons first more =>
                have within := inside first List.mem_cons_self
                obtain ⟨c, tail, start, opening⟩ := write_opening within
                have lengths : (write (.arr (first :: more))).length = 1 + (write first).length + (writeItems more).length := by
                  simp only [write, List.length_cons, List.length_append]
                  omega
                have deeper : depth + 2 - 1 = depth + 1 := rfl
                have open_ : (skip (write first ++ (writeItems more ++ rest))).head? ≠ some ']' := by
                  rw [start, List.cons_append, skip_cons opening.solid]
                  intro same
                  exact opening.item (Option.some.inj same)
                rw [write, List.cons_append, List.append_assoc, readValue, skip_cons rfl]
                dsimp only
                rw [if_neg (by decide), if_pos rfl, if_neg (by omega), if_neg open_, deeper,
                  ih.value (depth + 1) first _ within (by omega) (stops_writeItems more rest), Option.bind_some,
                  ih.items (depth + 1) more rest (fun item member => inside item (List.mem_cons_of_mem _ member)) (by omega),
                  Option.map_some]
        | @obj depth fields inside =>
            cases fields with
            | nil => rfl
            | cons f more =>
                obtain ⟨name, first⟩ := f
                have within : Within (depth + 1) first := inside _ List.mem_cons_self
                have lengths : (write (.obj ((name, first) :: more))).length =
                    2 + (quoted name).length + (write first).length + (writeFields more).length := by
                  simp only [write, List.length_cons, List.length_append]
                  omega
                have deeper : depth + 2 - 1 = depth + 1 := rfl
                have open_ : (skip (quoted name ++ ':' :: (write first ++ (writeFields more ++ rest)))).head? ≠ some '}' := by
                  rw [quoted_append, skip_cons rfl]
                  exact nofun
                have text : write (.obj ((name, first) :: more)) ++ rest =
                    '{' :: (quoted name ++ ':' :: (write first ++ (writeFields more ++ rest))) := by
                  simp only [write, List.cons_append, List.append_assoc]
                rw [text, readValue, skip_cons rfl]
                dsimp only
                rw [if_neg (by decide), if_neg (by decide), if_pos rfl, if_neg (by omega), if_neg open_, deeper,
                  ih.field (depth + 1) name first _ within (by omega) (stops_writeFields more rest), Option.bind_some,
                  ih.fields (depth + 1) more rest (fun f member => inside f (List.mem_cons_of_mem _ member)) (by omega),
                  Option.map_some]
      · cases items with
        | nil => rfl
        | cons item more =>
            have lengths : (writeItems (item :: more)).length = 1 + (write item).length + (writeItems more).length := by
              simp only [writeItems, List.length_cons, List.length_append]
              omega
            rw [writeItems, List.cons_append, List.append_assoc, readItems, skip_cons rfl]
            dsimp only
            rw [if_neg (by decide), if_pos rfl, ih.value depth item _ (within item List.mem_cons_self) (by omega) (stops_writeItems more rest), Option.bind_some,
              ih.items depth more rest (fun item member => within item (List.mem_cons_of_mem _ member)) (by omega), Option.map_some]
      · have length := length_quoted name
        rw [quoted_append, readField, skip_cons rfl]
        dsimp only
        rw [if_pos rfl, readText_written (by omega), Option.bind_some, skip_cons rfl, List.head?_cons, if_pos rfl, List.tail_cons, ih.value depth j rest within (by omega) stops, Option.map_some, String.ofList_toList]
      · cases fields with
        | nil => rfl
        | cons f more =>
            obtain ⟨name, value⟩ := f
            have lengths : (writeFields ((name, value) :: more)).length =
                2 + (quoted name).length + (write value).length + (writeFields more).length := by
              simp only [writeFields, List.length_cons, List.length_append]
              omega
            have text : writeFields ((name, value) :: more) ++ rest =
                ',' :: (quoted name ++ ':' :: (write value ++ (writeFields more ++ rest))) := by
              simp only [writeFields, List.cons_append, List.append_assoc]
            rw [text, readFields, skip_cons rfl]
            dsimp only
            rw [if_neg (by decide), if_pos rfl, ih.field depth name value _ (within _ List.mem_cons_self) (by omega) (stops_writeFields more rest), Option.bind_some,
              ih.fields depth more rest (fun f member => within f (List.mem_cons_of_mem _ member)) (by omega), Option.map_some]

end RoundTrip

/-! ## Texts that are cut off -/

section Cut

/-- A reader that sees where it ends: what comes later changes nothing. -/
def Firm {α : Type} (read : List Char → Option (α × List Char)) : Prop :=
  ∀ text a rest more, read text = some (a, rest) → read (text ++ more) = some (a, rest ++ more)

/-- A reader that sees where it ends from what comes next, if there is something. -/
structure Steady {α : Type} (read : List Char → Option (α × List Char)) : Prop where
  more : ∀ text a rest more, read text = some (a, rest) → rest ≠ [] → read (text ++ more) = some (a, rest ++ more)
  ends : ∀ a rest, read [] = some (a, rest) → rest = []

variable {α β : Type} {read : List Char → Option (α × List Char)} {next : α → List Char → Option (β × List Char)}

variable (next) in
theorem Firm.bind (firm : Firm read) (then_ : ∀ a, Firm (next a)) : Firm fun text => (read text).bind fun r => next r.1 r.2 := by
  intro text b rest more found
  obtain ⟨⟨a, middle⟩, first, second⟩ := Option.bind_eq_some_iff.mp found
  dsimp only at second ⊢
  rw [firm text a middle more first, Option.bind_some]
  exact then_ a middle b rest more second

variable (next) in
theorem Steady.bind (steady : Steady read) (then_ : ∀ a, Steady (next a)) :
    Steady fun text => (read text).bind fun r => next r.1 r.2 where
  more text b rest more found some_ := by
    obtain ⟨⟨a, middle⟩, first, second⟩ := Option.bind_eq_some_iff.mp found
    have inside : middle ≠ [] := by
      rintro rfl
      exact some_ ((then_ a).ends b rest second)
    dsimp only at second ⊢
    rw [steady.more text a middle more first inside, Option.bind_some]
    exact (then_ a).more middle b rest more second some_
  ends b rest found := by
    obtain ⟨⟨a, middle⟩, first, second⟩ := Option.bind_eq_some_iff.mp found
    obtain rfl := steady.ends a middle first
    exact (then_ a).ends b rest second

theorem Steady.guard (steady : Steady read) (p : α → Prop) [DecidablePred p] (f : α → β) :
    Steady fun text => (read text).bind fun r => if p r.1 then none else some (f r.1, r.2) := by
  refine steady.bind (fun a rest => if p a then none else some (f a, rest)) fun a =>
    ⟨fun text b rest more found _ => ?_, fun b rest found => ?_⟩
  · split at found
    · cases found
    · rename_i kept
      obtain ⟨rfl, rfl⟩ := Prod.mk.inj (Option.some.inj found)
      rw [if_neg kept]
  · split at found
    · cases found
    · exact ((Prod.mk.inj (Option.some.inj found)).2).symm

theorem skip_append {text : List Char} (some_ : skip text ≠ []) (more : List Char) : skip (text ++ more) = skip text ++ more := by
  have open_ : (text.dropWhile isBlank).isEmpty = false := by
    rw [List.isEmpty_eq_false_iff]
    exact some_
  rw [skip, List.dropWhile_append, open_]
  rfl

theorem readDigits_steady : Steady readDigits where
  more text digits rest more found some_ := by
    simp only [readDigits] at found ⊢
    split at found
    · cases found
    · rename_i there
      obtain ⟨rfl, rfl⟩ := Prod.mk.inj (Option.some.inj found)
      have open_ : (text.dropWhile Char.isDigit).isEmpty = false := by
        rw [List.isEmpty_eq_false_iff]
        exact some_
      have short : (text.takeWhile Char.isDigit).length ≠ text.length := by
        intro whole
        have parts := congrArg List.length (List.takeWhile_append_dropWhile (p := Char.isDigit) (l := text))
        rw [List.length_append, whole] at parts
        exact some_ (List.length_eq_zero_iff.mp (by omega))
      rw [List.takeWhile_append, if_neg short, List.dropWhile_append, open_, if_neg there]
      rfl
  ends digits rest found := by cases found

theorem readNatural_steady : Steady readNatural := by
  have guarded := readDigits_steady.guard (fun digits => 1 < digits.length ∧ digits.head? = some '0') id
  exact guarded

theorem Steady.cons (steady : Steady read) (start : Char → α → β) (c : Char) {text : List Char} {b : β} {rest : List Char}
    (more : List Char) (found : (read text).map (fun r => (start c r.1, r.2)) = some (b, rest)) (some_ : rest ≠ []) :
    (read (text ++ more)).map (fun r => (start c r.1, r.2)) = some (b, rest ++ more) := by
  obtain ⟨⟨a, rest'⟩, first, same⟩ := Option.map_eq_some_iff.mp found
  obtain ⟨rfl, rfl⟩ := Prod.mk.inj same
  rw [steady.more text a rest' more first some_, Option.map_some]

theorem readFraction_steady : Steady readFraction where
  more text tail rest more found some_ := by
    cases text with
    | nil => exact absurd (Prod.mk.inj (Option.some.inj found)).2.symm some_
    | cons c text =>
        rw [List.cons_append, readFraction] at *
        split_ifs at found ⊢
        · exact readDigits_steady.cons List.cons c more found some_
        · obtain ⟨rfl, rfl⟩ := Prod.mk.inj (Option.some.inj found)
          rfl
  ends tail rest found := (Prod.mk.inj (Option.some.inj found)).2.symm

theorem readSigned_steady : Steady readSigned where
  more text tail rest more found some_ := by
    cases text with
    | nil => cases found
    | cons s text =>
        rw [List.cons_append, readSigned] at *
        split_ifs at found ⊢
        · exact readDigits_steady.cons List.cons s more found some_
        · exact readDigits_steady.more _ tail rest more found some_
  ends tail rest found := by cases found

theorem readExponent_steady : Steady readExponent where
  more text tail rest more found some_ := by
    cases text with
    | nil => exact absurd (Prod.mk.inj (Option.some.inj found)).2.symm some_
    | cons c text =>
        rw [List.cons_append, readExponent] at *
        split_ifs at found ⊢
        · exact readSigned_steady.cons List.cons c more found some_
        · obtain ⟨rfl, rfl⟩ := Prod.mk.inj (Option.some.inj found)
          rfl
  ends tail rest found := (Prod.mk.inj (Option.some.inj found)).2.symm

theorem readMagnitude_steady (negative : Bool) : Steady (readMagnitude negative) := by
  refine readNatural_steady.bind (fun whole text => (readFraction text).bind fun fraction =>
    (readExponent fraction.2).bind fun exponent => some (numeral negative whole (fraction.1 ++ exponent.1), exponent.2)) fun whole => ?_
  refine readFraction_steady.bind (fun fraction text => (readExponent text).bind fun exponent =>
    some (numeral negative whole (fraction ++ exponent.1), exponent.2)) fun fraction => ?_
  have last := readExponent_steady.guard (fun _ => False) fun exponent => numeral negative whole (fraction ++ exponent)
  simpa only [if_false] using last

theorem readNumber_more {text rest : List Char} {j : Json} (more : List Char) (found : readNumber text = some (j, rest))
    (some_ : rest ≠ []) : readNumber (text ++ more) = some (j, rest ++ more) := by
  cases text with
  | nil => cases found
  | cons c text =>
      rw [List.cons_append, readNumber] at *
      split_ifs at found ⊢
      · exact (readMagnitude_steady true).more _ j rest more found some_
      · exact (readMagnitude_steady false).more _ j rest more found some_

theorem readHex_firm : Firm readHex := by
  intro text n rest more found
  match text with
  | a :: b :: c :: d :: text =>
      simp only [readHex, List.cons_append, Option.bind_eq_bind, Option.bind_eq_some_iff, Option.some.injEq, Prod.mk.injEq] at found ⊢
      obtain ⟨a', at_a, b', at_b, c', at_c, d', at_d, value, rfl⟩ := found
      exact ⟨a', at_a, b', at_b, c', at_c, d', at_d, value, rfl⟩
  | [] | [_] | [_, _] | [_, _, _] => cases found

theorem readLow_firm : Firm readLow := by
  intro text n rest more found
  match text with
  | a :: b :: text =>
      rw [readLow] at found
      split_ifs at found with begins
      rw [List.cons_append, List.cons_append, readLow, if_pos begins]
      exact readHex_firm text n rest more found
  | [] | [_] => cases found

theorem readUnicode_firm : Firm readUnicode := by
  refine readHex_firm.bind (fun high text => if 0xd800 ≤ high ∧ high < 0xdc00 then (readLow text).bind fun low =>
    if 0xdc00 ≤ low.1 ∧ low.1 < 0xe000 then some (Char.ofNat (0x10000 + (high - 0xd800) * 0x400 + (low.1 - 0xdc00)), low.2) else none
    else if 0xdc00 ≤ high ∧ high < 0xe000 then none else some (Char.ofNat high, text)) fun high => ?_
  by_cases upper : 0xd800 ≤ high ∧ high < 0xdc00
  · simp only [if_pos upper]
    refine readLow_firm.bind (fun low text => if 0xdc00 ≤ low ∧ low < 0xe000 then
      some (Char.ofNat (0x10000 + (high - 0xd800) * 0x400 + (low - 0xdc00)), text) else none) fun low text c rest more found => ?_
    split_ifs at found ⊢
    obtain ⟨rfl, rfl⟩ := Prod.mk.inj (Option.some.inj found)
    rfl
  · simp only [if_neg upper]
    intro text c rest more found
    split_ifs at found ⊢
    obtain ⟨rfl, rfl⟩ := Prod.mk.inj (Option.some.inj found)
    rfl

theorem readEscape_firm : Firm readEscape := by
  intro text c rest more found
  cases text with
  | nil => cases found
  | cons d text =>
      rw [List.cons_append, readEscape] at *
      split_ifs at found ⊢
      · exact readUnicode_firm text c rest more found
      all_goals
        obtain ⟨rfl, rfl⟩ := Prod.mk.inj (Option.some.inj found)
        rfl

theorem readText_firm {fuel fuel' : Nat} (more_ : fuel ≤ fuel') {text s rest : List Char} (more : List Char)
    (found : readText fuel text = some (s, rest)) : readText fuel' (text ++ more) = some (s, rest ++ more) := by
  induction fuel generalizing fuel' text s rest with
  | zero => cases found
  | succ fuel ih =>
      obtain ⟨fuel', rfl⟩ := Nat.exists_eq_add_one.mpr (Nat.lt_of_lt_of_le (Nat.succ_pos fuel) more_)
      have less : fuel ≤ fuel' := Nat.le_of_succ_le_succ more_
      cases text with
      | nil => cases found
      | cons c text =>
          rw [List.cons_append, readText] at *
          split_ifs at found ⊢ with quote slash
          · obtain ⟨rfl, rfl⟩ := Prod.mk.inj (Option.some.inj found)
            rfl
          · obtain ⟨⟨e, middle⟩, first, found⟩ := Option.bind_eq_some_iff.mp found
            obtain ⟨⟨s', rest'⟩, second, same⟩ := Option.map_eq_some_iff.mp found
            obtain ⟨rfl, rfl⟩ := Prod.mk.inj same
            rw [readEscape_firm text e middle more first, Option.bind_some, ih less second, Option.map_some]
          · obtain ⟨⟨s', rest'⟩, second, same⟩ := Option.map_eq_some_iff.mp found
            obtain ⟨rfl, rfl⟩ := Prod.mk.inj same
            rw [ih less second, Option.map_some]

theorem readWord_more {word text rest : List Char} {value j : Json} (more : List Char)
    (found : readWord word value text = some (j, rest)) : readWord word value (text ++ more) = some (j, rest ++ more) := by
  rw [readWord] at found ⊢
  split_ifs at found with begins
  obtain ⟨rfl, rfl⟩ := Prod.mk.inj (Option.some.inj found)
  obtain ⟨tail, rfl⟩ := List.isPrefixOf_iff_prefix.mp begins
  rw [List.append_assoc, if_pos (List.isPrefixOf_iff_prefix.mpr (List.prefix_append ..)), List.drop_left, List.drop_left]

theorem readMagnitude_number {negative : Bool} {text rest : List Char} {j : Json} (found : readMagnitude negative text = some (j, rest)) :
    ¬ Closed j := by
  obtain ⟨whole, -, found⟩ := Option.bind_eq_some_iff.mp found
  obtain ⟨fraction, -, found⟩ := Option.bind_eq_some_iff.mp found
  obtain ⟨exponent, -, found⟩ := Option.bind_eq_some_iff.mp found
  obtain ⟨rfl, -⟩ := Prod.mk.inj (Option.some.inj found)
  unfold numeral
  split_ifs <;> exact id

theorem readNumber_number {text rest : List Char} {j : Json} (found : readNumber text = some (j, rest)) : ¬ Closed j := by
  cases text with
  | nil => cases found
  | cons c text =>
      rw [readNumber] at found
      split_ifs at found
      · exact readMagnitude_number found
      · exact readMagnitude_number found

theorem skip_append_cons {text rest : List Char} {c : Char} (start : skip text = c :: rest) (more : List Char) :
    skip (text ++ more) = c :: (rest ++ more) := by
  rw [skip_append (start ▸ List.cons_ne_nil c rest), start, List.cons_append]

theorem ne_nil_of_skip {text : List Char} (some_ : skip text ≠ []) : text ≠ [] := by
  rintro rfl
  exact some_ rfl

theorem head_skip {text : List Char} (some_ : skip text ≠ []) (more : List Char) : (skip (text ++ more)).head? = (skip text).head? := by
  rw [skip_append some_, List.head?_append_of_ne_nil _ some_]

theorem skip_of_readValue {fuel depth : Nat} {text : List Char} {r : Json × List Char} (found : readValue fuel depth text = some r) :
    skip text ≠ [] := by
  intro nothing
  cases fuel with
  | zero => cases found
  | succ fuel =>
      rw [readValue, nothing] at found
      cases found

theorem skip_of_readField {fuel depth : Nat} {text : List Char} {r : (String × Json) × List Char}
    (found : readField fuel depth text = some r) : skip text ≠ [] := by
  intro nothing
  cases fuel with
  | zero => cases found
  | succ fuel =>
      rw [readField, nothing] at found
      cases found

/-- What was read stays as it is when more is there, and with more fuel. -/
structure Goes (fuel : Nat) : Prop where
  value : ∀ fuel' depth text j rest more, fuel ≤ fuel' → readValue fuel depth text = some (j, rest) → (Closed j ∨ rest ≠ []) →
    readValue fuel' depth (text ++ more) = some (j, rest ++ more)
  items : ∀ fuel' depth text items rest more, fuel ≤ fuel' → readItems fuel depth text = some (items, rest) →
    text ≠ [] ∧ readItems fuel' depth (text ++ more) = some (items, rest ++ more)
  field : ∀ fuel' depth text f rest more, fuel ≤ fuel' → readField fuel depth text = some (f, rest) → rest ≠ [] →
    readField fuel' depth (text ++ more) = some (f, rest ++ more)
  fields : ∀ fuel' depth text fields rest more, fuel ≤ fuel' → readFields fuel depth text = some (fields, rest) →
    text ≠ [] ∧ readFields fuel' depth (text ++ more) = some (fields, rest ++ more)

theorem goes (fuel : Nat) : Goes fuel := by
  induction fuel with
  | zero => exact ⟨nofun, nofun, nofun, nofun⟩
  | succ fuel ih =>
      refine ⟨fun fuel' depth text j rest more less found stops => ?_, fun fuel' depth text items rest more less found => ?_,
        fun fuel' depth text f rest more less found some_ => ?_, fun fuel' depth text fields rest more less found => ?_⟩
      all_goals
        obtain ⟨fuel', rfl⟩ := Nat.exists_eq_add_one.mpr (Nat.lt_of_lt_of_le (Nat.succ_pos fuel) less)
        replace less : fuel ≤ fuel' := Nat.le_of_succ_le_succ less
      · rw [readValue] at found ⊢
        cases start : skip text with
        | nil =>
            rw [start] at found
            cases found
        | cons c tail =>
            rw [start] at found
            rw [skip_append_cons start more]
            dsimp only at found ⊢
            split_ifs at found with text_ list deep empty object deep' empty' word word' word''
            · obtain ⟨⟨s, rest'⟩, read, same⟩ := Option.map_eq_some_iff.mp found
              obtain ⟨rfl, rfl⟩ := Prod.mk.inj same
              rw [if_pos text_, readText_firm less more read, Option.map_some]
            · -- A list with nothing in it.
              obtain ⟨rfl, rfl⟩ := Prod.mk.inj (Option.some.inj found)
              have some_ : skip tail ≠ [] := by
                intro nothing
                rw [nothing] at empty
                cases empty
              rw [if_neg text_, if_pos list, if_neg deep, if_pos ((head_skip some_ more).trans empty), skip_append some_,
                List.tail_append_of_ne_nil some_]
            · obtain ⟨⟨first, middle⟩, read, found⟩ := Option.bind_eq_some_iff.mp found
              obtain ⟨⟨items, rest'⟩, others, same⟩ := Option.map_eq_some_iff.mp found
              obtain ⟨rfl, rfl⟩ := Prod.mk.inj same
              obtain ⟨some_, others⟩ := ih.items fuel' _ middle items rest' more less others
              rw [if_neg text_, if_pos list, if_neg deep, head_skip (skip_of_readValue read), if_neg empty,
                ih.value fuel' _ tail first middle more less read (.inr some_), Option.bind_some, others, Option.map_some]
            · obtain ⟨rfl, rfl⟩ := Prod.mk.inj (Option.some.inj found)
              have some_ : skip tail ≠ [] := by
                intro nothing
                rw [nothing] at empty'
                cases empty'
              rw [if_neg text_, if_neg list, if_pos object, if_neg deep', if_pos ((head_skip some_ more).trans empty'),
                skip_append some_, List.tail_append_of_ne_nil some_]
            · obtain ⟨⟨first, middle⟩, read, found⟩ := Option.bind_eq_some_iff.mp found
              obtain ⟨⟨fields, rest'⟩, others, same⟩ := Option.map_eq_some_iff.mp found
              obtain ⟨rfl, rfl⟩ := Prod.mk.inj same
              obtain ⟨some_, others⟩ := ih.fields fuel' _ middle fields rest' more less others
              rw [if_neg text_, if_neg list, if_pos object, if_neg deep', head_skip (skip_of_readField read), if_neg empty',
                ih.field fuel' _ tail first middle more less read some_, Option.bind_some, others, Option.map_some]
            · rw [if_neg text_, if_neg list, if_neg object, if_pos word]
              exact readWord_more more found
            · rw [if_neg text_, if_neg list, if_neg object, if_neg word, if_pos word']
              exact readWord_more more found
            · rw [if_neg text_, if_neg list, if_neg object, if_neg word, if_neg word', if_pos word'']
              exact readWord_more more found
            · rw [if_neg text_, if_neg list, if_neg object, if_neg word, if_neg word', if_neg word'']
              exact readNumber_more more found (stops.resolve_left (readNumber_number found))
      · rw [readItems] at found ⊢
        cases start : skip text with
        | nil =>
            rw [start] at found
            cases found
        | cons c tail =>
            refine ⟨ne_nil_of_skip (start ▸ List.cons_ne_nil c tail), ?_⟩
            rw [start] at found
            rw [skip_append_cons start more]
            dsimp only at found ⊢
            split_ifs at found ⊢ with last next
            · obtain ⟨rfl, rfl⟩ := Prod.mk.inj (Option.some.inj found)
              rfl
            · obtain ⟨⟨first, middle⟩, read, found⟩ := Option.bind_eq_some_iff.mp found
              obtain ⟨⟨items', rest'⟩, others, same⟩ := Option.map_eq_some_iff.mp found
              obtain ⟨rfl, rfl⟩ := Prod.mk.inj same
              obtain ⟨some_, others⟩ := ih.items fuel' _ middle items' rest' more less others
              rw [ih.value fuel' _ tail first middle more less read (.inr some_), Option.bind_some, others, Option.map_some]
      · rw [readField] at found ⊢
        cases start : skip text with
        | nil =>
            rw [start] at found
            cases found
        | cons c tail =>
            rw [start] at found
            rw [skip_append_cons start more]
            dsimp only at found ⊢
            split_ifs at found ⊢ with quote
            obtain ⟨⟨name, middle⟩, read, found⟩ := Option.bind_eq_some_iff.mp found
            dsimp only at found
            split_ifs at found with colon
            obtain ⟨⟨value, rest'⟩, value_, same⟩ := Option.map_eq_some_iff.mp found
            obtain ⟨rfl, rfl⟩ := Prod.mk.inj same
            have inside : skip middle ≠ [] := by
              intro nothing
              rw [nothing] at colon
              cases colon
            rw [readText_firm less more read, Option.bind_some]
            dsimp only
            rw [if_pos ((head_skip inside more).trans colon), skip_append inside, List.tail_append_of_ne_nil inside,
              ih.value fuel' _ _ value rest' more less value_ (.inr some_), Option.map_some]
      · rw [readFields] at found ⊢
        cases start : skip text with
        | nil =>
            rw [start] at found
            cases found
        | cons c tail =>
            refine ⟨ne_nil_of_skip (start ▸ List.cons_ne_nil c tail), ?_⟩
            rw [start] at found
            rw [skip_append_cons start more]
            dsimp only at found ⊢
            split_ifs at found ⊢ with last next
            · obtain ⟨rfl, rfl⟩ := Prod.mk.inj (Option.some.inj found)
              rfl
            · obtain ⟨⟨first, middle⟩, read, found⟩ := Option.bind_eq_some_iff.mp found
              obtain ⟨⟨fields', rest'⟩, others, same⟩ := Option.map_eq_some_iff.mp found
              obtain ⟨rfl, rfl⟩ := Prod.mk.inj same
              obtain ⟨some_, others⟩ := ih.fields fuel' _ middle fields' rest' more less others
              rw [ih.field fuel' _ tail first middle more less read some_, Option.bind_some, others, Option.map_some]

/-- Only a list or an object begins as one. -/
theorem closed_of_bracket {fuel depth : Nat} {c : Char} {text : List Char} {r : Json × List Char}
    (found : readValue fuel depth (c :: text) = some r) (bracket : c = '[' ∨ c = '\x7b') : Closed r.1 := by
  cases fuel with
  | zero => cases found
  | succ fuel =>
      rcases bracket with rfl | rfl
      · rw [readValue, skip_cons rfl] at found
        dsimp only at found
        rw [if_neg (by decide), if_pos rfl] at found
        split_ifs at found
        · rw [← Option.some.inj found]
          exact trivial
        · obtain ⟨_, -, found⟩ := Option.bind_eq_some_iff.mp found
          obtain ⟨_, -, rfl⟩ := Option.map_eq_some_iff.mp found
          exact trivial
      · rw [readValue, skip_cons rfl] at found
        dsimp only at found
        rw [if_neg (by decide), if_neg (by decide), if_pos rfl] at found
        split_ifs at found
        · rw [← Option.some.inj found]
          exact trivial
        · obtain ⟨_, -, found⟩ := Option.bind_eq_some_iff.mp found
          obtain ⟨_, -, rfl⟩ := Option.map_eq_some_iff.mp found
          exact trivial

end Cut

theorem toList_toString (n : Int) : (toString n).toList = writeInt n := by
  cases n with
  | ofNat n =>
      change (Nat.repr n).toList = _
      rw [Nat.toList_repr, writeInt]
  | negSucc n =>
      change ("-" ++ Nat.repr (n + 1)).toList = _
      rw [String.toList_append, Nat.toList_repr, writeInt]
      rfl

/-- A key that is nothing but a whole number. -/
def readKey (text : String) : Option Int :=
  (readNumber text.toList).bind fun r => match r with
    | (.int n, []) => some n
    | _ => none

/-- The writer and the reader as a pair. -/
def codec : JsonCodec where
  write := write
  value text := readValue (text.length + 1) depthLimit text
  key := readKey
  value_write j within := by
    have read := (reads ((write j).length + 1)).value depthLimit j [] within (Nat.le_succ _) nofun
    rwa [List.append_nil] at read
  value_nil := rfl
  value_more text j rest more read closed :=
    (goes _).value ((text ++ more).length + 1) depthLimit text j rest more (by rw [List.length_append]; omega) read (.inl closed)
  write_obj fields := by
    cases fields with
    | nil => rfl
    | cons f rest => rfl
  value_obj text j rest read := closed_of_bracket read (.inr rfl)
  key_toString n _ _ := by
    have read := readNumber_written n [] nofun
    rw [List.append_nil] at read
    rw [readKey, toList_toString, read]
    rfl

end JsonText
