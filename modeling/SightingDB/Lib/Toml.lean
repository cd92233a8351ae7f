import Mathlib.Data.List.Basic
import Mathlib.Data.List.TakeWhile
import Mathlib.Data.String.Basic
import Mathlib.Algebra.GroupWithZero.Nat
import Mathlib.Order.Lattice.Nat

/-!
The part of TOML that programs write for themselves: comments, blank lines, `[table]` and
`[[array]]` headers, and one `key = value` to a line. A key is bare or quoted. A value is a
basic string, a whole number, a truth value, an array of those or an inline table of those.
Lines end in a line feed. Everything else is refused.
-/
namespace Toml

inductive Scalar
  | str (text : String)
  | int (n : Int)
  | bool (b : Bool)
  deriving DecidableEq

inductive Value
  | scalar (s : Scalar)
  | array (items : List Scalar)
  | table (fields : List (String × Scalar))
  deriving DecidableEq

/-- What a document says under one name. -/
inductive Node
  | value (v : Value)
  | table (fields : List (String × Value))
  | array (items : List (List (String × Value)))
  deriving DecidableEq

abbrev Document := List (String × Node)

/-- Reads from the front of a text and leaves the rest. -/
abbrev Scanner (α : Type) := List Char → Option (α × List Char)

/-! ## Basic strings -/

def quoteMark : Char := '\x22'

def backslash : Char := '\x5c'

/-- The control characters no string or comment may hold: all but the tab. -/
def isControl (c : Char) : Bool := c.toNat ≤ 8 || (10 ≤ c.toNat && c.toNat ≤ 31) || c.toNat = 127

/-- The escapes that stand for one character. -/
def shortEscape (c : Char) : Option Char :=
  [('b', '\x08'), ('t', '\t'), ('n', '\n'), ('f', '\x0c'), ('r', '\x0d'), ('e', '\x1b'),
    (quoteMark, quoteMark), (backslash, backslash)].lookup c

/-- The escapes that name a code point, with their number of digits. -/
def longEscape (c : Char) : Option Nat := [('x', 2), ('u', 4), ('U', 8)].lookup c

def hexDigit (c : Char) : Option Nat :=
  if c.isDigit then some (c.toNat - 48)
  else if 'a' ≤ c ∧ c ≤ 'f' then some (c.toNat - 87)
  else if 'A' ≤ c ∧ c ≤ 'F' then some (c.toNat - 55)
  else none

/-- The character of a code point; surrogates have none. -/
def codePoint (n : Nat) : Option Char := if n.isValidChar then some (Char.ofNat n) else none

/-- Where a scanner stands in a basic string. -/
inductive Mode
  | text
  | escape
  | hex (left value : Nat)
  deriving DecidableEq

/-- The text up to the closing quote, escapes decoded. -/
def scan : Mode → Scanner (List Char)
  | _, [] => none
  | .text, c :: rest =>
      if c = quoteMark then some ([], rest)
      else if c = backslash then scan .escape rest
      else if isControl c then none
      else (scan .text rest).map fun r => (c :: r.1, r.2)
  | .escape, c :: rest =>
      match shortEscape c, longEscape c with
      | some d, _ => (scan .text rest).map fun r => (d :: r.1, r.2)
      | none, some digits => scan (.hex digits 0) rest
      | none, none => none
  | .hex left value, c :: rest =>
      match hexDigit c with
      | none => none
      | some d =>
          if 1 < left then scan (.hex (left - 1) (value * 16 + d)) rest
          else match codePoint (value * 16 + d) with
            | none => none
            | some e => (scan .text rest).map fun r => (e :: r.1, r.2)

/-! ## Values -/

def isBlank (c : Char) : Bool := c = ' ' || c = '\t'

def skip (cs : List Char) : List Char := cs.dropWhile isBlank

def isBare (c : Char) : Bool := c.isAlphanum || c = '_' || c = '-'

def key : Scanner String
  | [] => none
  | c :: rest =>
      if c = quoteMark then (scan .text rest).map fun r => (String.ofList r.1, r.2)
      else match (c :: rest).takeWhile isBare with
        | [] => none
        | name => some (String.ofList name, (c :: rest).dropWhile isBare)

/-- The value of decimal digits; a leading zero stands alone. -/
def natural (digits : List Char) : Option Nat :=
  match digits with
  | [] => none
  | c :: rest => if c = '0' && !rest.isEmpty then none else some (Nat.ofDigitChars 10 digits 0)

/-- A 64-bit signed integer. -/
def number (cs : List Char) : Option (Int × List Char) :=
  let (negative, body) := match cs with
    | '-' :: rest => (true, rest)
    | '+' :: rest => (false, rest)
    | _ => (false, cs)
  match natural (body.takeWhile Char.isDigit) with
  | none => none
  | some n =>
      let value : Int := if negative then - n else n
      if - 2 ^ 63 ≤ value ∧ value < 2 ^ 63 then some (value, body.dropWhile Char.isDigit) else none

def scalar (cs : List Char) : Option (Scalar × List Char) :=
  match cs with
  | 't' :: 'r' :: 'u' :: 'e' :: rest => some (.bool true, rest)
  | 'f' :: 'a' :: 'l' :: 's' :: 'e' :: rest => some (.bool false, rest)
  | [] => none
  | c :: rest =>
      if c = quoteMark then (scan .text rest).map fun r => (.str (String.ofList r.1), r.2)
      else (number (c :: rest)).map fun r => (.int r.1, r.2)

/-- `key = scalar` within an inline table. -/
def field (cs : List Char) : Option ((String × Scalar) × List Char) :=
  (key cs).bind fun k =>
    match skip k.2 with
    | '=' :: rest => (scalar (skip rest)).map fun v => ((k.1, v.1), v.2)
    | _ => none

/-- Items parted by commas, up to a closing character. -/
def listed {α : Type} (item : Scanner α) (close : Char) : Nat → Scanner (List α)
  | 0, _ => none
  | fuel + 1, cs =>
      match skip cs with
      | [] => none
      | c :: rest =>
          if c = close then some ([], rest)
          else (item (c :: rest)).bind fun x =>
            match skip x.2 with
            | [] => none
            | d :: after =>
                if d = close then some ([x.1], after)
                else if d = ',' then (listed item close fuel after).map fun xs => (x.1 :: xs.1, xs.2)
                else none

def value (cs : List Char) : Option (Value × List Char) :=
  match cs with
  | '[' :: rest => (listed scalar ']' cs.length rest).map fun r => (.array r.1, r.2)
  | '\x7b' :: rest => (listed field '\x7d' cs.length rest).bind fun r =>
      if (r.1.map Prod.fst).Nodup then some (.table r.1, r.2) else none
  | _ => (scalar cs).map fun r => (.scalar r.1, r.2)

/-! ## Lines and documents -/

inductive Line
  | blank
  | table (name : String)
  | array (name : String)
  | pair (key : String) (value : Value)
  deriving DecidableEq

/-- Nothing follows but blanks and a comment. -/
def ends (cs : List Char) : Bool :=
  match skip cs with
  | [] => true
  | c :: rest => c = '#' && rest.all fun d => !isControl d

/-- The name in a header, up to its closing brackets. -/
def header (close : List Char) (cs : List Char) : Option String :=
  (key (skip cs)).bind fun k =>
    if close.isPrefixOf (skip k.2) && ends ((skip k.2).drop close.length) then some k.1 else none

def line (cs : List Char) : Option Line :=
  match skip cs with
  | [] => some .blank
  | '#' :: rest => if rest.all fun d => !isControl d then some .blank else none
  | '[' :: '[' :: rest => (header [']', ']'] rest).map .array
  | '[' :: rest => (header [']'] rest).map .table
  | cs => (key cs).bind fun k =>
      match skip k.2 with
      | '=' :: rest => (value (skip rest)).bind fun v => if ends v.2 then some (.pair k.1 v.1) else none
      | _ => none

/-- A header with the pairs under it; the pairs before any header have none. -/
structure Section where
  header : Option Line
  pairs : List (String × Value)
  deriving DecidableEq

def sections (header : Option Line) (pairs : List (String × Value)) : List Line → List Section
  | [] => [⟨header, pairs⟩]
  | .blank :: rest => sections header pairs rest
  | .pair k v :: rest => sections header (pairs ++ [(k, v)]) rest
  | l :: rest => ⟨header, pairs⟩ :: sections (some l) [] rest

/-- No key is given twice, and no table is opened twice. -/
def Document.add (doc : Document) (s : Section) : Option Document :=
  if (s.pairs.map Prod.fst).Nodup then
    match s.header with
    | none => some (doc ++ s.pairs.map fun p => (p.1, .value p.2))
    | some (.table name) => if name ∈ doc.map Prod.fst then none else some (doc ++ [(name, .table s.pairs)])
    | some (.array name) => match doc.lookup name with
      | none => some (doc ++ [(name, .array [s.pairs])])
      | some (.array items) => some (doc.map fun p => if p.1 = name then (name, .array (items ++ [s.pairs])) else p)
      | some _ => none
    | some _ => none
  else none

def document (cs : List Char) : Option Document :=
  ((cs.splitOn '\n').mapM line).bind fun lines => (sections none [] lines).foldlM Document.add []

/-! ## Plain text -/

/-- Text that stands for itself between quotes. -/
def Plain (cs : List Char) : Prop := ∀ c ∈ cs, c ≠ quoteMark ∧ c ≠ backslash ∧ isControl c = false

instance (cs : List Char) : Decidable (Plain cs) := List.decidableBAll _ cs

section Scan

variable {m : Mode} {cs ds t r : List Char}

theorem scan_plain (plain : Plain cs) (rest : List Char) :
    scan .text (cs ++ quoteMark :: rest) = some (cs, rest) := by
  induction cs with
  | nil => simp [scan]
  | cons c cs ih =>
      obtain ⟨quote, slash, control⟩ := plain c (by simp)
      have later : Plain cs := fun d mem => plain d (by simp [mem])
      simp [scan, quote, slash, control, ih later]

/-- Without a backslash nothing is decoded. -/
theorem eq_of_scan (scanned : scan .text cs = some (t, r)) (straight : backslash ∉ cs) :
    cs = t ++ quoteMark :: r ∧ Plain t := by
  induction cs generalizing t with
  | nil => simp [scan] at scanned
  | cons c cs ih =>
      simp only [scan] at scanned
      split_ifs at scanned with quote slash control
      · obtain ⟨rfl, rfl⟩ : [] = t ∧ cs = r := by simpa using scanned
        simp [quote, Plain]
      · exact absurd (by simp [slash]) straight
      · obtain ⟨⟨t', r'⟩, inner, same⟩ := Option.map_eq_some_iff.mp scanned
        obtain ⟨rfl, rfl⟩ : c :: t' = t ∧ r' = r := by simpa using same
        obtain ⟨whole, plain⟩ := ih inner fun mem => straight (List.mem_cons_of_mem _ mem)
        refine ⟨by rw [whole]; rfl, fun d mem => ?_⟩
        rcases List.mem_cons.mp mem with rfl | later
        · exact ⟨quote, slash, by simpa using control⟩
        · exact plain d later

/-- What a text put between quotes is read as, if the closing quote is the one that was put. -/
def unquote (cs : List Char) : Option (List Char) :=
  match scan .text (cs ++ [quoteMark]) with
  | some (t, []) => some t
  | _ => none

theorem unquote_eq_some : unquote cs = some t ↔ scan .text (cs ++ [quoteMark]) = some (t, []) := by
  rw [unquote]
  split
  · rename_i t' found
    simp [found]
  · rename_i other
    exact ⟨nofun, fun found => absurd found (other t)⟩

theorem unquote_plain (plain : Plain cs) : unquote cs = some cs :=
  unquote_eq_some.mpr (scan_plain plain [])

/-- Without a backslash a text between quotes is read as itself or not at all. -/
theorem plain_of_unquote (read : unquote cs = some t) (straight : backslash ∉ cs) : t = cs ∧ Plain cs := by
  have off : backslash ∉ cs ++ [quoteMark] := by
    simp only [List.mem_append, List.mem_singleton, not_or]
    exact ⟨straight, by decide⟩
  obtain ⟨whole, plain⟩ := eq_of_scan (unquote_eq_some.mp read) off
  have same : cs = t := by simpa using whole
  exact ⟨same.symm, same ▸ plain⟩

/-- The ways one step of a scan can go on. -/
theorem scan_cons {c : Char} (scanned : scan m (c :: cs) = some (t, r)) :
    (m = .text ∧ c = quoteMark ∧ t = [] ∧ r = cs) ∨
    (m = .text ∧ c = backslash ∧ scan .escape cs = some (t, r)) ∨
    (∃ d t', (m = .text → d = c ∧ c ≠ quoteMark ∧ c ≠ backslash ∧ isControl c = false) ∧
      (m = .escape → (shortEscape c).isSome) ∧ (∀ left v, m = .hex left v → (hexDigit c).isSome) ∧
      t = d :: t' ∧ scan .text cs = some (t', r)) ∨
    (m = .escape ∧ (longEscape c).isSome ∧ ∃ left v, scan (.hex left v) cs = some (t, r)) ∨
    ((hexDigit c).isSome ∧ ∃ left v left' v', m = .hex left v ∧ scan (.hex left' v') cs = some (t, r)) := by
  have mapped : ∀ d, (scan .text cs).map (fun r => (d :: r.1, r.2)) = some (t, r) →
      ∃ t', t = d :: t' ∧ scan .text cs = some (t', r) := by
    intro d found
    obtain ⟨⟨t', r'⟩, inner, same⟩ := Option.map_eq_some_iff.mp found
    obtain ⟨rfl, rfl⟩ : d :: t' = t ∧ r' = r := by simpa using same
    exact ⟨t', rfl, inner⟩
  cases m with
  | text =>
      simp only [scan] at scanned
      split_ifs at scanned with quote slash control
      · obtain ⟨rfl, rfl⟩ : [] = t ∧ cs = r := by simpa using scanned
        exact .inl ⟨rfl, quote, rfl, rfl⟩
      · exact .inr (.inl ⟨rfl, slash, scanned⟩)
      · obtain ⟨t', rfl, inner⟩ := mapped c scanned
        exact .inr (.inr (.inl ⟨c, t', fun _ => ⟨rfl, quote, slash, by simpa using control⟩, nofun, nofun, rfl, inner⟩))
  | escape =>
      simp only [scan] at scanned
      split at scanned
      · rename_i d short
        obtain ⟨t', rfl, inner⟩ := mapped _ scanned
        exact .inr (.inr (.inl ⟨d, t', nofun, fun _ => by simp [short], nofun, rfl, inner⟩))
      · rename_i long
        exact .inr (.inr (.inr (.inl ⟨rfl, by simp [long], _, _, scanned⟩)))
      · cases scanned
  | hex left v =>
      simp only [scan] at scanned
      split at scanned
      · cases scanned
      · rename_i d digit
        split_ifs at scanned
        · exact .inr (.inr (.inr (.inr ⟨by simp [digit], _, _, _, _, rfl, scanned⟩)))
        · split at scanned
          · cases scanned
          · obtain ⟨t', rfl, inner⟩ := mapped _ scanned
            exact .inr (.inr (.inl ⟨_, t', nofun, nofun, fun _ _ _ => by simp [digit], rfl, inner⟩))

/-- A scan leaves an end of the text. -/
theorem scan_suffix (scanned : scan m cs = some (t, r)) : ∃ front, cs = front ++ r := by
  induction cs generalizing m t with
  | nil => cases m <;> simp [scan] at scanned
  | cons c cs ih =>
      have further : ∀ {m t}, scan m cs = some (t, r) → ∃ front, c :: cs = front ++ r := fun inner => by
        obtain ⟨front, rfl⟩ := ih inner
        exact ⟨c :: front, rfl⟩
      rcases scan_cons scanned with ⟨-, -, -, rfl⟩ | ⟨-, -, inner⟩ | ⟨_, _, -, -, -, -, inner⟩ |
        ⟨-, -, _, _, inner⟩ | ⟨-, _, _, _, _, -, inner⟩
      · exact ⟨[c], rfl⟩
      all_goals exact further inner

/-- Decoding never lengthens a text, and an escape shortens it, whichever characters are
counted so long as those that spell an escape are. -/
theorem scan_shortens {p : Char → Bool} (counted : ∀ c, c = backslash ∨ (shortEscape c).isSome ∨ (longEscape c).isSome ∨
      (hexDigit c).isSome → p c = true) (scanned : scan m cs = some (t, r)) :
    t.countP p + r.countP p + 1 ≤ cs.countP p ∧
      (m = .text → backslash ∈ cs → backslash ∉ r → t.countP p + r.countP p + 2 ≤ cs.countP p) := by
  induction cs generalizing m t with
  | nil => cases m <;> simp [scan] at scanned
  | cons c cs ih =>
      rcases scan_cons scanned with ⟨rfl, rfl, rfl, rfl⟩ | ⟨rfl, rfl, inner⟩ | ⟨d, t', plain, short, digit, rfl, inner⟩ |
        ⟨rfl, long, _, _, inner⟩ | ⟨digit, _, _, _, _, rfl, inner⟩
      · have quote : p quoteMark = true := counted quoteMark (.inr (.inl (by decide)))
        refine ⟨by simp [quote], fun _ mem off => ?_⟩
        rcases List.mem_cons.mp mem with same | later
        · exact absurd same (by decide)
        · exact absurd later off
      · have slash : p backslash = true := counted backslash (.inl rfl)
        have := (ih inner).1
        simp only [List.countP_cons, slash, if_true]
        exact ⟨by omega, fun _ _ _ => by omega⟩
      · obtain ⟨shorter, shortest⟩ := ih inner
        cases m with
        | text =>
            obtain ⟨rfl, quote, slash, -⟩ := plain rfl
            simp only [List.countP_cons]
            refine ⟨by omega, fun _ mem off => ?_⟩
            have := shortest rfl ((List.mem_cons.mp mem).resolve_left (Ne.symm slash)) off
            omega
        | escape =>
            have here : p c = true := counted c (.inr (.inl (short rfl)))
            simp only [List.countP_cons, here, if_true]
            have : (if p d = true then 1 else 0) ≤ 1 := by split_ifs <;> omega
            exact ⟨by omega, nofun⟩
        | hex left v =>
            have here : p c = true := counted c (.inr (.inr (.inr (digit _ _ rfl))))
            simp only [List.countP_cons, here, if_true]
            have : (if p d = true then 1 else 0) ≤ 1 := by split_ifs <;> omega
            exact ⟨by omega, nofun⟩
      · have := (ih inner).1
        simp only [List.countP_cons]
        exact ⟨by omega, nofun⟩
      · have := (ih inner).1
        simp only [List.countP_cons]
        exact ⟨by omega, nofun⟩

theorem unquote_shortens {p : Char → Bool} (counted : ∀ c, c = backslash ∨ (shortEscape c).isSome ∨ (longEscape c).isSome ∨
      (hexDigit c).isSome → p c = true) (read : unquote cs = some t) :
    t.countP p ≤ cs.countP p ∧ (backslash ∈ cs → t.countP p < cs.countP p) := by
  have quote : p quoteMark = true := counted quoteMark (.inr (.inl (by decide)))
  obtain ⟨shorter, shortest⟩ := scan_shortens counted (unquote_eq_some.mp read)
  simp only [List.countP_append, List.countP_cons, List.countP_nil, quote, if_true] at shorter shortest
  refine ⟨by omega, fun mem => ?_⟩
  have := shortest trivial (List.mem_append_left _ mem) (by simp)
  omega

/-- Characters that mean nothing to a string are read as themselves. -/
theorem unquote_append (plain : Plain cs) (ds : List Char) : unquote (cs ++ ds) = (unquote ds).map (cs ++ ·) := by
  have through : scan .text (cs ++ (ds ++ [quoteMark])) = (scan .text (ds ++ [quoteMark])).map fun r => (cs ++ r.1, r.2) := by
    induction cs with
    | nil => simp
    | cons c cs ih =>
        obtain ⟨quote, slash, control⟩ := plain c (by simp)
        have later : Plain cs := fun d mem => plain d (by simp [mem])
        simp [scan, quote, slash, control, ih later, Option.map_map, Function.comp_def]
  ext t
  rw [unquote_eq_some, List.append_assoc, through]
  simp only [Option.map_eq_some_iff, Prod.mk.injEq, Prod.exists, unquote_eq_some]
  constructor
  · rintro ⟨t', r, found, rfl, rfl⟩
    exact ⟨t', found, rfl⟩
  · rintro ⟨t', found, rfl⟩
    exact ⟨t', [], found, rfl, rfl⟩

end Scan

end Toml
