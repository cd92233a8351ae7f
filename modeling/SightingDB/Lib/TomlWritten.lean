import SightingDB.Lib.TomlTexts
import SightingDB.Lib.Numerals

/-!
What a program wrote line by line is read back: keys and strings that stand for themselves
between quotes, whole numbers that fit, lists, inline tables, and the lines of a file.
-/
namespace Toml

/-! ## Lines -/

section Lines

variable {cs ds t r v : List Char}

theorem skip_cons {c : Char} (here : isBlank c = false) : skip (c :: cs) = c :: cs := by simp [skip, here]

@[simp] theorem skip_space : skip (' ' :: cs) = skip cs := by simp [skip, isBlank]

@[simp] theorem skip_quote : skip (quoteMark :: cs) = quoteMark :: cs := skip_cons (by decide)

/-- What follows the equals sign of a line. -/
def ending (name v : List Char) : Option Line :=
  (value (skip v)).bind fun r => if ends r.2 then some (.pair (String.ofList name) r.1) else none

/-- A line that starts as neither a comment nor a header is a pair. -/
theorem line_pair {c : Char} (solid : isBlank c = false) (hash : c ≠ '#') (bracket : c ≠ '[') :
    line (c :: cs) = (key (c :: cs)).bind fun k =>
      match skip k.2 with
      | '=' :: rest => (value (skip rest)).bind fun v => if ends v.2 then some (.pair k.1 v.1) else none
      | _ => none := by
  rw [line, skip_cons solid]
  split
  · rename_i nothing
    cases nothing
  · rename_i same
    exact absurd (List.cons.inj same).1 hash
  · rename_i same
    exact absurd (List.cons.inj same).1 bracket
  · rename_i same
    exact absurd (List.cons.inj same).1 bracket
  · rfl

@[simp] theorem skip_equals : skip ('=' :: cs) = '=' :: cs := skip_cons (by decide)

/-- A line whose key is quoted. -/
theorem line_quoted (plain : Plain t) (v : List Char) :
    line (quoteMark :: (t ++ quoteMark :: ' ' :: '=' :: ' ' :: v)) = ending t v := by
  have quoted : key (quoteMark :: (t ++ quoteMark :: ' ' :: '=' :: ' ' :: v)) =
      some (String.ofList t, ' ' :: '=' :: ' ' :: v) := by
    simp [key, scan_plain plain]
  rw [line_pair (by decide) (by decide) (by decide), quoted, Option.bind_some]
  simp only [skip_space, skip_equals, ending]

/-- A control character between quotes cannot be read. -/
theorem scan_control (quote : quoteMark ∉ t) (slash : backslash ∉ t) (spoilt : ¬ Plain t) (rest : List Char) :
    scan .text (t ++ rest) = none := by
  induction t with
  | nil => exact absurd (fun c mem => by cases mem) spoilt
  | cons c t ih =>
      simp only [List.mem_cons, not_or] at quote slash
      by_cases control : isControl c = true
      · simp [scan, Ne.symm quote.1, Ne.symm slash.1, control]
      · have later : ¬ Plain t := fun plain => spoilt fun d mem => by
          rcases List.mem_cons.mp mem with rfl | member
          · exact ⟨Ne.symm quote.1, Ne.symm slash.1, by simpa using control⟩
          · exact plain d member
        simp [scan, Ne.symm quote.1, Ne.symm slash.1, control, ih quote.2 slash.2 later]

theorem line_control (quote : quoteMark ∉ t) (slash : backslash ∉ t) (spoilt : ¬ Plain t) (rest : List Char) :
    line (quoteMark :: (t ++ rest)) = none := by
  rw [line_pair (by decide) (by decide) (by decide)]
  simp [key, scan_control quote slash spoilt rest]

/-- A name that may be written without quotes. -/
def Bare (name : String) : Prop := name.toList ≠ [] ∧ name.toList.all isBare = true

theorem bare_head {name : String} (bare : Bare name) : ∃ c cs, name.toList = c :: cs ∧ isBare c = true := by
  obtain ⟨some_, all⟩ := bare
  cases shape : name.toList with
  | nil => exact absurd shape some_
  | cons c cs =>
      rw [shape, List.all_cons, Bool.and_eq_true] at all
      exact ⟨c, cs, rfl, all.1⟩

theorem bare_ne {c d : Char} (bare : isBare c = true) (not : isBare d = false) : c ≠ d := fun same => by
  rw [same, not] at bare
  cases bare

/-- A bare key is read up to what cannot be part of it. -/
theorem key_bare_stop {name : String} (bare : Bare name) {c : Char} (stop : isBare c = false) (rest : List Char) :
    key (name.toList ++ c :: rest) = some (name, c :: rest) := by
  have each : ∀ d ∈ name.toList, isBare d = true := List.all_eq_true.mp bare.2
  have take : (name.toList ++ c :: rest).takeWhile isBare = name.toList := by
    simp [List.takeWhile_append_of_pos each, stop]
  have drop : (name.toList ++ c :: rest).dropWhile isBare = c :: rest := by
    simp [List.dropWhile_append_of_pos each, stop]
  obtain ⟨d, cs, shape, first⟩ := bare_head bare
  rw [shape, List.cons_append] at take drop ⊢
  simp only [key, if_neg (bare_ne first (by decide : isBare quoteMark = false)), take, drop]
  rw [← shape, String.ofList_toList]

theorem key_bare {name : String} (bare : Bare name) (rest : List Char) :
    key (name.toList ++ ' ' :: rest) = some (name, ' ' :: rest) :=
  key_bare_stop bare (by decide) rest

/-- A line whose key is bare. -/
theorem line_bare {name : String} (bare : Bare name) (v : List Char) :
    line (name.toList ++ ' ' :: '=' :: ' ' :: v) = ending name.toList v := by
  obtain ⟨c, cs, shape, first⟩ := bare_head bare
  have named := key_bare bare ('=' :: ' ' :: v)
  have solid : isBlank c = false := by
    simp [isBlank, bare_ne first (by decide : isBare ' ' = false), bare_ne first (by decide : isBare '\t' = false)]
  rw [shape, List.cons_append] at named ⊢
  rw [line_pair solid (bare_ne first (by decide)) (bare_ne first (by decide)), named, Option.bind_some]
  simp only [skip_space, skip_equals, ending, ← shape, String.ofList_toList]

/-- A line whose value is a basic string. -/
theorem ending_string (name cs : List Char) : ending name (quoteMark :: cs) =
    (scan .text cs).bind fun r =>
      if ends r.2 then some (.pair (String.ofList name) (.scalar (.str (String.ofList r.1)))) else none := by
  rw [ending, skip_quote]
  have read : value (quoteMark :: cs) = (scan .text cs).map fun r => (.scalar (.str (String.ofList r.1)), r.2) := by
    simp [value, scalar, quoteMark, Option.map_map, Function.comp_def]
  rw [read]
  cases scan .text cs <;> rfl

@[simp] theorem ends_nil : ends [] = true := rfl

theorem ending_plain {name : List Char} (plain : Plain v) : ending name (quoteMark :: (v ++ [quoteMark])) =
    some (.pair (String.ofList name) (.scalar (.str (String.ofList v)))) := by
  simp [ending_string, scan_plain plain]

/-- Nothing but a comment may follow, so a text without one must be at its end. -/
theorem eq_nil_of_ends {c : Char} (solid : isBlank c = false) (off : '#' ∉ cs ++ [c]) (done : ends r = true)
    (end_ : ∃ front, cs ++ [c] = front ++ r) : r = [] := by
  obtain ⟨front, whole⟩ := end_
  by_contra some_
  have last : c ∈ r := by
    have at_ := congrArg List.getLast? whole
    rw [List.getLast?_append_of_ne_nil _ some_, List.getLast?_concat] at at_
    exact List.mem_of_getLast? at_.symm
  cases skipped : skip r with
  | nil =>
      have blank := List.dropWhile_eq_nil_iff.mp skipped c last
      rw [solid] at blank
      cases blank
  | cons d after =>
      simp only [ends, skipped, Bool.and_eq_true, decide_eq_true_eq] at done
      obtain ⟨rfl, -⟩ := done
      have member : '#' ∈ skip r := by simp [skipped]
      refine off ?_
      rw [whole]
      exact List.mem_append_right _ ((List.dropWhile_suffix isBlank).subset member)

theorem natural_toDigits (n : Nat) : natural (Nat.toDigits 10 n) = some n := by
  have back : Nat.ofDigitChars 10 (Nat.toDigits 10 n) 0 = n := Nat.ofDigitChars_ten_toDigits
  cases shape : Nat.toDigits 10 n with
  | nil => exact absurd shape Nat.toDigits_ne_nil
  | cons c more =>
      rw [shape] at back
      have leading : (c = '0' && !more.isEmpty) = false := by
        by_contra both
        obtain ⟨rfl, more_⟩ : c = '0' ∧ more.isEmpty = false := by simpa using both
        have : n = 0 := Numerals.head_toDigits (by simp [shape])
        subst this
        simp only [Nat.toDigits_zero, List.cons.injEq] at shape
        simp [← shape.2] at more_
      simp [natural, leading, back]

/-- The digits of a number are read back as the number, if it fits. -/
theorem number_digits (n : Nat) (rest : List Char) (stop : ∀ c ∈ rest.head?, c.isDigit = false) :
    number (Nat.toDigits 10 n ++ rest) = if n < 2 ^ 63 then some ((n : Int), rest) else none := by
  have digits : ∀ c ∈ Nat.toDigits 10 n, c.isDigit = true := fun c mem =>
    Nat.isDigit_of_mem_toDigits (by decide) (by decide) mem
  have take : (Nat.toDigits 10 n ++ rest).takeWhile Char.isDigit = Nat.toDigits 10 n := by
    rw [List.takeWhile_append_of_pos digits]
    cases rest with
    | nil => simp
    | cons c rest => simp [stop c (by simp)]
  have drop : (Nat.toDigits 10 n ++ rest).dropWhile Char.isDigit = rest := by
    rw [List.dropWhile_append_of_pos digits]
    cases rest with
    | nil => simp
    | cons c rest => simp [stop c (by simp)]
  have natural_ := natural_toDigits n
  rw [← take] at natural_
  have unsigned : ∀ c : Char, c.isDigit = false → (Nat.toDigits 10 n ++ rest).head? ≠ some c := by
    intro c no same
    rw [List.head?_append_of_ne_nil _ Nat.toDigits_ne_nil] at same
    have := digits c (List.mem_of_head? same)
    rw [no] at this
    cases this
  generalize Nat.toDigits 10 n ++ rest = text at *
  unfold number
  split
  rename_i negative body signed
  have plain : negative = false ∧ body = text := by
    split at signed
    · exact absurd rfl (unsigned '-' (by decide))
    · exact absurd rfl (unsigned '+' (by decide))
    · exact ⟨(Prod.mk.inj signed).1.symm, (Prod.mk.inj signed).2.symm⟩
  obtain ⟨rfl, rfl⟩ := plain
  rw [natural_]
  simp only [drop, Bool.false_eq_true, if_false]
  by_cases fits : n < 2 ^ 63
  · rw [if_pos fits, if_pos (by omega)]
  · rw [if_neg fits, if_neg (by omega)]

/-- A line whose value was put between quotes, with nothing in it that would start a comment. -/
theorem ending_quoted (name : List Char) (off : '#' ∉ cs) : ending name (quoteMark :: (cs ++ [quoteMark])) =
    (unquote cs).map fun t => .pair (String.ofList name) (.scalar (.str (String.ofList t))) := by
  have free : '#' ∉ cs ++ [quoteMark] := by
    simp only [List.mem_append, List.mem_singleton, not_or]
    exact ⟨off, by decide⟩
  rw [ending_string]
  cases scanned : scan .text (cs ++ [quoteMark]) with
  | none => simp [unquote, scanned]
  | some found =>
      obtain ⟨t, r⟩ := found
      rw [Option.bind_some, unquote, scanned]
      cases r with
      | nil => rfl
      | cons c r =>
          have open_ : ends (c :: r) = false := by
            by_contra done
            exact absurd (eq_nil_of_ends (by decide) free (by simpa using done) (scan_suffix scanned)) (by simp)
          simp [open_]

/-- The digits of a number, read as a value. -/
theorem scalar_digits {n : Nat} (fits : n < 2 ^ 63) (rest : List Char) (stop : ∀ c ∈ rest.head?, c.isDigit = false) :
    scalar (Nat.toDigits 10 n ++ rest) = some (.int n, rest) := by
  have read := number_digits n rest stop
  rw [if_pos fits] at read
  cases shape : Nat.toDigits 10 n with
  | nil => exact absurd shape Nat.toDigits_ne_nil
  | cons c more =>
      have first : c ∈ Nat.toDigits 10 n := by simp [shape]
      have digit : c.isDigit = true := Nat.isDigit_of_mem_toDigits (by decide) (by decide) first
      have off : ∀ d : Char, d.isDigit = false → c ≠ d := fun d no same => by
        rw [same, no] at digit
        cases digit
      rw [shape] at read
      rw [scalar.eq_def]
      split
      · rename_i same
        exact absurd (List.cons.inj same).1 (off 't' (by decide))
      · rename_i same
        exact absurd (List.cons.inj same).1 (off 'f' (by decide))
      · rename_i nothing
        cases nothing
      · rename_i d after _ _ same
        obtain rfl := (List.cons.inj same).1
        rw [if_neg (off quoteMark (by decide)), ← same, read]
        rfl

theorem scalar_quoted (plain : Plain cs) (rest : List Char) :
    scalar (quoted cs ++ rest) = some (.str (String.ofList cs), rest) := by
  have read : scan .text (cs ++ quoteMark :: rest) = some (cs, rest) := scan_plain plain rest
  have open_ : scalar (quoteMark :: (cs ++ quoteMark :: rest)) =
      (scan .text (cs ++ quoteMark :: rest)).map fun r => (.str (String.ofList r.1), r.2) := by
    simp [scalar, quoteMark]
  simpa [quoted, read] using open_

/-! ### Lists -/

theorem listed_space {α : Type} (item : Scanner α) (close : Char) (fuel : Nat) :
    listed item close fuel (' ' :: cs) = listed item close fuel cs := by
  cases fuel <;> simp [listed]

/-- What is written item by item, a comma and a space between, is read item by item. An item has
to be read in front of whatever may follow it: a comma, a blank or the closing character. -/
theorem listed_written {α : Type} {item : Scanner α} {close : Char} (solid : isBlank close = false)
    (comma : close ≠ ',') (write : α → List Char) (items : List α) {gap : List Char} (blank : ∀ c ∈ gap, c = ' ') (rest : List Char)
    (starts : ∀ x ∈ items, ∃ c cs, write x = c :: cs ∧ isBlank c = false ∧ c ≠ close)
    (reads : ∀ x ∈ items, ∀ rest, (∀ c ∈ rest.head?, c = ',' ∨ c = ' ' ∨ c = close) →
      item (write x ++ rest) = some (x, rest)) {fuel : Nat} (enough : items.length < fuel) :
    listed item close fuel ([',', ' '].intercalate (items.map write) ++ (gap ++ close :: rest)) = some (items, rest) := by
  have closing : skip (gap ++ close :: rest) = close :: rest := by
    have blanks : ∀ c ∈ gap, isBlank c = true := fun c mem => by rw [blank c mem]; rfl
    rw [skip, List.dropWhile_append_of_pos blanks]
    exact skip_cons solid
  have head : ∀ c ∈ (gap ++ close :: rest).head?, c = ',' ∨ c = ' ' ∨ c = close := by
    cases gap with
    | nil => simp
    | cons d gap => simp [blank d (by simp)]
  induction items generalizing fuel with
  | nil =>
      obtain ⟨fuel, rfl⟩ := Nat.exists_eq_succ_of_ne_zero (by omega : fuel ≠ 0)
      simp [listed, List.intercalate, closing]
  | cons x items ih =>
      obtain ⟨fuel, rfl⟩ := Nat.exists_eq_succ_of_ne_zero (by omega : fuel ≠ 0)
      obtain ⟨c, cs, shape, solidHere, open_⟩ := starts x (by simp)
      have read := reads x (by simp)
      rw [shape] at read
      cases items with
      | nil =>
          simp only [List.map_cons, List.map_nil, List.intercalate, List.intersperse, List.flatten_cons, List.flatten_nil,
            List.append_nil, shape, List.cons_append, listed, skip_cons solidHere, if_neg open_]
          have := read (gap ++ close :: rest) head
          rw [List.cons_append] at this
          simp [this, closing]
      | cons y items =>
          have later := ih (fun z mem => starts z (List.mem_cons_of_mem _ mem))
            (fun z mem => reads z (List.mem_cons_of_mem _ mem)) (by simpa using enough)
          have step : [',', ' '].intercalate ((x :: y :: items).map write) =
              write x ++ ',' :: ' ' :: [',', ' '].intercalate ((y :: items).map write) := by
            simp [List.intercalate]
          rw [step, shape]
          simp only [List.cons_append, List.append_assoc, listed, skip_cons solidHere, if_neg open_]
          have := read (',' :: ' ' :: ([',', ' '].intercalate ((y :: items).map write) ++ (gap ++ close :: rest))) (by simp)
          rw [List.cons_append] at this
          have parted : isBlank ',' = false := by decide
          rw [this, Option.bind_some]
          simp only [skip_cons parted, if_neg (Ne.symm comma), if_true, listed_space, later, Option.map_some]

/-! ### Values -/

/-- A scalar as a program writes it. -/
def Scalar.written : Scalar → List Char
  | .str t => quoted t.toList
  | .int n => Nat.toDigits 10 n.toNat
  | .bool true => ['t', 'r', 'u', 'e']
  | .bool false => ['f', 'a', 'l', 's', 'e']

/-- A scalar that can be written as it stands. -/
def Scalar.Plain : Scalar → Prop
  | .str t => Toml.Plain t.toList
  | .int n => 0 ≤ n ∧ n < 2 ^ 63
  | .bool _ => True

theorem Scalar.written_ne_nil (s : Scalar) : s.written ≠ [] := by
  cases s with
  | str t => simp [written, quoted]
  | int n => exact Nat.toDigits_ne_nil
  | bool b => cases b <;> simp [written]

/-- A scalar starts with a quote, a digit or a letter. -/
theorem Scalar.head_written {s : Scalar} {c : Char} (first : s.written.head? = some c) :
    c = quoteMark ∨ c.isAlphanum = true := by
  cases s with
  | str t =>
      left
      simpa [written, quoted] using first.symm
  | int n =>
      have mem : c ∈ Nat.toDigits 10 n.toNat := List.mem_of_mem_head? first
      have digit : c.isDigit = true := Nat.isDigit_of_mem_toDigits (by decide) (by decide) mem
      exact .inr (by simp [Char.isAlphanum, digit])
  | bool b =>
      right
      cases b
      · obtain rfl : 'f' = c := by simpa [written] using first
        decide
      · obtain rfl : 't' = c := by simpa [written] using first
        decide

theorem scalar_written {s : Scalar} (plain : s.Plain) (rest : List Char) (stop : ∀ c ∈ rest.head?, c.isDigit = false) :
    scalar (s.written ++ rest) = some (s, rest) := by
  cases s with
  | str t => simpa [Scalar.written] using scalar_quoted plain rest
  | int n =>
      obtain ⟨positive, fits⟩ := plain
      have read := scalar_digits (n := n.toNat) (by omega) rest stop
      rwa [Int.toNat_of_nonneg positive] at read
  | bool b => cases b <;> rfl

/-- A bare key and its scalar, in an inline table. -/
def fieldWritten (f : String × Scalar) : List Char := f.1.toList ++ ' ' :: '=' :: ' ' :: f.2.written

theorem solid_of_alphanum {c : Char} (letter : c.isAlphanum = true) : isBlank c = false := by
  have off : ∀ d : Char, d.isAlphanum = false → c ≠ d := fun d not same => by
    rw [same, not] at letter
    cases letter
  simp [isBlank, off ' ' (by decide), off '\t' (by decide)]

theorem skip_scalar (s : Scalar) (rest : List Char) : skip (s.written ++ rest) = s.written ++ rest := by
  cases shape : s.written with
  | nil => exact absurd shape s.written_ne_nil
  | cons c cs =>
      refine skip_cons ?_
      rcases s.head_written (c := c) (by simp [shape]) with rfl | letter
      · decide
      · exact solid_of_alphanum letter

theorem field_written {f : String × Scalar} (bare : Bare f.1) (plain : f.2.Plain) (rest : List Char)
    (stop : ∀ c ∈ rest.head?, c.isDigit = false) : field (fieldWritten f ++ rest) = some (f, rest) := by
  have read := scalar_written plain rest stop
  simp only [field, fieldWritten, List.append_assoc, List.cons_append, key_bare bare, Option.bind_some, skip_space,
    skip_equals, skip_scalar, read, Option.map_some]

/-- A value as a program writes it. -/
def Value.written : Value → List Char
  | .scalar s => s.written
  | .array items => '[' :: ([',', ' '].intercalate (items.map Scalar.written) ++ [']'])
  | .table fields => '\x7b' :: ' ' :: ([',', ' '].intercalate (fields.map fieldWritten) ++ [' ', '\x7d'])

/-- A value that can be written as it stands. -/
def Value.Plain : Value → Prop
  | .scalar s => s.Plain
  | .array items => ∀ s ∈ items, s.Plain
  | .table fields => (fields.map Prod.fst).Nodup ∧ ∀ f ∈ fields, Bare f.1 ∧ f.2.Plain

theorem length_le_intercalate {α : Type} {write : α → List Char} (sep : List Char) {items : List α}
    (some_ : ∀ x ∈ items, write x ≠ []) : items.length ≤ (sep.intercalate (items.map write)).length := by
  induction items with
  | nil => simp
  | cons x items ih =>
      have here : 0 < (write x).length := List.length_pos_iff.mpr (some_ x (by simp))
      have later := ih fun y mem => some_ y (List.mem_cons_of_mem _ mem)
      cases items with
      | nil =>
          simp only [List.length_singleton, List.map_singleton, List.intercalate_singleton]
          omega
      | cons y items =>
          have step : sep.intercalate ((x :: y :: items).map write) =
              write x ++ (sep ++ sep.intercalate ((y :: items).map write)) := by
            simp [List.intercalate]
          rw [step]
          simp only [List.length_append, List.length_cons] at later ⊢
          omega

theorem value_written {v : Value} (plain : v.Plain) (rest : List Char) (stop : ∀ c ∈ rest.head?, c.isDigit = false) :
    value (v.written ++ rest) = some (v, rest) := by
  cases v with
  | scalar s =>
      have read := scalar_written plain rest stop
      have off : ∀ c ∈ (s.written ++ rest).head?, c ≠ '[' ∧ c ≠ '\x7b' := by
        intro c first
        rw [List.head?_append_of_ne_nil _ s.written_ne_nil] at first
        rcases s.head_written first with rfl | letter
        · decide
        · constructor <;>
          · rintro rfl
            exact absurd letter (by decide)
      rw [Value.written, value.eq_def]
      generalize s.written ++ rest = cs at read off
      split
      · exact absurd rfl (off '[' (by simp)).1
      · exact absurd rfl (off '\x7b' (by simp)).2
      · rw [read]
        rfl
  | array items =>
      have read := @listed_written _ scalar ']' (by decide) (by decide) Scalar.written items [] (by simp) rest
        (fun s _ => by
          cases shape : s.written with
          | nil => exact absurd shape s.written_ne_nil
          | cons c cs =>
              refine ⟨c, cs, rfl, ?_, ?_⟩
              · rcases s.head_written (c := c) (by simp [shape]) with rfl | letter
                · decide
                · exact solid_of_alphanum letter
              · rcases s.head_written (c := c) (by simp [shape]) with rfl | letter
                · decide
                · rintro rfl
                  exact absurd letter (by decide))
        (fun s mem rest next => scalar_written (plain s mem) rest fun c first => by
          rcases next c first with rfl | rfl | rfl <;> decide)
        (Value.written (.array items) ++ rest).length (by
          have short := @length_le_intercalate _ Scalar.written [',', ' '] items
            fun s _ => s.written_ne_nil
          simp only [Value.written, List.cons_append, List.length_cons, List.length_append]
          omega)
      rw [value.eq_def]
      simp only [Value.written, List.cons_append, List.append_assoc, List.nil_append] at read ⊢
      simp only [read, Option.map_some]
  | table fields =>
      obtain ⟨apart, each⟩ := plain
      have read := @listed_written _ field '\x7d' (by decide) (by decide) fieldWritten fields [' '] (by simp) rest
        (fun f mem => by
          obtain ⟨c, cs, shape, first⟩ := bare_head (each f mem).1
          refine ⟨c, cs ++ ' ' :: '=' :: ' ' :: f.2.written, by simp [fieldWritten, shape], ?_, ?_⟩
          · simp [isBlank, bare_ne first (by decide : isBare ' ' = false), bare_ne first (by decide : isBare '\t' = false)]
          · exact bare_ne first (by decide))
        (fun f mem rest next => field_written (each f mem).1 (each f mem).2 rest fun c first => by
          rcases next c first with rfl | rfl | rfl <;> decide)
        (Value.written (.table fields) ++ rest).length (by
          have short := @length_le_intercalate _ fieldWritten [',', ' '] fields
            fun f _ => by simp [fieldWritten]
          simp only [Value.written, List.cons_append, List.length_cons, List.length_append]
          omega)
      rw [value.eq_def]
      simp only [Value.written, List.cons_append, List.append_assoc, List.nil_append, List.length_cons] at read ⊢
      simp only [listed_space, read, Option.bind_some, apart, if_true]

theorem ending_written {name : List Char} {v : Value} (plain : v.Plain) :
    ending name v.written = some (.pair (String.ofList name) v) := by
  have read := value_written plain [] (by simp)
  have solid : skip v.written = v.written := by
    cases v with
    | scalar s => simpa [Value.written] using skip_scalar s []
    | array items => exact skip_cons (by decide)
    | table fields => exact skip_cons (by decide)
  rw [List.append_nil] at read
  simp [ending, solid, read]

/-- A pair on a line of its own, its key between quotes. -/
def pairWritten (p : String × Value) : List Char :=
  quoteMark :: (p.1.toList ++ quoteMark :: ' ' :: '=' :: ' ' :: p.2.written)

theorem line_pairWritten {p : String × Value} (key : Plain p.1.toList) (value : p.2.Plain) :
    line (pairWritten p) = some (.pair p.1 p.2) := by
  rw [pairWritten, line_quoted key, ending_written value, String.ofList_toList]

/-- A pair on a line of its own, its key bare. -/
def bareWritten (p : String × Value) : List Char := p.1.toList ++ ' ' :: '=' :: ' ' :: p.2.written

theorem line_bareWritten {p : String × Value} (key : Bare p.1) (value : p.2.Plain) :
    line (bareWritten p) = some (.pair p.1 p.2) := by
  rw [bareWritten, line_bare key, ending_written value, String.ofList_toList]

theorem feed_not_mem {cs : List Char} (plain : Plain cs) : '\n' ∉ cs := fun mem =>
  absurd (plain _ mem).2.2 (by decide)

theorem Scalar.single {s : Scalar} (plain : s.Plain) : '\n' ∉ s.written := by
  cases s with
  | str t =>
      have := @feed_not_mem t.toList plain
      simp [written, quoted, quoteMark, this]
  | int n => exact fun mem => absurd (Nat.isDigit_of_mem_toDigits (by decide) (by decide) mem) (by decide)
  | bool b => cases b <;> decide

theorem mem_intercalate {sep : List Char} {parts : List (List Char)} {c : Char} (mem : c ∈ sep.intercalate parts) :
    c ∈ sep ∨ ∃ p ∈ parts, c ∈ p := by
  induction parts with
  | nil => simp at mem
  | cons p parts ih =>
      cases parts with
      | nil => exact .inr ⟨p, by simp, by simpa using mem⟩
      | cons q parts =>
          have step : sep.intercalate (p :: q :: parts) = p ++ (sep ++ sep.intercalate (q :: parts)) := by
            simp [List.intercalate]
          rw [step, List.mem_append, List.mem_append] at mem
          rcases mem with here | gap | later
          · exact .inr ⟨p, by simp, here⟩
          · exact .inl gap
          · exact (ih later).imp id fun ⟨r, member, at_⟩ => ⟨r, List.mem_cons_of_mem _ member, at_⟩

/-- Nothing that is written as it stands spreads over two lines. -/
theorem Value.single {v : Value} (plain : v.Plain) : '\n' ∉ v.written := by
  cases v with
  | scalar s => exact Scalar.single plain
  | array items =>
      have inside : '\n' ∉ [',', ' '].intercalate (items.map Scalar.written) := fun mem => by
        rcases mem_intercalate mem with sep | ⟨_, part, at_⟩
        · exact absurd sep (by decide)
        · obtain ⟨s, here, rfl⟩ := List.mem_map.mp part
          exact Scalar.single (plain s here) at_
      simp [written, inside]
  | table fields =>
      have inside : '\n' ∉ [',', ' '].intercalate (fields.map fieldWritten) := fun mem => by
        rcases mem_intercalate mem with sep | ⟨_, part, at_⟩
        · exact absurd sep (by decide)
        · obtain ⟨f, here, rfl⟩ := List.mem_map.mp part
          obtain ⟨bare, value⟩ := plain.2 f here
          have name : '\n' ∉ f.1.toList := fun at_ => absurd (List.all_eq_true.mp bare.2 _ at_) (by decide)
          simp [fieldWritten, name, Scalar.single value] at at_
      simp [written, inside]

theorem pairWritten_single {p : String × Value} (key : Plain p.1.toList) (value : p.2.Plain) : '\n' ∉ pairWritten p := by
  simp [pairWritten, feed_not_mem key, Value.single value, quoteMark]

theorem bareWritten_single {p : String × Value} (key : Bare p.1) (value : p.2.Plain) : '\n' ∉ bareWritten p := by
  have name : '\n' ∉ p.1.toList := fun mem => absurd (List.all_eq_true.mp key.2 _ mem) (by decide)
  simp [bareWritten, name, Value.single value]

/-! ### Documents -/

/-- Lines, each ended by a line feed. -/
def unlines (lines : List (List Char)) : List Char := lines.flatMap (· ++ ['\n'])

theorem splitOn_unlines {lines : List (List Char)} (free : ∀ l ∈ lines, '\n' ∉ l) :
    (unlines lines).splitOn '\n' = lines ++ [[]] := by
  induction lines with
  | nil => rfl
  | cons l lines ih =>
      have first : '\n' ∉ l := free l (by simp)
      have rest := ih fun m mem => free m (by simp [mem])
      simp only [unlines] at rest ⊢
      rw [List.flatMap_cons, List.append_assoc, List.singleton_append,
        List.splitOn_append_cons_self_of_not_mem first, rest]
      rfl

/-- A document is what its lines say. -/
theorem document_unlines {lines : List (List Char)} (free : ∀ l ∈ lines, '\n' ∉ l) :
    document (unlines lines) = (lines.mapM line).bind fun read =>
      (sections none [] (read ++ [.blank])).foldlM Document.add [] := by
  have last : [([] : List Char)].mapM line = some [.blank] := rfl
  rw [document, splitOn_unlines free, List.mapM_append, last]
  cases lines.mapM line <;> rfl

/-- The pairs under a header are those up to the next one. -/
theorem sections_pairs (h : Option Line) (ps qs : List (String × Value)) (rest : List Line) :
    sections h ps (qs.map (fun p => .pair p.1 p.2) ++ rest) = sections h (ps ++ qs) rest := by
  induction qs generalizing ps with
  | nil => simp
  | cons q qs ih => simp [sections, ih]

theorem sections_blanks (h : Option Line) (ps : List (String × Value)) (n : Nat) (rest : List Line) :
    sections h ps (List.replicate n .blank ++ rest) = sections h ps rest := by
  induction n with
  | zero => rfl
  | succ n ih => simpa [List.replicate_succ, sections] using ih

/-- Pairs at the front of a document, and a table after them. -/
theorem document_table (name : String) (ps qs : List (String × Value)) (n k : Nat)
    (apart : (ps.map Prod.fst).Nodup) (fresh : name ∉ ps.map Prod.fst) (nodup : (qs.map Prod.fst).Nodup) :
    (sections none [] (List.replicate n .blank ++ (ps.map (fun p => .pair p.1 p.2) ++ (List.replicate k .blank ++
      (.table name :: (qs.map (fun p => .pair p.1 p.2) ++ [.blank])))))).foldlM Document.add [] =
      some (ps.map (fun p => (p.1, .value p.2)) ++ [(name, .table qs)]) := by
  have absent : ∀ v, (name, v) ∉ ps := fun v mem => fresh (List.mem_map_of_mem mem)
  rw [sections_blanks, sections_pairs, sections_blanks]
  simp only [sections, sections_pairs]
  simp [List.foldlM, Document.add, apart, nodup, absent]

/-- Tables of one array, each with its pairs and a blank line after them. -/
theorem sections_arrays (h : Option Line) (ps : List (String × Value)) (name : String)
    (tables : List (List (String × Value))) :
    sections h ps (tables.flatMap (fun qs => .array name :: (qs.map (fun p => .pair p.1 p.2) ++ [.blank])) ++ [.blank]) =
      ⟨h, ps⟩ :: tables.map (⟨some (.array name), ·⟩) := by
  induction tables generalizing h ps with
  | nil => rfl
  | cons qs tables ih =>
      simp only [List.flatMap_cons, List.cons_append, List.append_assoc, sections, sections_pairs, List.nil_append,
        List.map_cons]
      rw [ih]

theorem foldlM_add_arrays {name : String} (tables old : List (List (String × Value)))
    (nodup : ∀ qs ∈ tables, (qs.map Prod.fst).Nodup) :
    (tables.map (⟨some (.array name), ·⟩ : _ → Section)).foldlM Document.add [(name, .array old)] =
      some [(name, .array (old ++ tables))] := by
  induction tables generalizing old with
  | nil => simp
  | cons qs tables ih =>
      have here := nodup qs (by simp)
      have step : Document.add [(name, .array old)] ⟨some (.array name), qs⟩ = some [(name, .array (old ++ [qs]))] := by
        simp [Document.add, here]
      rw [List.map_cons, List.foldlM_cons, step, Option.bind_eq_bind, Option.bind_some,
        ih _ fun q mem => nodup q (List.mem_cons_of_mem _ mem)]
      simp

/-- A document that is one array of tables. -/
theorem document_arrays (name : String) (tables : List (List (String × Value))) (n : Nat)
    (nodup : ∀ qs ∈ tables, (qs.map Prod.fst).Nodup) :
    (sections none [] (List.replicate n .blank ++
      (tables.flatMap (fun qs => .array name :: (qs.map (fun p => .pair p.1 p.2) ++ [.blank])) ++ [.blank]))).foldlM
        Document.add [] = some (if tables.isEmpty then [] else [(name, .array tables)]) := by
  rw [sections_blanks, sections_arrays]
  cases tables with
  | nil => rfl
  | cons first others =>
      have start : Document.add [] ⟨none, []⟩ = some [] := rfl
      have opened : Document.add [] ⟨some (.array name), first⟩ = some [(name, .array [first])] := by
        simp [Document.add, nodup first (by simp)]
      rw [List.foldlM_cons, start, Option.bind_eq_bind, Option.bind_some, List.map_cons, List.foldlM_cons, opened,
        Option.bind_eq_bind, Option.bind_some, foldlM_add_arrays _ _ fun q mem => nodup q (List.mem_cons_of_mem _ mem)]
      rfl

end Lines

end Toml
