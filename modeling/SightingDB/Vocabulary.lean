import SightingDB.Text
import SightingDB.Lib.OrderedMap
import SightingDB.Lib.TomlTables
import Mathlib.Data.List.MinMax

/-!
The tag vocabulary and its file. Descriptions are escaped when they are written, names are put
between quotes as they stand.
-/
namespace SightingDB

/-- One tag's presentation. -/
structure Tag where
  colour : String
  description : String
  deriving DecidableEq

abbrev Vocabulary := OrderedMap String Tag

namespace Vocabulary

def isHexDigit (c : Char) : Bool := c.isDigit || ('a' ≤ c && c ≤ 'f') || ('A' ≤ c && c ≤ 'F')

def validateColour (colour : String) : Except String Unit :=
  match stripStart colour "#" with
  | none => .error "a colour starts with '#'"
  | some hex =>
      if hex.utf8ByteSize ≠ 3 ∧ hex.utf8ByteSize ≠ 6 then .error "a colour is #rgb or #rrggbb"
      else if !hex.toList.all isHexDigit then .error "a colour is hexadecimal"
      else .ok ()

def validate (name colour : String) : Except String Unit :=
  if name = "" then .error "a tag needs a name"
  else if 128 < name.utf8ByteSize then .error "a tag name is at most 128 characters"
  else if ',' ∈ name.toList then .error "a tag cannot contain a comma, which is what separates tags"
  else if trim name ≠ name then .error "a tag cannot start or end with a space"
  else if name.toList.any isControlChar then .error "a tag cannot contain control characters"
  else validateColour colour

/-- A colour that validates is ASCII. -/
def normaliseColour (colour : String) : String := asciiLowercase (trim colour)

/-- Define or redefine one tag. -/
def set (vocabulary : Vocabulary) (name colour description : String) : Except String Vocabulary :=
  let name := trim name
  match validate name colour with
  | .error e => .error e
  | .ok () => .ok (vocabulary.insert name ⟨normaliseColour colour, trim description⟩)

/-- Forget a tag's presentation. -/
def remove (vocabulary : Vocabulary) (name : String) : Except String Vocabulary :=
  if vocabulary.contains (trim name) then .ok (vocabulary.erase (trim name))
  else .error "No such tag in the vocabulary."

/-! ## The file -/

def fileHeader : List String :=
  ["# Written by the SightingDB management interface. Comments added",
    "# here are replaced the next time a tag is saved.",
    "#",
    "# A name ending in ':' colours a whole family, so \"tlp:\" would",
    "# cover every tlp: tag at once.",
    ""]

def escape (description : String) : String :=
  replaceChar '\x22' (replaceChar '\x5c' description "\\\\") "\\\""

/-- The lines of one tag. -/
def fileLines (name : String) (tag : Tag) : List String :=
  ["[tags.\"" ++ name ++ "\"]", "colour = \"" ++ tag.colour ++ "\""] ++
    (if tag.description = "" then [] else ["description = \"" ++ escape tag.description ++ "\""]) ++ [""]

def toToml (vocabulary : Vocabulary) : String :=
  let lines := fileHeader ++ vocabulary.entries.flatMap fun e => fileLines e.1 e.2
  String.ofList (Toml.unlines (lines.map String.toList))

/-- A tag needs a colour, and its description defaults to nothing. -/
def tagOf (at_ : String → Toml.Found) : Option Tag :=
  match at_ "colour", at_ "description" with
  | .value (.scalar (.str colour)), .absent => some ⟨colour, ""⟩
  | .value (.scalar (.str colour)), .value (.scalar (.str description)) => some ⟨colour, description⟩
  | _, _ => none

def tagAt (tables : List Toml.Table) (name : String) : Option Tag :=
  match Toml.look tables ["tags"] name with
  | .table => tagOf (Toml.look tables ["tags", name])
  | .value (.table fields) => tagOf fun k => match fields.lookup k with
    | none => .absent
    | some s => .value (.scalar s)
  | _ => none

/-- The `TagFile` a document is read as. -/
def tagFile (tables : List Toml.Table) : Option (List (String × Tag)) :=
  match Toml.look tables [] "tags" with
  | .absent | .value (.table []) => some []
  | .table => (Toml.keysOf tables ["tags"]).mapM fun name => (tagAt tables name).map (name, ·)
  | _ => none

/-- An entry that does not validate is left out. -/
def takeTag (vocabulary : Vocabulary) (e : String × Tag) : Vocabulary :=
  match validate e.1 e.2.colour with
  | .ok () => vocabulary.insert e.1 e.2
  | .error _ => vocabulary

/-- Read a vocabulary file. -/
def fromToml (text : String) : Option Vocabulary :=
  ((Toml.tables text.toList).bind tagFile).map fun tags => tags.foldl takeTag ∅

/-- The vocabularies there can be: none, one that was read, and what accepted changes make of them. -/
inductive Reached : Vocabulary → Prop
  | empty : Reached ∅
  | loaded {text : String} {vocabulary : Vocabulary} (read : fromToml text = some vocabulary) : Reached vocabulary
  | set {before after : Vocabulary} {name colour description : String} (reached : Reached before)
      (accepted : before.set name colour description = .ok after) : Reached after
  | remove {before after : Vocabulary} {name : String} (reached : Reached before)
      (accepted : before.remove name = .ok after) : Reached after

/-- Every tag has a usable name and colour. -/
def Valid (vocabulary : Vocabulary) : Prop := ∀ e ∈ vocabulary.entries, validate e.1 e.2.colour = .ok ()

/-- No name means anything to a TOML string, and no description has a control character other
than the tab. -/
def Plain (vocabulary : Vocabulary) : Prop :=
  ∀ e ∈ vocabulary.entries, (Toml.quoteMark ∉ e.1.toList ∧ Toml.backslash ∉ e.1.toList) ∧
    ∀ c ∈ e.2.description.toList, Toml.isControl c = false

instance (vocabulary : Vocabulary) : Decidable vocabulary.Plain :=
  inferInstanceAs (Decidable (∀ e ∈ vocabulary.entries, _))

/-! ## What validates -/

section Valid

variable {name colour : String} {vocabulary : Vocabulary}

theorem validate_eq (valid : validate name colour = .ok ()) :
    (name ≠ "" ∧ name.utf8ByteSize ≤ 128 ∧ ',' ∉ name.toList ∧ trim name = name ∧
      ∀ c ∈ name.toList, isControlChar c = false) ∧ validateColour colour = .ok () := by
  rw [validate] at valid
  split_ifs at valid with empty long comma spaces control
  refine ⟨⟨empty, by omega, comma, not_not.mp spaces, fun c mem => ?_⟩, valid⟩
  simpa using List.any_eq_false.mp (Bool.not_eq_true _ ▸ control) c mem

theorem validate_of_colour (named : validate name colour = .ok ()) {colour' : String}
    (valid : validateColour colour' = .ok ()) : validate name colour' = .ok () := by
  rw [validate] at named ⊢
  split_ifs at named ⊢
  exact valid

/-- What holds of the first 128 characters holds of every hexadecimal digit. -/
theorem of_isHexDigit {P : Char → Bool} (each : ∀ n : Fin 128, (!isHexDigit (Char.ofNat n) || P (Char.ofNat n)) = true)
    {c : Char} (digit : isHexDigit c = true) : P c = true := by
  have small : c.toNat < 128 := by
    have bounds := digit
    simp only [isHexDigit, Char.isDigit, Bool.or_eq_true, Bool.and_eq_true, decide_eq_true_eq, Char.le_def, ge_iff_le,
      UInt32.le_iff_toNat_le] at bounds
    have whole : c.toNat = c.val.toNat := rfl
    simp at bounds
    omega
  have here := each ⟨c.toNat, small⟩
  rw [Fin.val_mk, Char.ofNat_toNat, digit, Bool.not_true, Bool.false_or] at here
  exact here

theorem utf8Len_map {f : Char → Char} {cs : List Char} (same : ∀ c ∈ cs, (f c).utf8Size = c.utf8Size) :
    String.utf8Len (cs.map f) = String.utf8Len cs := by
  induction cs with
  | nil => rfl
  | cons c cs ih =>
      rw [List.map_cons, String.utf8Len_cons, String.utf8Len_cons, same c (by simp),
        ih fun d mem => same d (List.mem_cons_of_mem _ mem)]

/-- A colour that validates is a hash and hexadecimal digits. -/
theorem validateColour_eq (valid : validateColour colour = .ok ()) :
    ∃ hex : List Char, colour.toList = '#' :: hex ∧ hex.all isHexDigit = true ∧
      ∀ hex' : List Char, String.utf8Len hex' = String.utf8Len hex → hex'.all isHexDigit = true →
        validateColour (String.ofList ('#' :: hex')) = .ok () := by
  have start : ("#" : String).toList = ['#'] := rfl
  rw [validateColour] at valid
  split at valid
  · cases valid
  · rename_i hex stripped
    rw [stripStart, startsWith, start] at stripped
    split_ifs at stripped with first
    split_ifs at valid with size digits
    obtain ⟨rest, whole⟩ := List.isPrefixOf_iff_prefix.mp first
    rw [← whole] at stripped
    obtain rfl : String.ofList rest = hex := by simpa using stripped
    refine ⟨rest, whole.symm, by simpa using digits, fun hex' same all => ?_⟩
    have again : stripStart (String.ofList ('#' :: hex')) "#" = some (String.ofList hex') := by
      simp [stripStart, startsWith, start]
    rw [validateColour, again]
    dsimp only
    rw [String.utf8ByteSize_ofList] at size ⊢
    rw [same, if_neg size, String.toList_ofList, all]
    rfl

theorem validateColour_normalised (valid : validateColour colour = .ok ()) :
    validateColour (normaliseColour colour) = .ok () := by
  obtain ⟨hex, whole, digits, spelled⟩ := validateColour_eq valid
  have digit : ∀ c ∈ hex, isHexDigit c = true := List.all_eq_true.mp digits
  have solid : trim colour = colour := trim_of_solid fun c mem => by
    rw [whole] at mem
    rcases List.mem_cons.mp mem with rfl | mem
    · decide
    · simpa using of_isHexDigit (P := fun c => !isWhitespace c) (by decide +kernel) (digit c mem)
  have lower : normaliseColour colour = String.ofList ('#' :: hex.map Char.toLower) := by
    rw [normaliseColour, solid, asciiLowercase, whole]
    rfl
  rw [lower]
  refine spelled _ (utf8Len_map fun c mem => ?_) (List.all_eq_true.mpr fun c mem => ?_)
  · simpa using of_isHexDigit (P := fun c => c.toLower.utf8Size == c.utf8Size) (by decide +kernel) (digit c mem)
  · obtain ⟨d, here, rfl⟩ := List.mem_map.mp mem
    exact of_isHexDigit (P := fun c => isHexDigit c.toLower) (by decide +kernel) (digit d here)

theorem plain_of_validateColour (valid : validateColour colour = .ok ()) : Toml.Plain colour.toList := by
  obtain ⟨hex, whole, digits, -⟩ := validateColour_eq valid
  rw [whole]
  intro c mem
  rcases List.mem_cons.mp mem with rfl | mem
  · decide
  · simpa using of_isHexDigit (P := fun c => decide (c ≠ Toml.quoteMark ∧ c ≠ Toml.backslash ∧ Toml.isControl c = false))
      (by decide +kernel) (List.all_eq_true.mp digits c mem)

/-- What is read from a file validates. -/
theorem valid_of_fromToml {text : String} (read : fromToml text = some vocabulary) : vocabulary.Valid := by
  rw [fromToml] at read
  obtain ⟨tags, -, rfl⟩ := Option.map_eq_some_iff.mp read
  have kept : ∀ (tags : List (String × Tag)) (start : Vocabulary), start.Valid →
      (tags.foldl takeTag start).Valid := by
    intro tags
    induction tags with
    | nil => exact fun _ valid => valid
    | cons e rest ih =>
        intro start valid
        rw [List.foldl_cons]
        refine ih _ ?_
        rw [takeTag]
        cases checked : validate e.1 e.2.colour with
        | error _ => exact valid
        | ok _ =>
            rintro ⟨name, tag⟩ mem
            have found := OrderedMap.mem_entries.mp mem
            rw [OrderedMap.get_insert] at found
            split_ifs at found with here
            · obtain rfl := Option.some.inj found
              rw [here]
              exact checked
            · exact valid ⟨name, tag⟩ (OrderedMap.mem_entries.mpr found)
  exact kept tags ∅ fun e mem => by cases mem

theorem Reached.valid (reached : Reached vocabulary) : vocabulary.Valid := by
  induction reached with
  | empty => exact fun e mem => by cases mem
  | loaded read => exact valid_of_fromToml read
  | @set before after name colour description _ accepted valid =>
      rw [Vocabulary.set] at accepted
      cases checked : validate (trim name) colour with
      | error _ => simp [checked] at accepted
      | ok _ =>
          simp only [checked] at accepted
          obtain rfl := Except.ok.inj accepted
          rintro ⟨name', tag⟩ mem
          have found := OrderedMap.mem_entries.mp mem
          rw [OrderedMap.get_insert] at found
          split_ifs at found with here
          · obtain rfl := Option.some.inj found
            rw [here]
            exact validate_of_colour checked (validateColour_normalised (validate_eq checked).2)
          · exact valid ⟨name', tag⟩ (OrderedMap.mem_entries.mpr found)
  | @remove before after name _ accepted valid =>
      rw [Vocabulary.remove] at accepted
      split_ifs at accepted
      obtain rfl := Except.ok.inj accepted
      rintro ⟨name', tag⟩ mem
      have found := OrderedMap.mem_entries.mp mem
      rw [OrderedMap.get_erase] at found
      split_ifs at found
      exact valid ⟨name', tag⟩ (OrderedMap.mem_entries.mpr found)

end Valid

/-! ## The lines of a file -/

section Lines

variable {name : String} {tag : Tag} {vocabulary : Vocabulary}

/-- Two characters for one that means something to TOML. -/
def escapeChar (c : Char) : List Char :=
  if c = Toml.backslash then [Toml.backslash, Toml.backslash]
  else if c = Toml.quoteMark then [Toml.backslash, Toml.quoteMark]
  else [c]

theorem toList_escape (text : String) : (escape text).toList = text.toList.flatMap escapeChar := by
  simp only [escape, replaceChar, String.toList_ofList, List.flatMap_assoc]
  congr 1
  funext c
  by_cases slash : c = '\x5c'
  · subst slash
    decide
  · by_cases quote : c = '\x22'
    · subst quote
      decide
    · simp [escapeChar, Toml.backslash, Toml.quoteMark, slash, quote]

/-- What was escaped is read back, up to the first control character. -/
theorem scan_escaped (cs rest : List Char) : Toml.scan .text (cs.flatMap escapeChar ++ rest) =
    if cs.all (!Toml.isControl ·) then (Toml.scan .text rest).map fun r => (cs ++ r.1, r.2) else none := by
  induction cs with
  | nil => simp
  | cons c cs ih =>
      have apart : Toml.backslash ≠ Toml.quoteMark := by decide
      have slashes : Toml.shortEscape Toml.backslash = some Toml.backslash := by decide
      have quotes : Toml.shortEscape Toml.quoteMark = some Toml.quoteMark := by decide
      rw [List.flatMap_cons, List.append_assoc, List.all_cons]
      by_cases slash : c = Toml.backslash
      · subst slash
        have solid : Toml.isControl Toml.backslash = false := by decide
        simp only [escapeChar, if_true, List.cons_append, List.nil_append, Toml.scan, apart, if_false, slashes, ih, solid,
          Bool.not_false, Bool.true_and]
        split <;> simp [Option.map_map, Function.comp_def]
      · by_cases quote : c = Toml.quoteMark
        · subst quote
          have solid : Toml.isControl Toml.quoteMark = false := by decide
          simp only [escapeChar, slash, if_false, if_true, List.cons_append, List.nil_append, Toml.scan, apart, quotes, ih,
            solid, Bool.not_false, Bool.true_and]
          split <;> simp [Option.map_map, Function.comp_def]
        · cases control : Toml.isControl c with
          | true => simp [escapeChar, slash, quote, Toml.scan, control]
          | false =>
              simp only [escapeChar, slash, quote, if_false, List.cons_append, List.nil_append, Toml.scan, control,
                Bool.false_eq_true, ih, Bool.not_false, Bool.true_and]
              split <;> simp [Option.map_map, Function.comp_def]

theorem bare_tags : Toml.Bare "tags" := ⟨by decide, by decide⟩

/-- The table a tag is written as. -/
def tableOf (name : String) (tag : Tag) : Toml.Table where
  path := ["tags", name]
  pairs := ("colour", .scalar (.str tag.colour)) ::
    (if tag.description = "" then [] else [("description", .scalar (.str tag.description))])

theorem header_toList (name : String) : ("[tags.\"" ++ name ++ "\"]").toList = Toml.headerWritten "tags" name.toList := by
  simp [Toml.headerWritten, Toml.quoteMark]

theorem entry_header (quote : Toml.quoteMark ∉ name.toList) (slash : Toml.backslash ∉ name.toList)
    (solid : ∀ c ∈ name.toList, Toml.isControl c = false) :
    Toml.entry ("[tags.\"" ++ name ++ "\"]").toList = some (.table ["tags", name]) := by
  have plain : Toml.Plain name.toList := fun c mem =>
    ⟨fun same => quote (same ▸ mem), fun same => slash (same ▸ mem), solid c mem⟩
  rw [header_toList, Toml.entry_headerWritten, Toml.headerLine_plain bare_tags plain, String.ofList_toList]
  rfl

theorem entry_colour (plain : Toml.Plain tag.colour.toList) :
    Toml.entry ("colour = \"" ++ tag.colour ++ "\"").toList = some (.pair "colour" (.scalar (.str tag.colour))) := by
  have spelled : ("colour = \"" ++ tag.colour ++ "\"").toList = "colour".toList ++ ' ' :: '=' :: ' ' ::
      Toml.quoteMark :: (tag.colour.toList ++ [Toml.quoteMark]) := by
    simp [Toml.quoteMark]
  rw [spelled, Toml.entry_bare ⟨by decide, by decide⟩, Toml.ending_plain plain]
  simp

theorem description_toList (text : String) : ("description = \"" ++ escape text ++ "\"").toList = "description".toList ++
    ' ' :: '=' :: ' ' :: Toml.quoteMark :: (text.toList.flatMap escapeChar ++ [Toml.quoteMark]) := by
  simp [Toml.quoteMark, toList_escape]

theorem entry_description (solid : ∀ c ∈ tag.description.toList, Toml.isControl c = false) :
    Toml.entry ("description = \"" ++ escape tag.description ++ "\"").toList =
      some (.pair "description" (.scalar (.str tag.description))) := by
  have all : tag.description.toList.all (!Toml.isControl ·) = true := by simpa using solid
  rw [description_toList, Toml.entry_bare ⟨by decide, by decide⟩, Toml.ending_string, scan_escaped, if_pos all]
  simp [Toml.scan]

/-- What a line with a control character in its description starts with cannot be read. -/
theorem entry_spoilt {cs : List Char} (spoilt : cs.all (!Toml.isControl ·) = false) (rest : List Char) :
    Toml.entry ("description".toList ++ ' ' :: '=' :: ' ' :: Toml.quoteMark :: (cs.flatMap escapeChar ++ rest)) = none := by
  rw [Toml.entry_bare ⟨by decide, by decide⟩, Toml.ending_string, scan_escaped, if_neg (by simp [spoilt])]
  rfl

/-- Nor what has no end. -/
theorem entry_unended (cs : List Char) :
    Toml.entry ("description".toList ++ ' ' :: '=' :: ' ' :: Toml.quoteMark :: cs.flatMap escapeChar) = none := by
  have none : Toml.scan .text (cs.flatMap escapeChar) = none := by
    rw [← List.append_nil (cs.flatMap escapeChar), scan_escaped]
    split <;> rfl
  rw [Toml.entry_bare ⟨by decide, by decide⟩, Toml.ending_string, none]
  rfl

theorem mem_fileLines {text : String} : text ∈ fileLines name tag ↔ text = "[tags.\"" ++ name ++ "\"]" ∨
    text = "colour = \"" ++ tag.colour ++ "\"" ∨
    tag.description ≠ "" ∧ text = "description = \"" ++ escape tag.description ++ "\"" ∨ text = "" := by
  by_cases none : tag.description = "" <;> simp [fileLines, none]

/-- The lines of a tag that can be read are its table. -/
theorem entries_fileLines (name_ : Toml.quoteMark ∉ name.toList ∧ Toml.backslash ∉ name.toList)
    (solid : ∀ c ∈ name.toList, Toml.isControl c = false) (colour : Toml.Plain tag.colour.toList)
    (description : ∀ c ∈ tag.description.toList, Toml.isControl c = false) :
    ((fileLines name tag).map String.toList).mapM Toml.entry = some (.table (tableOf name tag).path ::
      ((tableOf name tag).pairs.map (fun p => .pair p.1 p.2) ++ [.blank])) := by
  have blank : Toml.entry ("" : String).toList = some .blank := rfl
  by_cases none : tag.description = ""
  · simp only [fileLines, none, if_true, List.append_nil, List.cons_append, List.nil_append, List.map_cons, List.map_nil,
      List.mapM_cons, List.mapM_nil, entry_header name_.1 name_.2 solid, entry_colour colour, blank, tableOf]
    rfl
  · simp only [fileLines, none, if_false, List.cons_append, List.nil_append, List.map_cons, List.map_nil,
      List.mapM_cons, List.mapM_nil, entry_header name_.1 name_.2 solid, entry_colour colour,
      entry_description description, blank, tableOf]
    rfl

end Lines

/-! ## There and back -/

section RoundTrip

variable {vocabulary : Vocabulary}

/-- The lines of the file, as characters. -/
def lines (vocabulary : Vocabulary) : List (List Char) :=
  (fileHeader ++ vocabulary.entries.flatMap fun e => fileLines e.1 e.2).map String.toList

theorem toList_toToml : vocabulary.toToml.toList = Toml.unlines vocabulary.lines := by
  rw [toToml, String.toList_ofList, lines]

/-- What may be in a name is no control character to TOML either. -/
theorem solid_name (valid : vocabulary.Valid) {e : String × Tag} (mem : e ∈ vocabulary.entries) :
    ∀ c ∈ e.1.toList, Toml.isControl c = false := by
  intro c inside
  have solid := (validate_eq (valid e mem)).1.2.2.2.2 c inside
  simp only [isControlChar, Bool.or_eq_false_iff, Bool.and_eq_false_iff, decide_eq_false_iff_not] at solid
  simp only [Toml.isControl, Bool.or_eq_false_iff, Bool.and_eq_false_iff, decide_eq_false_iff_not]
  omega

theorem feed_of_solid {cs : List Char} (solid : ∀ c ∈ cs, Toml.isControl c = false) : '\n' ∉ cs := fun mem =>
  absurd (solid _ mem) (by decide)

theorem feed_escaped {cs : List Char} (off : '\n' ∉ cs) : '\n' ∉ cs.flatMap escapeChar := by
  intro feed
  obtain ⟨c, at_, same⟩ := List.mem_flatMap.mp feed
  rw [escapeChar] at same
  split_ifs at same with slash quote
  · exact absurd same (by decide)
  · exact absurd same (by decide)
  · exact off (List.mem_singleton.mp same ▸ at_)

/-- Without a line feed in its texts a file has the lines it was written in. -/
theorem splitOn_lines (valid : vocabulary.Valid)
    (descriptions : ∀ e ∈ vocabulary.entries, '\n' ∉ e.2.description.toList) :
    (Toml.unlines vocabulary.lines).splitOn '\n' = vocabulary.lines ++ [[]] := by
  refine Toml.splitOn_unlines fun l mem => ?_
  obtain ⟨text, inside, rfl⟩ := List.mem_map.mp mem
  rcases List.mem_append.mp inside with top | below
  · exact (by decide +kernel : ∀ text ∈ fileHeader, '\n' ∉ text.toList) text top
  · obtain ⟨e, here, line⟩ := List.mem_flatMap.mp below
    have name := feed_of_solid (solid_name valid here)
    have colour := Toml.feed_not_mem (plain_of_validateColour (validate_eq (valid e here)).2)
    have escaped := feed_escaped (descriptions e here)
    rcases mem_fileLines.mp line with rfl | rfl | ⟨-, rfl⟩ | rfl
    · simp [name]
    · simp [colour]
    · rw [description_toList]
      simp [Toml.quoteMark, escaped]
    · decide

/-- The tables of a vocabulary, behind the root of the document. -/
def tablesOf (vocabulary : Vocabulary) : List Toml.Table :=
  ⟨[], []⟩ :: vocabulary.entries.map fun e => tableOf e.1 e.2

theorem wellFormed_tablesOf (vocabulary : Vocabulary) : Toml.WellFormed vocabulary.tablesOf := by
  have paths : ∀ t ∈ vocabulary.tablesOf, t.pairs = [] ∨ t.path.length = 2 := by
    intro t mem
    rcases List.mem_cons.mp mem with rfl | mem
    · exact .inl rfl
    · obtain ⟨e, -, rfl⟩ := List.mem_map.mp mem
      exact .inr rfl
  have short : ∀ t ∈ vocabulary.tablesOf, t.path.length ≤ 2 := by
    intro t mem
    rcases List.mem_cons.mp mem with rfl | mem
    · exact Nat.zero_le _
    · obtain ⟨e, -, rfl⟩ := List.mem_map.mp mem
      exact le_rfl
  refine ⟨?_, ?_, ?_⟩
  · have apart : (vocabulary.entries.map fun e => ["tags", e.1]).Nodup := by
      have keys := vocabulary.keys_nodup
      rw [OrderedMap.keys] at keys
      have map := keys.map (f := fun name => ["tags", name]) fun a b same => by simpa using same
      simpa [Function.comp_def] using map
    simpa [tablesOf, tableOf, Function.comp_def] using apart
  · intro t mem
    rcases List.mem_cons.mp mem with rfl | mem
    · exact List.nodup_nil
    · obtain ⟨e, -, rfl⟩ := List.mem_map.mp mem
      by_cases none : e.2.description = "" <;> simp [tableOf, none]
  · intro t mem t' mem' p inside under
    rcases paths t mem with none | two
    · simp [none] at inside
    · have := under.length_le
      have := short t' mem'
      simp only [List.length_append, List.length_singleton] at *
      omega

theorem look_tags (some_ : vocabulary.entries ≠ []) : Toml.look vocabulary.tablesOf [] "tags" = .table := by
  obtain ⟨e, rest, shape⟩ := List.exists_cons_of_ne_nil some_
  have root : vocabulary.tablesOf.filter (fun t => decide (t.path = [])) = [⟨[], []⟩] := by
    simp [tablesOf, tableOf, List.filter_map, Function.comp_def]
  have under : (vocabulary.tablesOf.any fun t => ([] ++ ["tags"]).isPrefixOf t.path) = true := by
    simp [tablesOf, shape, tableOf, List.isPrefixOf]
  have empty : [(⟨[], []⟩ : Toml.Table)].findSome? (·.pairs.lookup "tags") = none := rfl
  rw [Toml.look, root, empty]
  exact if_pos under

theorem keysOf_tags (vocabulary : Vocabulary) : Toml.keysOf vocabulary.tablesOf ["tags"] = vocabulary.keys := by
  have each : (fun e : String × Tag =>
      if (tableOf e.1 e.2).path = ["tags"] then (tableOf e.1 e.2).pairs.map Prod.fst
      else if ["tags"].isPrefixOf (tableOf e.1 e.2).path then
        (((tableOf e.1 e.2).path.drop ["tags"].length).head?).toList else []) = fun e => [e.1] := by
    funext e
    simp [tableOf, List.isPrefixOf]
  have keys : vocabulary.entries.flatMap (fun e => [e.1]) = vocabulary.keys := List.map_eq_flatMap.symm
  rw [Toml.keysOf, tablesOf, List.flatMap_cons, List.flatMap_map, each, keys]
  exact List.Nodup.dedup vocabulary.keys_nodup

theorem tagAt_tablesOf {e : String × Tag} (mem : e ∈ vocabulary.entries) : tagAt vocabulary.tablesOf e.1 = some e.2 := by
  have none : vocabulary.tablesOf.filter (fun t => decide (t.path = ["tags"])) = [] := by
    simp [tablesOf, tableOf, List.filter_map, Function.comp_def]
  have under : (vocabulary.tablesOf.any fun t => (["tags"] ++ [e.1]).isPrefixOf t.path) = true := by
    refine List.any_eq_true.mpr ⟨tableOf e.1 e.2, List.mem_cons_of_mem _ (List.mem_map.mpr ⟨e, mem, rfl⟩), ?_⟩
    simp [tableOf, List.isPrefixOf]
  have own : vocabulary.tablesOf.filter (fun t => decide (t.path = ["tags", e.1])) = [tableOf e.1 e.2] := by
    have key := OrderedMap.filter_key e.1 vocabulary.sorted
    rw [OrderedMap.lookup_of_mem vocabulary.sorted mem] at key
    have entries : vocabulary.entries.filter (fun e' => decide (e'.1 = e.1)) = [e] := by simpa using key
    rw [tablesOf, List.filter_cons_of_neg (by simp), List.filter_map]
    have same : ((fun t : Toml.Table => decide (t.path = ["tags", e.1])) ∘ fun e' : String × Tag => tableOf e'.1 e'.2) =
        fun e' => decide (e'.1 = e.1) := by
      funext e'
      simp [tableOf]
    rw [same, entries]
    rfl
  have here : Toml.look vocabulary.tablesOf ["tags"] e.1 = .table := by
    rw [Toml.look, none]
    exact if_pos under
  have colour : Toml.look vocabulary.tablesOf ["tags", e.1] "colour" = .value (.scalar (.str e.2.colour)) := by
    rw [Toml.look, own]
    rfl
  have nothing : (vocabulary.tablesOf.any fun t => (["tags", e.1] ++ ["description"]).isPrefixOf t.path) = false := by
    simp [tablesOf, tableOf, List.isPrefixOf]
  rw [tagAt, here]
  dsimp only
  rw [tagOf, colour]
  by_cases plain : e.2.description = ""
  · have description : Toml.look vocabulary.tablesOf ["tags", e.1] "description" = .absent := by
      rw [Toml.look, own]
      simp only [tableOf, plain, if_true]
      exact if_neg (by rw [nothing]; simp)
    rw [description]
    dsimp only
    rw [← plain]
  · have description : Toml.look vocabulary.tablesOf ["tags", e.1] "description" =
        .value (.scalar (.str e.2.description)) := by
      rw [Toml.look, own]
      simp only [tableOf, plain, if_false]
      rfl
    rw [description]

/-- A vocabulary that TOML can show is read back as it is. -/
theorem fromToml_toToml (valid : vocabulary.Valid) (plain : vocabulary.Plain) :
    fromToml vocabulary.toToml = some vocabulary := by
  have split := splitOn_lines valid fun e mem => feed_of_solid (plain e mem).2
  have header : (fileHeader.map String.toList).mapM Toml.entry = some (List.replicate 6 .blank) := rfl
  have last : [([] : List Char)].mapM Toml.entry = some [.blank] := rfl
  have body : ((vocabulary.entries.flatMap fun e => fileLines e.1 e.2).map String.toList).mapM Toml.entry =
      some ((vocabulary.entries.map fun e => tableOf e.1 e.2).flatMap fun t =>
        .table t.path :: (t.pairs.map (fun p => .pair p.1 p.2) ++ [.blank])) := by
    rw [List.map_flatMap, List.flatMap_map]
    exact Traverse.mapM_flatMap fun e mem => entries_fileLines (plain e mem).1 (solid_name valid mem)
      (plain_of_validateColour (validate_eq (valid e mem)).2) (plain e mem).2
  have entries : (vocabulary.lines ++ [[]]).mapM Toml.entry = some (List.replicate 6 .blank ++
      ((vocabulary.entries.map fun e => tableOf e.1 e.2).flatMap (fun t =>
        .table t.path :: (t.pairs.map (fun p => .pair p.1 p.2) ++ [.blank])) ++ [.blank])) := by
    rw [lines, List.map_append, List.mapM_append, List.mapM_append, header, body, last]
    simp
  have read : Toml.tables vocabulary.toToml.toList = some vocabulary.tablesOf := by
    rw [Toml.tables, toList_toToml, split, entries, Option.bind_some, Toml.tablesOf_blanks, Toml.tablesOf_blocks]
    exact if_pos vocabulary.wellFormed_tablesOf
  have file : tagFile vocabulary.tablesOf = some vocabulary.entries := by
    cases shape : vocabulary.entries with
    | nil => simp [tagFile, tablesOf, shape, Toml.look, List.isPrefixOf]
    | cons e rest =>
        rw [tagFile, look_tags (by simp [shape])]
        dsimp only
        rw [keysOf_tags, OrderedMap.keys, ← shape]
        exact Traverse.mapM_written vocabulary.entries fun e mem => by rw [tagAt_tablesOf mem]; rfl
  have kept : ∀ (l : List (String × Tag)) (start : Vocabulary), (∀ e ∈ l, validate e.1 e.2.colour = .ok ()) →
      l.foldl takeTag start = l.foldl (fun vocabulary e => vocabulary.insert e.1 e.2) start := by
    intro l
    induction l with
    | nil => exact fun _ _ => rfl
    | cons e rest ih =>
        intro start each
        rw [List.foldl_cons, List.foldl_cons, takeTag, each e (by simp)]
        exact ih _ fun e' mem => each e' (List.mem_cons_of_mem _ mem)
  rw [fromToml, read, Option.bind_some, file, Option.map_some, kept _ _ valid, OrderedMap.foldl_insert_entries]

/-- One line that TOML cannot read is enough for the file to give nothing. -/
theorem read_eq_none {l piece : List Char} (line : l ∈ vocabulary.lines) (inside : piece ∈ l.splitOn '\n')
    (fails : Toml.entry piece = none) :
    ((Toml.unlines vocabulary.lines).splitOn '\n').mapM Toml.entry = none :=
  Traverse.mapM_eq_none (Toml.mem_splitOn_unlines line inside) fails

/-- A file that is read has no control character in a description. -/
theorem solid_of_read {entries : List Toml.Entry}
    (read : ((Toml.unlines vocabulary.lines).splitOn '\n').mapM Toml.entry = some entries) {e : String × Tag}
    (mem : e ∈ vocabulary.entries) : ∀ c ∈ e.2.description.toList, Toml.isControl c = false := by
  by_contra spoilt
  have some_ : e.2.description ≠ "" := fun none => spoilt (by simp [none])
  have line : ("description = \"" ++ escape e.2.description ++ "\"").toList ∈ vocabulary.lines := by
    refine List.mem_map_of_mem (List.mem_append_right _ (List.mem_flatMap.mpr ⟨e, mem, ?_⟩))
    exact mem_fileLines.mpr (.inr (.inr (.inl ⟨some_, rfl⟩)))
  have refused : ∀ piece ∈ ("description = \"" ++ escape e.2.description ++ "\"").toList.splitOn '\n',
      Toml.entry piece ≠ none := by
    intro piece inside fails
    rw [read_eq_none line inside fails] at read
    cases read
  have control : e.2.description.toList.all (!Toml.isControl ·) = false := by
    rw [Bool.eq_false_iff]
    intro all
    exact spoilt (by simpa using all)
  rw [description_toList] at refused
  by_cases feed : '\n' ∈ e.2.description.toList
  · -- The line ends within the text, before the closing quote.
    obtain ⟨before, after, whole, first⟩ := List.eq_append_cons_of_mem feed
    have parted : "description".toList ++ ' ' :: '=' :: ' ' :: Toml.quoteMark ::
        (e.2.description.toList.flatMap escapeChar ++ [Toml.quoteMark]) =
        ("description".toList ++ ' ' :: '=' :: ' ' :: Toml.quoteMark :: before.flatMap escapeChar) ++
          '\n' :: (after.flatMap escapeChar ++ [Toml.quoteMark]) := by
      have apart : escapeChar '\n' = ['\n'] := by decide
      simp [whole, apart]
    have single : '\n' ∉ "description".toList ++ ' ' :: '=' :: ' ' :: Toml.quoteMark :: before.flatMap escapeChar := by
      simp [feed_escaped first, Toml.quoteMark]
    rw [parted, List.splitOn_append_cons_self, List.splitOn_eq_singleton single] at refused
    exact refused _ (by simp) (entry_unended before)
  · have single : '\n' ∉ "description".toList ++ ' ' :: '=' :: ' ' :: Toml.quoteMark ::
        (e.2.description.toList.flatMap escapeChar ++ [Toml.quoteMark]) := by
      simp [feed_escaped feed, Toml.quoteMark]
    rw [List.splitOn_eq_singleton single] at refused
    exact refused _ (List.mem_singleton_self _) (entry_spoilt control _)

/-- Whether a text between quotes means something else to TOML. -/
def Spoilt (name : String) : Prop := Toml.quoteMark ∈ name.toList ∨ Toml.backslash ∈ name.toList

instance (name : String) : Decidable (Spoilt name) := inferInstanceAs (Decidable (_ ∨ _))

/-- What a line of the file can open. -/
theorem path_of_line (valid : vocabulary.Valid)
    (descriptions : ∀ e ∈ vocabulary.entries, ∀ c ∈ e.2.description.toList, Toml.isControl c = false)
    {l : List Char} {path : List String} (member : l ∈ vocabulary.lines ++ [[]]) (opens : Toml.entry l = some (.table path)) :
    ∃ e ∈ vocabulary.entries, ∃ name rest, path = "tags" :: name :: rest ∧
      (Spoilt e.1 → name.toList.length < e.1.toList.length) ∧ (¬ Spoilt e.1 → name = e.1) := by
  rcases List.mem_append.mp member with line | last
  · obtain ⟨text, inside, rfl⟩ := List.mem_map.mp line
    rcases List.mem_append.mp inside with top | below
    · have blank := (by decide +kernel : ∀ text ∈ fileHeader, Toml.entry text.toList = some .blank) text top
      rw [opens] at blank
      cases blank
    · obtain ⟨e, here, line⟩ := List.mem_flatMap.mp below
      rcases mem_fileLines.mp line with rfl | rfl | ⟨-, rfl⟩ | rfl
      · refine ⟨e, here, ?_⟩
        by_cases spoilt : Spoilt e.1
        · rw [header_toList, Toml.entry_headerWritten] at opens
          obtain ⟨path', read, same⟩ := Option.map_eq_some_iff.mp opens
          obtain rfl := Toml.Entry.table.inj same
          obtain ⟨name, rest, rfl, -, shorter⟩ := Toml.path_of_headerLine bare_tags read
          exact ⟨name, rest, rfl, shorter, fun clean => absurd spoilt clean⟩
        · obtain ⟨quote, slash⟩ := not_or.mp spoilt
          rw [entry_header quote slash (solid_name valid here)] at opens
          obtain rfl := Toml.Entry.table.inj (Option.some.inj opens)
          exact ⟨e.1, [], rfl, fun dirty => absurd dirty spoilt, fun _ => rfl⟩
      · rw [entry_colour (plain_of_validateColour (validate_eq (valid e here)).2)] at opens
        cases opens
      · rw [entry_description (descriptions e here)] at opens
        cases opens
      · cases opens
  · rw [List.mem_singleton.mp last] at opens
    cases opens

theorem name_of_tagFile {tables : List Toml.Table} {tags : List (String × Tag)} (read : tagFile tables = some tags)
    {e : String × Tag} (mem : e ∈ tags) : e.1 ∈ Toml.keysOf tables ["tags"] := by
  rw [tagFile] at read
  split at read
  · obtain rfl := Option.some.inj read
    cases mem
  · obtain rfl := Option.some.inj read
    cases mem
  · obtain ⟨name, here, found⟩ := Traverse.exists_left (Traverse.mapM_eq_some_iff.mp read) mem
    obtain ⟨tag, -, rfl⟩ := Option.map_eq_some_iff.mp found
    exact here
  · cases read

/-- Every name that is read was spelled in a header, by itself or by a longer one. -/
theorem spelled_of_read (valid : vocabulary.Valid)
    (descriptions : ∀ e ∈ vocabulary.entries, ∀ c ∈ e.2.description.toList, Toml.isControl c = false)
    {read : Vocabulary} (came : fromToml vocabulary.toToml = some read) {name : String} (known : name ∈ read.keys) :
    ∃ e ∈ vocabulary.entries, (Spoilt e.1 → name.toList.length < e.1.toList.length) ∧ (¬ Spoilt e.1 → name = e.1) := by
  rw [fromToml, toList_toToml, Toml.tables,
    splitOn_lines valid fun e mem => feed_of_solid (descriptions e mem)] at came
  obtain ⟨tags, file, rfl⟩ := Option.map_eq_some_iff.mp came
  obtain ⟨tables, found, file⟩ := Option.bind_eq_some_iff.mp file
  obtain ⟨entries, each, found⟩ := Option.bind_eq_some_iff.mp found
  have opened : Toml.tablesOf [] [] entries = tables := by
    dsimp only at found
    split_ifs at found
    exact Option.some.inj found
  have listed : ∃ e ∈ tags, e.1 = name := by
    have inserted : ∀ (l : List (String × Tag)) (start : Vocabulary),
        name ∈ (l.foldl takeTag start).keys → name ∈ start.keys ∨ ∃ e ∈ l, e.1 = name := by
      intro l
      induction l with
      | nil => exact fun _ mem => .inl mem
      | cons e rest ih =>
          intro start mem
          rcases ih _ mem with before | ⟨e', inside, same⟩
          · rw [takeTag] at before
            cases checked : validate e.1 e.2.colour with
            | error _ =>
                simp only [checked] at before
                exact .inl before
            | ok _ =>
                simp only [checked] at before
                obtain ⟨tag, got⟩ := OrderedMap.mem_keys.mp before
                rw [OrderedMap.get_insert] at got
                split_ifs at got with here
                · exact .inr ⟨e, List.mem_cons_self, here.symm⟩
                · exact .inl (OrderedMap.mem_keys.mpr ⟨tag, got⟩)
          · exact .inr ⟨e', List.mem_cons_of_mem _ inside, same⟩
    rcases inserted tags ∅ known with nothing | some_
    · cases nothing
    · exact some_
  obtain ⟨e, inside, rfl⟩ := listed
  have key := name_of_tagFile file inside
  have path : ∃ t ∈ tables, ∃ rest, t.path = "tags" :: rest ∧ (rest = [] ∨ ∃ more, rest = e.1 :: more) := by
    obtain ⟨t, here, ⟨same, -⟩ | ⟨rest, same⟩⟩ := Toml.mem_keysOf key
    · exact ⟨t, here, [], same, .inl rfl⟩
    · exact ⟨t, here, e.1 :: rest, same, .inr ⟨rest, rfl⟩⟩
  obtain ⟨t, here, rest, shape, tail⟩ := path
  rw [← opened] at here
  rcases Toml.path_of_tablesOf here with root | header
  · rw [root] at shape
    cases shape
  · obtain ⟨l, member, opens⟩ := Traverse.exists_left (Traverse.mapM_eq_some_iff.mp each) header
    obtain ⟨e', mem, name, more, whole, spelled⟩ := path_of_line valid descriptions member opens
    rw [shape] at whole
    obtain rfl := (List.cons.inj whole).2
    rcases tail with none | ⟨_, same⟩
    · cases none
    · obtain rfl := (List.cons.inj same).1
      exact ⟨e', mem, spelled⟩

/-- A vocabulary is read back as it is exactly when TOML can show it. -/
theorem fromToml_toToml_iff (reached : Reached vocabulary) :
    fromToml vocabulary.toToml = some vocabulary ↔ vocabulary.Plain := by
  refine ⟨fun came => ?_, fromToml_toToml reached.valid⟩
  have valid := reached.valid
  have solid : ∀ e ∈ vocabulary.entries, ∀ c ∈ e.2.description.toList, Toml.isControl c = false := by
    have read := came
    rw [fromToml, toList_toToml, Toml.tables] at read
    obtain ⟨_, read, -⟩ := Option.map_eq_some_iff.mp read
    obtain ⟨_, read, -⟩ := Option.bind_eq_some_iff.mp read
    obtain ⟨entries, read, -⟩ := Option.bind_eq_some_iff.mp read
    exact fun e mem => solid_of_read read mem
  -- The longest name with something to decode in it could only be spelled by a longer one.
  have clean : vocabulary.keys.filter (Spoilt ·) = [] := by
    cases longest : (vocabulary.keys.filter (Spoilt ·)).argmax (·.toList.length) with
    | none => exact List.argmax_eq_none.mp longest
    | some name =>
        obtain ⟨known, spoilt⟩ := List.mem_filter.mp (List.argmax_mem longest)
        obtain ⟨e, mem, longer, same⟩ := spelled_of_read valid solid came known
        by_cases dirty : Spoilt e.1
        · have listed : e.1 ∈ vocabulary.keys.filter (Spoilt ·) :=
            List.mem_filter.mpr ⟨List.mem_map_of_mem mem, by simpa using dirty⟩
          have bound := List.le_of_mem_argmax (f := fun name : String => name.toList.length) listed longest
          exact absurd (longer dirty) (not_lt.mpr bound)
        · rw [same dirty] at spoilt
          exact absurd (of_decide_eq_true spoilt) dirty
  refine fun e mem => ⟨not_or.mp fun spoilt => ?_, solid e mem⟩
  exact List.filter_eq_nil_iff.mp clean e.1 (List.mem_map_of_mem mem) (decide_eq_true spoilt)

/-- One tag with a quoted description. -/
def quotedDescription : Vocabulary := OrderedMap.empty.insert "odd" ⟨"#abcdef", "a \"quoted\" back\\slash"⟩

theorem reached_quotedDescription : Reached quotedDescription :=
  @Reached.set ∅ _ "odd" "#abcdef" "a \"quoted\" back\\slash" .empty (by decide +kernel)

theorem fromToml_toToml_quotedDescription :
    fromToml quotedDescription.toToml = some quotedDescription :=
  (fromToml_toToml_iff reached_quotedDescription).mpr (by decide +kernel)

/-- A tag whose name has a quote in it. -/
def quotedName : Vocabulary := OrderedMap.empty.insert "a\"b" ⟨"#abcdef", ""⟩

/-- The file is one that cannot be read. -/
theorem quotedName_lost : (∅ : Vocabulary).set "a\"b" "#abcdef" "" = .ok quotedName ∧ Reached quotedName ∧
    fromToml quotedName.toToml = none := by
  have accepted : (∅ : Vocabulary).set "a\"b" "#abcdef" "" = .ok quotedName := by decide +kernel
  refine ⟨accepted, .set .empty accepted, ?_⟩
  have header : "[tags.\"a\"b\"]".toList ∈ quotedName.lines := by decide +kernel
  have single : "[tags.\"a\"b\"]".toList ∈ "[tags.\"a\"b\"]".toList.splitOn '\n' := by decide +kernel
  have refused : Toml.entry "[tags.\"a\"b\"]".toList = none := by decide +kernel
  rw [fromToml, toList_toToml, Toml.tables, read_eq_none header single refused]
  rfl

end RoundTrip

end Vocabulary

end SightingDB
