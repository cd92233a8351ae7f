import Mathlib.Data.List.DropRight
import Mathlib.Data.List.TakeWhile
import Mathlib.Data.String.Basic

/-!
The string operations the source uses, on the characters of a `String`: trimming by
Unicode white space, splitting on a separator, and joining back.
-/
namespace SightingDB

/-- Only the characters of a text are looked at, never all there are. -/
instance (priority := high) decidableAllChars (p : Char → Prop) [DecidablePred p] (cs : List Char) :
    Decidable (∀ c ∈ cs, p c) :=
  List.decidableBAll p cs

instance (priority := high) decidableSomeChar (p : Char → Prop) [DecidablePred p] (cs : List Char) :
    Decidable (∃ c ∈ cs, p c) :=
  List.decidableBEx p cs

/-- Unicode `White_Space`, which is what `char::is_whitespace` and `str::trim` test. -/
def isWhitespace (c : Char) : Bool :=
  let n := c.toNat
  (9 ≤ n && n ≤ 13) || n = 0x20 || n = 0x85 || n = 0xA0 || n = 0x1680 ||
    (0x2000 ≤ n && n ≤ 0x200A) || n = 0x2028 || n = 0x2029 || n = 0x202F || n = 0x205F ||
    n = 0x3000

/-- Drop the characters a predicate accepts from both ends. -/
def trimWhere (p : Char → Bool) (cs : List Char) : List Char := (cs.dropWhile p).rdropWhile p

/-- `str::trim`. -/
def trim (s : String) : String := String.ofList (trimWhere isWhitespace s.toList)

/-- `str::trim_matches('/')`. -/
def trimSlashes (s : String) : String := String.ofList (trimWhere (· = '/') s.toList)

/-- `str::trim_end_matches('/')`. -/
def trimEndSlashes (s : String) : String := String.ofList (s.toList.rdropWhile (· = '/'))

/-- `str::trim_start_matches` for a string pattern that is not empty. -/
def trimStartMatches (s start : String) : String :=
  let rec strip : Nat → List Char → List Char
    | 0, cs => cs
    | n + 1, cs => if start.toList.isPrefixOf cs then strip n (cs.drop start.toList.length) else cs
  String.ofList (strip s.toList.length s.toList)

/-- `str::to_ascii_lowercase`. -/
def asciiLowercase (s : String) : String := String.ofList (s.toList.map Char.toLower)

/-- `str::split(c)`. -/
def splitOnChar (c : Char) (s : String) : List String := (s.toList.splitOn c).map String.ofList

/-- `[&str]::join` with a one-character separator. -/
def joinWith (c : Char) (parts : List String) : String :=
  String.ofList ([c].intercalate (parts.map String.toList))

/-- `[String]::join` with a longer separator. -/
def joinBy (sep : String) (parts : List String) : String :=
  String.ofList (sep.toList.intercalate (parts.map String.toList))

/-- `str::split_once(c)`. -/
def splitOnce (c : Char) (s : String) : Option (String × String) :=
  match s.toList.dropWhile (· ≠ c) with
  | [] => none
  | _ :: rest => some (String.ofList (s.toList.takeWhile (· ≠ c)), String.ofList rest)

/-- `str::rsplit_once(c)`. -/
def rsplitOnce (c : Char) (s : String) : Option (String × String) :=
  match s.toList.reverse.dropWhile (· ≠ c) with
  | [] => none
  | _ :: front => some (String.ofList front.reverse, String.ofList (s.toList.reverse.takeWhile (· ≠ c)).reverse)

/-- `str::starts_with` for a string pattern. -/
def startsWith (s start : String) : Bool := start.toList.isPrefixOf s.toList

/-- `str::strip_prefix`. -/
def stripStart (s start : String) : Option String :=
  if startsWith s start then some (String.ofList (s.toList.drop start.toList.length)) else none

/-- `str::starts_with` for a single character. -/
def startsWithChar (s : String) (c : Char) : Bool := s.toList.head? == some c

/-- `str::replace` of a single character. -/
def replaceChar (c : Char) (s by_ : String) : String :=
  String.ofList (s.toList.flatMap fun d => if d = c then by_.toList else [d])

/-- `char::is_control`. -/
def isControlChar (c : Char) : Bool := c.toNat < 0x20 || (0x7f ≤ c.toNat && c.toNat < 0xa0)

/-- `str::parse::<u64>`. -/
def parseU64 (text : String) : Option Nat :=
  let digits := match text.toList with
    | '+' :: rest => rest
    | cs => cs
  if digits.isEmpty || !digits.all Char.isDigit then none
  else if Nat.ofDigitChars 10 digits 0 < 2 ^ 64 then some (Nat.ofDigitChars 10 digits 0)
  else none

theorem trimWhere_idem (p : Char → Bool) (cs : List Char) :
    trimWhere p (trimWhere p cs) = trimWhere p cs := by
  -- The trimmed text is a prefix of one whose head is already refused by `p`.
  have front : (trimWhere p cs).dropWhile p = trimWhere p cs := by
    obtain ⟨rest, whole⟩ := List.rdropWhile_prefix p (cs.dropWhile p)
    cases hd : trimWhere p cs with
    | nil => rfl
    | cons c tail =>
        have start : cs.dropWhile p = c :: (tail ++ rest) := by
          rw [← whole]
          change trimWhere p cs ++ rest = _
          rw [hd, List.cons_append]
        have hne : cs.dropWhile p ≠ [] := by rw [start]; simp
        have stop : p c = false := by
          have := List.head_dropWhile_not p hne
          simpa only [start, List.head_cons] using this
        simp [stop]
  unfold trimWhere at front ⊢
  rw [front, List.rdropWhile_idempotent]

theorem trimWhere_of_none {p : Char → Bool} {cs : List Char} (off : ∀ c ∈ cs, p c = false) :
    trimWhere p cs = cs := by
  have front : cs.dropWhile p = cs := by
    cases cs with
    | nil => rfl
    | cons c rest => simp [off c (by simp)]
  rw [trimWhere, front, List.rdropWhile_eq_self_iff]
  intro some_
  simp [off _ (List.getLast_mem some_)]

theorem trim_idem (s : String) : trim (trim s) = trim s := by
  simp [trim, trimWhere_idem]

theorem trimSlashes_idem (s : String) : trimSlashes (trimSlashes s) = trimSlashes s := by
  simp [trimSlashes, trimWhere_idem]

theorem startsWithChar_trimSlashes (s : String) : startsWithChar (trimSlashes s) '/' = false := by
  by_contra starts
  obtain ⟨rest, front⟩ : ∃ rest, trimWhere (· = '/') s.toList = '/' :: rest := by
    have head : (trimWhere (· = '/') s.toList).head? = some '/' := by simpa [startsWithChar, trimSlashes] using starts
    cases shape : trimWhere (· = '/') s.toList with
    | nil => simp [shape] at head
    | cons c rest =>
        obtain rfl : c = '/' := by simpa [shape] using head
        exact ⟨rest, rfl⟩
  obtain ⟨more, whole⟩ := List.rdropWhile_prefix (· = '/') (s.toList.dropWhile (· = '/'))
  have start : s.toList.dropWhile (· = '/') = '/' :: (rest ++ more) := by
    rw [← whole, ← List.cons_append, ← front]
    rfl
  have stop := List.head_dropWhile_not (fun c => decide (c = '/')) (l := s.toList) (by rw [start]; simp)
  simp [start] at stop

theorem trimSlashes_of_none {s : String} (off : '/' ∉ s.toList) : trimSlashes s = s := by
  have none : ∀ c ∈ s.toList, decide (c = '/') = false := fun c mem => by
    simpa using fun same : c = '/' => off (same ▸ mem)
  rw [trimSlashes, trimWhere_of_none none, String.ofList_toList]

theorem splitOnce_none {c : Char} {s : String} (off : c ∉ s.toList) : splitOnce c s = none := by
  have all : s.toList.dropWhile (· ≠ c) = [] := by
    rw [List.dropWhile_eq_nil_iff]
    intro d mem
    simpa using fun same : d = c => off (same ▸ mem)
  simp only [splitOnce, all]

theorem splitOnce_append {c : Char} {s : String} (off : c ∉ s.toList) (rest : String) :
    splitOnce c (s ++ String.singleton c ++ rest) = some (s, rest) := by
  have pass : ∀ d ∈ s.toList, decide (d ≠ c) = true := fun d mem => by
    simpa using fun same : d = c => off (same ▸ mem)
  have text : (s ++ String.singleton c ++ rest).toList = s.toList ++ c :: rest.toList := by simp
  have drop : (s.toList ++ c :: rest.toList).dropWhile (· ≠ c) = c :: rest.toList := by
    rw [List.dropWhile_append_of_pos pass]
    simp
  have take : (s.toList ++ c :: rest.toList).takeWhile (· ≠ c) = s.toList := by
    rw [List.takeWhile_append_of_pos pass]
    simp
  simp only [splitOnce, text, drop, take, String.ofList_toList]

theorem toList_of_splitOnce {c : Char} {s front rest : String} (parted : splitOnce c s = some (front, rest)) :
    s.toList = front.toList ++ c :: rest.toList := by
  rw [splitOnce] at parted
  have whole := List.takeWhile_append_dropWhile (p := fun d => decide (d ≠ c)) (l := s.toList)
  split at parted
  · cases parted
  · rename_i d tail after
    obtain ⟨rfl, rfl⟩ := Prod.mk.inj (Option.some.inj parted)
    have stop := List.head_dropWhile_not (fun d => decide (d ≠ c)) (l := s.toList) (by rw [after]; simp)
    simp only [after, List.head_cons] at stop
    obtain rfl : d = c := by simpa using stop
    rw [after] at whole
    simpa using whole.symm

theorem trim_of_solid {s : String} (solid : ∀ c ∈ s.toList, isWhitespace c = false) : trim s = s := by
  rw [trim, trimWhere_of_none solid, String.ofList_toList]

/-- Solid text in front of trimmed text is trimmed. -/
theorem trim_append {s t : String} (solid : ∀ c ∈ s.toList, isWhitespace c = false) (some_ : s.toList ≠ [])
    (trimmed : trim t = t) (more : t ≠ "") : trim (s ++ t) = s ++ t := by
  have cs : trimWhere isWhitespace t.toList = t.toList := by
    rw [← String.toList_ofList (l := trimWhere isWhitespace t.toList)]
    exact congrArg String.toList trimmed
  have tail : t.toList ≠ [] := fun none => more (by simpa using congrArg String.ofList none)
  -- Neither end is white: the first character is of `s`, the last of `t`.
  have last : isWhitespace (t.toList.getLast tail) = false := by
    have kept := List.rdropWhile_last_not isWhitespace (t.toList.dropWhile isWhitespace)
    have same : (t.toList.dropWhile isWhitespace).rdropWhile isWhitespace = t.toList := cs
    have := kept (by rw [same]; exact tail)
    simpa [same] using this
  have front : (s ++ t).toList.dropWhile isWhitespace = (s ++ t).toList := by
    rw [String.toList_append]
    cases shape : s.toList with
    | nil => exact absurd shape some_
    | cons c rest => simp [solid c (by simp [shape])]
  have back : (s ++ t).toList.rdropWhile isWhitespace = (s ++ t).toList := by
    rw [List.rdropWhile_eq_self_iff]
    intro whole
    have : (s ++ t).toList.getLast whole = t.toList.getLast tail := by
      simp only [String.toList_append]
      exact List.getLast_append_of_ne_nil _ tail
    rw [this, last]
    simp
  rw [trim, trimWhere, front, back, String.ofList_toList]

theorem trim_space (s : String) : trim (" " ++ s) = trim s := by
  have text : (" " ++ s).toList = ' ' :: s.toList := by simp
  have blank : isWhitespace ' ' = true := by decide
  simp [trim, trimWhere, text, blank]

@[simp] theorem joinBy_single (sep part : String) : joinBy sep [part] = part := by
  simp [joinBy, List.intercalate]

theorem joinBy_cons_cons (sep first second : String) (others : List String) :
    (joinBy sep (first :: second :: others)).toList =
      first.toList ++ (sep.toList ++ (joinBy sep (second :: others)).toList) := by
  simp [joinBy, List.intercalate]

theorem mem_joinBy {sep : String} {parts : List String} {c : Char} (mem : c ∈ (joinBy sep parts).toList) :
    c ∈ sep.toList ∨ ∃ p ∈ parts, c ∈ p.toList := by
  induction parts with
  | nil => simp [joinBy, List.intercalate] at mem
  | cons first rest ih =>
      cases rest with
      | nil => exact .inr ⟨first, by simp, by simpa using mem⟩
      | cons second others =>
          rw [joinBy_cons_cons, List.mem_append, List.mem_append] at mem
          rcases mem with here | gap | later
          · exact .inr ⟨first, by simp, here⟩
          · exact .inl gap
          · exact (ih later).imp id fun ⟨p, member, at_⟩ => ⟨p, List.mem_cons_of_mem _ member, at_⟩

theorem mem_joinBy_of_mem {sep : String} {parts : List String} {p : String} (member : p ∈ parts) {c : Char}
    (mem : c ∈ p.toList) : c ∈ (joinBy sep parts).toList := by
  induction parts with
  | nil => cases member
  | cons first rest ih =>
      cases rest with
      | nil =>
          obtain rfl : p = first := by simpa using member
          simpa using mem
      | cons second others =>
          rw [joinBy_cons_cons, List.mem_append, List.mem_append]
          rcases List.mem_cons.mp member with rfl | later
          · exact .inl mem
          · exact .inr (.inr (ih later))

/-- Pieces joined with a comma and a space come apart at the commas. -/
theorem splitOnChar_joinBy {parts : List String} (free : ∀ p ∈ parts, ',' ∉ p.toList) (some_ : parts ≠ []) :
    (splitOnChar ',' (joinBy ", " parts)).map trim = parts.map trim := by
  have sep : (", " : String).toList = [',', ' '] := rfl
  rw [splitOnChar, joinBy, sep, String.toList_ofList, List.map_map]
  induction parts with
  | nil => exact absurd rfl some_
  | cons first rest ih =>
      have off : ',' ∉ first.toList := free first (by simp)
      cases rest with
      | nil => simp [List.intercalate, List.splitOn_eq_singleton off]
      | cons second others =>
          have later := ih (fun p mem => free p (List.mem_cons_of_mem _ mem)) (by simp)
          have step : [',', ' '].intercalate ((first :: second :: others).map String.toList) =
              first.toList ++ ',' :: (' ' :: [',', ' '].intercalate ((second :: others).map String.toList)) := by
            simp [List.intercalate]
          have space : ((' ' :: [',', ' '].intercalate ((second :: others).map String.toList)).splitOn ',').map
              (trim ∘ String.ofList) =
              (([',', ' '].intercalate ((second :: others).map String.toList)).splitOn ',').map (trim ∘ String.ofList) := by
            rw [List.splitOn_cons_eq_if_modifyHead]
            cases pieces : ([',', ' '].intercalate ((second :: others).map String.toList)).splitOn ',' with
            | nil => exact absurd pieces (List.splitOn_ne_nil _ _)
            | cons piece more =>
                simp [trim_space]
          rw [step, List.splitOn_append_cons_self_of_not_mem off, List.map_cons, space, later]
          simp

theorem mem_of_mem_trimWhere {p : Char → Bool} {cs : List Char} {c : Char}
    (member : c ∈ trimWhere p cs) : c ∈ cs :=
  (List.dropWhile_suffix p).subset ((List.rdropWhile_prefix p _).subset member)

/-- Trimming takes away nothing else. -/
theorem mem_trimWhere {p : Char → Bool} {cs : List Char} {c : Char} (member : c ∈ cs) (kept : p c = false) :
    c ∈ trimWhere p cs := by
  have front : ∀ {l : List Char}, c ∈ l → c ∈ l.dropWhile p := fun {l} mem => by
    rw [← List.takeWhile_append_dropWhile (p := p) (l := l), List.mem_append] at mem
    refine mem.resolve_left fun gone => ?_
    rw [List.mem_takeWhile_imp gone] at kept
    cases kept
  rw [trimWhere, List.rdropWhile, List.mem_reverse]
  exact front (List.mem_reverse.mpr (front member))

theorem trimWhere_inside (p : Char → Bool) (cs : List Char) : trimWhere p cs <:+: cs :=
  (List.rdropWhile_prefix p _).isInfix.trans (List.dropWhile_suffix p).isInfix

theorem infix_of_mem_splitOn {c : Char} {cs part : List Char} (member : part ∈ cs.splitOn c) : part <:+: cs := by
  induction cs generalizing part with
  | nil =>
      obtain rfl : part = [] := by simpa using member
      exact List.infix_rfl
  | cons d rest ih =>
      rw [List.splitOn_cons_eq_if_modifyHead] at member
      split_ifs at member with sep
      · rcases List.mem_cons.mp member with rfl | later
        · exact List.nil_infix
        · exact (ih later).trans (List.suffix_cons d rest).isInfix
      · cases parts : rest.splitOn c with
        | nil => exact absurd parts (List.splitOn_ne_nil _ _)
        | cons first others =>
            simp only [parts, List.modifyHead_cons, List.mem_cons] at member
            rcases member with rfl | later
            · -- The first part starts the text, and so does the longer one.
              have start : first <+: rest := by
                have whole : [c].intercalate (rest.splitOn c) = rest := List.intercalate_splitOn c
                rw [parts] at whole
                cases others with
                | nil =>
                    have : first = rest := by simpa [List.intercalate] using whole
                    exact this ▸ List.prefix_rfl
                | cons second more =>
                    have step : [c].intercalate (first :: second :: more) =
                        first ++ (c :: [c].intercalate (second :: more)) := by
                      simp [List.intercalate]
                    exact ⟨_, step.symm.trans whole⟩
              exact (List.prefix_cons_inj d |>.mpr start).isInfix
            · exact (ih (by simp [parts, later])).trans (List.suffix_cons d rest).isInfix

theorem sep_not_mem_splitOn {c : Char} {cs part : List Char} (member : part ∈ cs.splitOn c) :
    c ∉ part := by
  induction cs generalizing part with
  | nil => simp_all
  | cons d rest ih =>
      rw [List.splitOn_cons_eq_if_modifyHead] at member
      by_cases sep : d = c
      · subst sep
        simp only [BEq.rfl, if_true] at member
        rcases List.mem_cons.mp member with rfl | later
        · simp
        · exact ih later
      · simp only [beq_iff_eq, sep, if_false] at member
        cases parts : rest.splitOn c with
        | nil => simp at parts
        | cons first others =>
            simp only [parts, List.modifyHead_cons, List.mem_cons] at member
            rcases member with rfl | later
            · have : c ∉ first := ih (by simp [parts])
              simp only [List.mem_cons, not_or]
              exact ⟨Ne.symm sep, this⟩
            · exact ih (by simp [parts, later])

end SightingDB
