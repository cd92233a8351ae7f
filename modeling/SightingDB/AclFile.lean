import SightingDB.Keys
import SightingDB.Lib.TomlWritten
import SightingDB.Lib.Traverse

/-!
The ACL file. Keys and grants are put between quotes as they stand, so the file says what the
ACL says as long as nothing in them means something to TOML.
-/
namespace SightingDB

namespace Acl

/-- The lines before the first key. -/
def fileHeader : List String :=
  ["# Written by the SightingDB management interface. Comments added",
    "# here are replaced the next time a key is saved.",
    "#",
    "# \"<apikey>\" = \"<grant>[, <grant>...]\"",
    "# grant: r | w | rw [:<namespace>]  |  admin",
    "",
    "[acl]"]

/-- The grants of a key as they are written; one that grants nothing is left out. -/
def specs (grants : List Grant) : List String := (grants.map (·.toSpec)).filter (· ≠ "")

def fileLine (key : String) (grants : List Grant) : Option String :=
  if (specs grants).isEmpty then none
  else some ("\"" ++ key ++ "\" = \"" ++ joinBy ", " (specs grants) ++ "\"")

/-- Render the whole ACL as an `[acl]` table. -/
def toToml (acl : Acl) : String :=
  let lines := fileHeader ++ acl.keys.entries.filterMap fun entry => fileLine entry.1 entry.2
  String.ofList (Toml.unlines (lines.map String.toList))

end Acl

/-- Why an ACL file could not be loaded. -/
inductive AclError
  | unreadable
  | entry (key reason : String)
  deriving DecidableEq

/-- The `[acl]` table of a document: none is an empty one, and every value must be a string. -/
def aclEntries (doc : Toml.Document) : Option (List (String × String)) :=
  let strings (fields : List (String × Toml.Value)) : Option (List (String × String)) :=
    fields.mapM fun field => match field.2 with
      | .scalar (.str spec) => some (field.1, spec)
      | _ => none
  match doc.lookup "acl" with
  | none => some []
  | some (.table fields) => strings fields
  | some (.value (.table fields)) => strings (fields.map fun field => (field.1, .scalar field.2))
  | some _ => none

def buildAcl (entries : List (String × String)) : Except AclError Acl :=
  entries.foldlM (fun acl entry => match parseGrants entry.2 with
    | .ok grants => .ok (acl.set entry.1 grants)
    | .error reason => .error (.entry entry.1 reason)) ⟨∅⟩

/-- `load_acl` of the text of an ACL file. -/
def loadAcl (text : String) : Except AclError Acl :=
  match (Toml.document text.toList).bind aclEntries with
  | none => .error .unreadable
  | some entries => buildAcl entries

/-! ## Clauses -/

namespace Grant

variable {grant : Grant}

/-- A data grant, with the letters it is spelled with. -/
inductive Spelled (grant : Grant) : String → Prop
  | both (read : grant.read = true) (write : grant.write = true) : Spelled grant "rw"
  | read (read : grant.read = true) (write : grant.write = false) : Spelled grant "r"
  | write (read : grant.read = false) (write : grant.write = true) : Spelled grant "w"

/-- How a grant is spelled. -/
theorem toSpec_cases (grant : Grant) : grant = adminOnly ∧ grant.toSpec = "admin" ∨
    grant.admin = false ∧ ∃ letters, grant.Spelled letters ∧
      grant.toSpec = if grant.root = "" then letters else letters ++ ":" ++ grant.root := by
  obtain ⟨root, read, write, admin, own⟩ := grant
  rcases own with ⟨rfl, rfl, rfl, rfl⟩ | ⟨rfl, some_⟩
  · exact .inl ⟨rfl, rfl⟩
  · refine .inr ⟨rfl, ?_⟩
    cases read <;> cases write
    · simp at some_
    · exact ⟨"w", .write rfl rfl, rfl⟩
    · exact ⟨"r", .read rfl rfl, rfl⟩
    · exact ⟨"rw", .both rfl rfl, rfl⟩

/-- Every letter a clause is spelled with is none of what parts clauses. -/
theorem Spelled.solid {letters : String} (spelled : grant.Spelled letters) :
    letters ≠ "" ∧ ∀ c ∈ letters.toList, isReserved c = false := by
  cases spelled <;> decide

/-- The characters of a clause: those of its subtree, and a colon. -/
theorem mem_toSpec {c : Char} (mem : c ∈ grant.toSpec.toList) :
    isReserved c = false ∧ c ≠ '\x5c' ∧ c ≠ '\x22' ∧ Toml.isControl c = false ∨ c = ':' ∨ c ∈ grant.root.toList := by
  rcases grant.toSpec_cases with ⟨-, spec⟩ | ⟨-, letters, spelled, spec⟩
  · rw [spec] at mem
    exact .inl ((by decide : ∀ c ∈ "admin".toList, isReserved c = false ∧ c ≠ '\x5c' ∧ c ≠ '\x22' ∧
      Toml.isControl c = false) c mem)
  · have plain : ∀ c ∈ letters.toList, isReserved c = false ∧ c ≠ '\x5c' ∧ c ≠ '\x22' ∧ Toml.isControl c = false := by
      cases spelled <;> decide
    rw [spec] at mem
    split_ifs at mem with whole
    · exact .inl (plain c mem)
    · simp only [String.toList_append, List.mem_append] at mem
      rcases mem with (here | colon) | root
      · exact .inl (plain c here)
      · exact .inr (.inl (by simpa using colon))
      · exact .inr (.inr root)

theorem toSpec_ne_empty : grant.toSpec ≠ "" := by
  rcases grant.toSpec_cases with ⟨-, spec⟩ | ⟨-, letters, spelled, spec⟩
  · rw [spec]
    decide
  · have some_ := spelled.solid.1
    rw [spec]
    split_ifs
    · exact some_
    · intro none
      have : (letters ++ ":" ++ grant.root).toList = [] := by rw [none]; rfl
      simp at this

/-- A clause is read back as the grant it was written from. -/
theorem parseGrant_toSpec (root : trim grant.root = grant.root) : parseGrant grant.toSpec = .ok grant := by
  rcases grant.toSpec_cases with ⟨same, spec⟩ | ⟨data, letters, spelled, spec⟩
  · rw [spec, same]
    decide
  · have letters_ : trim letters = letters := trim_of_solid fun c mem => (not_reserved (spelled.solid.2 c mem)).1
    have off : ':' ∉ letters.toList := fun mem => (not_reserved (spelled.solid.2 _ mem)).2.2.1 rfl
    have clause : clauseOf grant.toSpec = (letters, grant.root) := by
      rw [spec, clauseOf]
      split_ifs with whole
      · rw [splitOnce_none off, whole]
      · have parted := splitOnce_append off grant.root
        have colon : String.singleton ':' = ":" := rfl
        rw [colon] at parted
        rw [parted]
        simp only [letters_, root]
    rw [parseGrant, clause]
    obtain ⟨name, read, write, admin, own⟩ := grant
    obtain rfl : admin = false := data
    cases spelled with
    | both r w =>
        obtain rfl : read = true := r
        obtain rfl : write = true := w
        rfl
    | read r w =>
        obtain rfl : read = true := r
        obtain rfl : write = false := w
        rfl
    | write r w =>
        obtain rfl : read = false := r
        obtain rfl : write = true := w
        rfl

/-- A clause starts with a letter and ends as its subtree does. -/
theorem trim_toSpec (root : trim grant.root = grant.root) : trim grant.toSpec = grant.toSpec := by
  rcases grant.toSpec_cases with ⟨-, spec⟩ | ⟨-, letters, spelled, spec⟩
  · rw [spec]
    decide
  · have letters_ : ∀ c ∈ letters.toList, isWhitespace c = false := fun c mem => (not_reserved (spelled.solid.2 c mem)).1
    rw [spec]
    split_ifs with whole
    · exact trim_of_solid letters_
    · refine trim_append (s := letters ++ ":") (fun c mem => ?_) (by simp) root whole
      rcases (by simpa using mem : c ∈ letters.toList ∨ c = ':') with here | rfl
      · exact letters_ c here
      · decide

end Grant

/-- A list of grants is read back from its clauses. -/
theorem parseGrants_specs {grants : List Grant} (some_ : grants ≠ [])
    (off : ∀ g ∈ grants, ',' ∉ g.root.toList) (roots : ∀ g ∈ grants, trim g.root = g.root) :
    parseGrants (joinBy ", " (Acl.specs grants)) = .ok grants := by
  have all : Acl.specs grants = grants.map (·.toSpec) := by
    refine List.filter_eq_self.mpr fun s mem => ?_
    obtain ⟨g, -, rfl⟩ := List.mem_map.mp mem
    simpa using g.toSpec_ne_empty
  have free : ∀ s ∈ grants.map (·.toSpec), ',' ∉ s.toList := by
    intro s mem at_
    obtain ⟨g, here, rfl⟩ := List.mem_map.mp mem
    rcases g.mem_toSpec at_ with ⟨plain, -⟩ | colon | root
    · exact (not_reserved plain).2.1 rfl
    · exact absurd colon (by decide)
    · exact off g here root
  have trimmed : ∀ s ∈ grants.map (·.toSpec), trim s = s := by
    intro s mem
    obtain ⟨g, here, rfl⟩ := List.mem_map.mp mem
    exact g.trim_toSpec (roots g here)
  have pieces : ((splitOnChar ',' (joinBy ", " (grants.map (·.toSpec)))).map trim).filter (· ≠ "") =
      grants.map (·.toSpec) := by
    rw [splitOnChar_joinBy free (by simpa using some_), List.map_congr_left trimmed, List.map_id']
    exact all
  rw [all, parseGrants, pieces, Traverse.mapM_written grants fun g mem => g.parseGrant_toSpec (roots g mem)]
  simp [pure, Except.pure, some_]

/-! ## The file -/

namespace Acl

/-- What the checks at the management interface make of an ACL's keys and subtrees. -/
structure Valid (acl : Acl) : Prop where
  key : ∀ e ∈ acl.keys.entries, validateKey e.1 = .ok ()
  some_ : ∀ e ∈ acl.keys.entries, e.2 ≠ []
  root : ∀ e ∈ acl.keys.entries, ∀ g ∈ e.2, validateNamespace g.root = .ok ()

/-- Nothing in the keys and subtrees means anything to the file they are written to. -/
structure Writable (acl : Acl) : Prop where
  key : ∀ e ∈ acl.keys.entries, Toml.Plain e.1.toList
  some_ : ∀ e ∈ acl.keys.entries, e.2 ≠ []
  plain : ∀ e ∈ acl.keys.entries, ∀ g ∈ e.2, Toml.Plain g.root.toList
  comma : ∀ e ∈ acl.keys.entries, ∀ g ∈ e.2, ',' ∉ g.root.toList
  trimmed : ∀ e ∈ acl.keys.entries, ∀ g ∈ e.2, trim g.root = g.root

variable {acl : Acl}

/-- What the clauses of some grants hold between their quotes. -/
def clauses (grants : List Grant) : String := joinBy ", " (specs grants)

theorem specs_eq (grants : List Grant) : specs grants = grants.map (·.toSpec) := by
  refine List.filter_eq_self.mpr fun s mem => ?_
  obtain ⟨g, -, rfl⟩ := List.mem_map.mp mem
  simpa using g.toSpec_ne_empty

/-- The line of a key. -/
def entryLine (entry : String × List Grant) : List Char :=
  Toml.quoteMark :: (entry.1.toList ++ Toml.quoteMark :: ' ' :: '=' :: ' ' ::
    Toml.quoteMark :: ((clauses entry.2).toList ++ [Toml.quoteMark]))

theorem fileLine_toList (key : String) {grants : List Grant} (some_ : grants ≠ []) :
    (fileLine key grants).map String.toList = some (entryLine (key, grants)) := by
  simp [fileLine, entryLine, specs_eq, some_, clauses, Toml.quoteMark]

/-- A character of the clauses is one of a subtree's, or stands for itself. -/
theorem mem_clauses {grants : List Grant} {c : Char} (mem : c ∈ (clauses grants).toList) :
    (c ≠ '\x5c' ∧ c ≠ '\x22' ∧ c ≠ '#' ∧ c ≠ '\n' ∧ Toml.isControl c = false) ∨ ∃ g ∈ grants, c ∈ g.root.toList := by
  rw [clauses, specs_eq] at mem
  rcases mem_joinBy mem with sep | ⟨spec, here, at_⟩
  · left
    rcases (by simpa using sep : c = ',' ∨ c = ' ') with rfl | rfl <;> decide
  · obtain ⟨g, member, rfl⟩ := List.mem_map.mp here
    rcases g.mem_toSpec at_ with ⟨solid, slash, quote, control⟩ | rfl | root
    · refine .inl ⟨slash, quote, (not_reserved solid).2.2.2, ?_, control⟩
      rintro rfl
      exact absurd control (by decide)
    · left
      decide
    · exact .inr ⟨g, member, root⟩

theorem clauses_of_mem_root {grants : List Grant} {g : Grant} (member : g ∈ grants) {c : Char}
    (mem : c ∈ g.root.toList) : c ∈ (clauses grants).toList := by
  rw [clauses, specs_eq]
  refine mem_joinBy_of_mem (List.mem_map_of_mem member) ?_
  rcases g.toSpec_cases with ⟨admin, -⟩ | ⟨-, letters, -, spec⟩
  · rw [admin] at mem
    exact absurd mem (by simp [Grant.adminOnly])
  · rw [spec]
    split_ifs with whole
    · rw [whole] at mem
      exact absurd mem (by simp)
    · simp [mem]

/-- What one line of the file is read as. -/
def readLine (entry : String × List Grant) : Option (String × String) :=
  if Toml.Plain entry.1.toList then (Toml.unquote (clauses entry.2).toList).map fun t => (entry.1, String.ofList t)
  else none

theorem line_entry {key : String} {grants : List Grant} (validKey : validateKey key = .ok ())
    (validRoots : ∀ g ∈ grants, validateNamespace g.root = .ok ()) :
    Toml.line (entryLine (key, grants)) =
      (readLine (key, grants)).map fun e => .pair e.1 (.scalar (.str e.2)) := by
  have hash : '#' ∉ (clauses grants).toList := fun mem => by
    rcases mem_clauses mem with ⟨-, -, off, -⟩ | ⟨g, member, root⟩
    · exact off rfl
    · exact (not_reserved (solid_of_validateNamespace (validRoots g member) _ root)).2.2.2 rfl
  rw [readLine, entryLine]
  split_ifs with plain
  · rw [Toml.line_quoted plain, Toml.ending_quoted _ hash, Option.map_map, String.ofList_toList]
    rfl
  · obtain ⟨-, solid⟩ := solid_of_validateKey validKey
    exact Toml.line_control (fun mem => (solid _ mem).2.2 rfl) (fun mem => (solid _ mem).2.1 rfl) plain _

-- The characters are taken out of the literals first; decoding them by evaluation is slow.
theorem header_reads : (fileHeader.map String.toList).mapM Toml.line = some (List.replicate 6 .blank ++ [.table "acl"]) ∧
    ∀ l ∈ fileHeader.map String.toList, '\n' ∉ l := by
  simp only [fileHeader, List.map_cons, List.map_nil]
  repeat rw [String.toList_ofList]
  decide

/-- The text of the file, line by line. -/
theorem toToml_toList (some_ : ∀ e ∈ acl.keys.entries, e.2 ≠ []) : acl.toToml.toList =
    Toml.unlines (fileHeader.map String.toList ++ acl.keys.entries.map entryLine) := by
  have each : ∀ e ∈ acl.keys.entries, (fileLine e.1 e.2).map String.toList = some (entryLine e) := fun e mem =>
    fileLine_toList e.1 (some_ e mem)
  rw [toToml, String.toList_ofList, List.map_append, List.map_filterMap, List.filterMap_congr each]
  simp

/-- No line of the file is two lines, if nothing in the line of a key is a line feed. -/
theorem lines_single (key : ∀ e ∈ acl.keys.entries, '\n' ∉ e.1.toList)
    (root : ∀ e ∈ acl.keys.entries, ∀ g ∈ e.2, '\n' ∉ g.root.toList) :
    ∀ l ∈ fileHeader.map String.toList ++ acl.keys.entries.map entryLine, '\n' ∉ l := by
  intro l mem
  rcases List.mem_append.mp mem with header | entry
  · exact header_reads.2 l header
  · obtain ⟨e, member, rfl⟩ := List.mem_map.mp entry
    have clauses_ : '\n' ∉ (clauses e.2).toList := fun at_ => by
      rcases mem_clauses at_ with ⟨-, -, -, off, -⟩ | ⟨g, here, inside⟩
      · exact off rfl
      · exact root e member g here inside
    simp [entryLine, key e member, clauses_, Toml.quoteMark]

theorem keys_of_read {entries : List (String × List Grant)} {read : List (String × String)}
    (each : List.Forall₂ (fun e r => readLine e = some r) entries read) : read.map Prod.fst = entries.map Prod.fst := by
  induction each with
  | nil => rfl
  | cons here _ ih =>
      simp only [readLine] at here
      split_ifs at here
      obtain ⟨t, -, rfl⟩ := Option.map_eq_some_iff.mp here
      simp [ih]

/-- The file says of each key what its line says. -/
theorem loadAcl_lines (some_ : ∀ e ∈ acl.keys.entries, e.2 ≠ [])
    (single : ∀ l ∈ fileHeader.map String.toList ++ acl.keys.entries.map entryLine, '\n' ∉ l)
    (reads : ∀ e ∈ acl.keys.entries, Toml.line (entryLine e) = (readLine e).map fun r => .pair r.1 (.scalar (.str r.2))) :
    loadAcl acl.toToml = match acl.keys.entries.mapM readLine with
      | none => .error .unreadable
      | some read => buildAcl read := by
  have lines : (acl.keys.entries.map entryLine).mapM Toml.line =
      (acl.keys.entries.mapM readLine).map (List.map fun r => .pair r.1 (.scalar (.str r.2))) := by
    rw [List.mapM_map]
    exact Traverse.mapM_map_some _ _ reads
  rw [loadAcl, toToml_toList some_, Toml.document_unlines single, List.mapM_append, header_reads.1, lines]
  cases read : acl.keys.entries.mapM readLine with
  | none => rfl
  | some entries =>
      have keys := keys_of_read (Traverse.mapM_eq_some_iff.mp read)
      have nodup : (entries.map Prod.fst).Nodup := keys ▸ acl.keys.keys_nodup
      let fields := entries.map fun r => (r.1, Toml.Value.scalar (.str r.2))
      have fields_ : (fields.map Prod.fst).Nodup := by
        simpa only [fields, List.map_map, Function.comp_def] using nodup
      have doc := Toml.document_table "acl" [] fields 6 0 (by simp) (by simp) fields_
      have strings : aclEntries [("acl", .table fields)] = some entries :=
        Traverse.mapM_written entries fun _ _ => rfl
      have lines_ : List.replicate 6 Toml.Line.blank ++ [.table "acl"] ++
          entries.map (fun r => Toml.Line.pair r.1 (.scalar (.str r.2))) ++ [.blank] =
          List.replicate 6 Toml.Line.blank ++ (.table "acl" :: (fields.map (fun p => .pair p.1 p.2) ++ [.blank])) := by
        simp only [fields, List.map_map, Function.comp_def, List.append_assoc, List.cons_append, List.nil_append]
      simp only [List.map_nil, List.replicate_zero, List.nil_append, ← lines_] at doc
      simp only [Option.map_some, Option.bind_eq_bind, Option.bind_some, Option.pure_def, doc, strings]

theorem loadAcl_toToml (valid : acl.Valid) : loadAcl acl.toToml =
    match acl.keys.entries.mapM readLine with
    | none => .error .unreadable
    | some read => buildAcl read := by
  have feed : isReserved '\n' = true := by decide
  have key : ∀ e ∈ acl.keys.entries, '\n' ∉ e.1.toList := fun e mem at_ => by
    have := ((solid_of_validateKey (valid.key e mem)).2 _ at_).1
    rw [feed] at this
    cases this
  have root : ∀ e ∈ acl.keys.entries, ∀ g ∈ e.2, '\n' ∉ g.root.toList := fun e mem g here at_ => by
    have := solid_of_validateNamespace (valid.root e mem g here) _ at_
    rw [feed] at this
    cases this
  exact loadAcl_lines valid.some_ (lines_single key root) fun e mem => line_entry (valid.key e mem) (valid.root e mem)

/-- A file builds the ACL of what its entries parse to. -/
theorem buildAcl_eq {entries : List (String × String)} {read : Acl} (built : buildAcl entries = .ok read) :
    ∃ parsed : List (String × List Grant),
      List.Forall₂ (fun e p => p.1 = e.1 ∧ parseGrants e.2 = .ok p.2) entries parsed ∧
      read = ⟨parsed.foldl (fun keys p => keys.insert p.1 p.2) ∅⟩ := by
  rw [buildAcl] at built
  generalize (∅ : OrderedMap String (List Grant)) = start at built ⊢
  induction entries generalizing start with
  | nil =>
      obtain rfl : ⟨start⟩ = read := Except.ok.inj built
      exact ⟨[], .nil, rfl⟩
  | cons e rest ih =>
      rw [List.foldlM_cons] at built
      cases here : parseGrants e.2 with
      | error reason =>
          rw [here] at built
          cases built
      | ok grants =>
          rw [here] at built
          obtain ⟨parsed, each, whole⟩ := ih (start.insert e.1 grants) built
          exact ⟨(e.1, grants) :: parsed, .cons ⟨rfl, here⟩ each, whole⟩

/-- Entries that are clauses of an ACL's own grants build that ACL. -/
theorem buildAcl_clauses (parses : ∀ e ∈ acl.keys.entries, parseGrants (clauses e.2) = .ok e.2) :
    buildAcl (acl.keys.entries.map fun e => (e.1, clauses e.2)) = .ok acl := by
  have folded : ∀ (l : List (String × List Grant)) (start : Acl), (∀ e ∈ l, parseGrants (clauses e.2) = .ok e.2) →
      (l.map fun e => (e.1, clauses e.2)).foldlM (fun acl entry => match parseGrants entry.2 with
        | .ok grants => .ok (acl.set entry.1 grants)
        | .error reason => .error (.entry entry.1 reason)) start =
      (.ok ⟨l.foldl (fun keys e => keys.insert e.1 e.2) start.keys⟩ : Except AclError Acl) := by
    intro l
    induction l with
    | nil => exact fun _ _ => rfl
    | cons e rest ih =>
        intro start each
        rw [List.map_cons, List.foldlM_cons, each e (by simp)]
        exact ih _ fun e' mem => each e' (by simp [mem])
  rw [buildAcl, folded _ _ parses]
  exact congrArg (fun keys => Except.ok (Acl.mk keys)) acl.keys.foldl_insert_entries

/-- What can be written is read back as it is. -/
theorem loadAcl_of_writable (writable : acl.Writable) : loadAcl acl.toToml = .ok acl := by
  have clauses_ : ∀ e ∈ acl.keys.entries, Toml.Plain (clauses e.2).toList := fun e mem c at_ => by
    rcases mem_clauses at_ with ⟨slash, quote, -, -, control⟩ | ⟨g, here, root⟩
    · exact ⟨quote, slash, control⟩
    · exact writable.plain e mem g here c root
  have feed : ∀ cs : List Char, Toml.Plain cs → '\n' ∉ cs := fun cs plain mem =>
    absurd (plain _ mem).2.2 (by decide)
  have line : ∀ e ∈ acl.keys.entries, readLine e = some (e.1, clauses e.2) := fun e mem => by
    simp [readLine, writable.key e mem, Toml.unquote_plain (clauses_ e mem)]
  have single := @lines_single acl (fun e mem => feed _ (writable.key e mem))
    fun e mem g here => feed _ (writable.plain e mem g here)
  rw [loadAcl_lines writable.some_ single fun e mem => ?_]
  · have read : acl.keys.entries.mapM readLine = some (acl.keys.entries.map fun e => (e.1, clauses e.2)) := by
      rw [Traverse.mapM_eq_some_iff, List.forall₂_map_right_iff, List.forall₂_same]
      exact line
    rw [read]
    exact buildAcl_clauses fun e mem => parseGrants_specs (writable.some_ e mem) (writable.comma e mem) (writable.trimmed e mem)
  · rw [line e mem, entryLine, Toml.line_quoted (writable.key e mem), Toml.ending_plain (clauses_ e mem)]
    simp

end Acl

end SightingDB
