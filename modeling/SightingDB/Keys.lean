import SightingDB.Acl

/-!
API keys as they are written down: which text may be a key or the subtree of a grant, how a
grant is spelled, and the form in which the management interface takes a key.
-/
namespace SightingDB

/-- `{:?}` of a character that is white space or punctuation. -/
def debugChar (c : Char) : String :=
  if c = '\t' then "'\\t'"
  else if c = '\n' then "'\\n'"
  else if c = '\x0d' then "'\\r'"
  else if c = '\x5c' then "'\\\\'"
  else if c = '\x27' then "'\\''"
  else if 0x20 ≤ c.toNat && c.toNat < 0x7f then "'" ++ c.toString ++ "'"
  else "'\\u\x7b" ++ String.ofList (Nat.toDigits 16 c.toNat) ++ "\x7d'"

/-- What would end a key or a grant, or start something else. -/
def isReserved (c : Char) : Bool :=
  isWhitespace c || c = '=' || c = ':' || c = ',' || c = '[' || c = ']' || c = ';' || c = '#'

def validateKey (key : String) : Except String Unit :=
  if key = "" then .error "an API key cannot be empty"
  else if 256 < key.utf8ByteSize then .error "an API key cannot be longer than 256 characters"
  else match key.toList.find? fun c => isReserved c || c = '\x5c' || c = '\x22' || c = '\x27' with
    | some bad => .error ("an API key cannot contain " ++ debugChar bad)
    | none => .ok ()

def validateNamespace (name : String) : Except String Unit :=
  if 512 < name.utf8ByteSize then .error "a namespace cannot be longer than 512 characters"
  else match name.toList.find? isReserved with
    | some bad => .error ("a namespace cannot contain " ++ debugChar bad)
    | none =>
        if startsWithChar name '_' then .error ("'" ++ name ++ "' is an internal namespace and cannot be granted")
        else .ok ()

theorem solid_of_validateNamespace {name : String} (valid : validateNamespace name = .ok ()) :
    ∀ c ∈ name.toList, isReserved c = false := by
  simp only [validateNamespace] at valid
  split at valid
  · cases valid
  · split at valid
    · cases valid
    · rename_i free
      intro c mem
      simpa using List.find?_eq_none.mp free c mem

theorem solid_of_validateKey {key : String} (valid : validateKey key = .ok ()) :
    key ≠ "" ∧ ∀ c ∈ key.toList, isReserved c = false ∧ c ≠ '\x5c' ∧ c ≠ '\x22' := by
  simp only [validateKey] at valid
  split_ifs at valid with empty long
  split at valid
  · cases valid
  · rename_i free
    refine ⟨empty, fun c mem => ?_⟩
    have := List.find?_eq_none.mp free c mem
    simp only [Bool.or_eq_true, decide_eq_true_eq, not_or] at this
    exact ⟨by simpa using this.1.1.1, this.1.1.2, this.1.2⟩

theorem not_reserved {c : Char} (solid : isReserved c = false) :
    isWhitespace c = false ∧ c ≠ ',' ∧ c ≠ ':' ∧ c ≠ '#' := by
  simp only [isReserved, Bool.or_eq_false_iff, decide_eq_false_iff_not] at solid
  tauto

/-! ## Grants -/

namespace Grant

/-- Render back to the `[acl]` syntax. -/
def toSpec (grant : Grant) : String :=
  if grant.admin then "admin"
  else
    let spell (letters : String) : String := if grant.root = "" then letters else letters ++ ":" ++ grant.root
    match grant.read, grant.write with
    | true, true => spell "rw"
    | true, false => spell "r"
    | false, true => spell "w"
    | false, false => ""

end Grant

/-- The permission and the subtree of one clause. -/
def clauseOf (part : String) : String × String :=
  match splitOnce ':' part with
  | some (permissions, root) => (trim permissions, trim root)
  | none => (part, "")

def grantOf (permissions root : String) : Except String Grant :=
  if permissions = "admin" then .ok .adminOnly
  else if permissions = "r" then .ok ⟨root, true, false, false, .inr ⟨rfl, .inl rfl⟩⟩
  else if permissions = "w" then .ok ⟨root, false, true, false, .inr ⟨rfl, .inr rfl⟩⟩
  else if permissions = "rw" ∨ permissions = "wr" then .ok ⟨root, true, true, false, .inr ⟨rfl, .inl rfl⟩⟩
  else .error ("unknown permission '" ++ permissions ++ "', expected one of r, w, rw, admin")

/-- One clause of the right-hand side of an `[acl]` entry. -/
def parseGrant (part : String) : Except String Grant := grantOf (clauseOf part).1 (clauseOf part).2

/-- The right-hand side of an `[acl]` entry: clauses parted by commas. -/
def parseGrants (spec : String) : Except String (List Grant) :=
  match (((splitOnChar ',' spec).map trim).filter (· ≠ "")).mapM parseGrant with
  | .error e => .error e
  | .ok grants =>
      if grants.isEmpty then
        .error "no grants given; use 'r', 'w' or 'rw', optionally as 'rw:<namespace>'"
      else .ok grants

/-! ## Keys at the management interface -/

structure KeyEntry where
  key : String
  admin : Bool
  read : List String
  write : List String
  deriving DecidableEq

namespace KeyEntry

def fromGrants (key : String) (grants : List Grant) : KeyEntry where
  key := key
  admin := grants.any (·.admin)
  read := (grants.filter (·.read)).map (·.root)
  write := (grants.filter (·.write)).map (·.root)

/-- Back to grants, collapsing a subtree granted for both into one. -/
def toGrants (entry : KeyEntry) : List Grant :=
  entry.read.map (fun root => ⟨root, true, decide (root ∈ entry.write), false, .inr ⟨rfl, .inl rfl⟩⟩) ++
    (entry.write.filter (· ∉ entry.read)).map (fun root => ⟨root, false, true, false, .inr ⟨rfl, .inr rfl⟩⟩) ++
    (if entry.admin then [.adminOnly] else [])

def validate (entry : KeyEntry) : Except String Unit :=
  match validateKey entry.key with
  | .error e => .error e
  | .ok () => match (entry.read ++ entry.write).mapM validateNamespace with
    | .error e => .error e
    | .ok _ =>
        if !entry.admin && entry.read.isEmpty && entry.write.isEmpty then
          .error "a key with no grants at all cannot do anything"
        else .ok ()

end KeyEntry

end SightingDB
