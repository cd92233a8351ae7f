import SightingDB.Paths
import SightingDB.Lib.OrderedMap

/-!
Which API keys exist and what each may do. Access is allow-only: a key is denied unless one
of its grants both covers the namespace and carries the permission asked for.
-/
namespace SightingDB

/-- One permission a key holds over a subtree; an empty root covers every namespace. The admin
grant is about the server and is never combined with the others. -/
structure Grant where
  root : String
  read : Bool
  write : Bool
  admin : Bool
  own : admin = true ∧ root = "" ∧ read = false ∧ write = false ∨ admin = false ∧ (read = true ∨ write = true)
  deriving DecidableEq

namespace Grant

/-- `Grant::all_data()`. -/
def allData : Grant := ⟨"", true, true, false, .inr ⟨rfl, .inl rfl⟩⟩

/-- `Grant::admin()`. -/
def adminOnly : Grant := ⟨"", false, false, true, .inl ⟨rfl, rfl, rfl, rfl⟩⟩

end Grant

def segments (path : String) : List String := (splitOnChar '/' path).filter (· ≠ "")

/-- Matching is per path segment, slashes at either end ignored. -/
def Grant.covers (grant : Grant) (name : String) : Bool := (segments grant.root).isPrefixOf (segments name)

structure Acl where
  keys : OrderedMap String (List Grant)
  deriving DecidableEq

inductive Access
  | read
  | write
  deriving DecidableEq

def Access.verb : Access → String
  | .read => "read"
  | .write => "write"

namespace Acl

def allows (acl : Acl) (key name : String) (permitted : Grant → Bool) : Bool :=
  match acl.keys.get key with
  | none => false
  | some grants => grants.any fun grant => permitted grant && grant.covers name

def canRead (acl : Acl) (key name : String) : Bool := acl.allows key name (·.read)

def canWrite (acl : Acl) (key name : String) : Bool := acl.allows key name (·.write)

def contains (acl : Acl) (key : String) : Bool := acl.keys.contains key

def set (acl : Acl) (key : String) (grants : List Grant) : Acl := ⟨acl.keys.insert key grants⟩

def remove (acl : Acl) (key : String) : Acl := ⟨acl.keys.erase key⟩

/-- Whether a key may use the admin interface. -/
def isAdmin (acl : Acl) (key : String) : Bool :=
  match acl.keys.get key with
  | none => false
  | some grants => grants.any (·.admin)

/-- How many keys still hold an admin grant. -/
def adminCount (acl : Acl) : Nat := acl.keys.countP fun _ grants => grants.any (·.admin)

end Acl

end SightingDB
