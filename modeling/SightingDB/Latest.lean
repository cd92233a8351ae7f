import SightingDB.Paths
import SightingDB.Lib.OrderedMap

/-!
The values written most recently, and where. One entry a value and namespace, in the order
they were last written; the oldest goes when there are more than the capacity.

The lock around the record is left out: each operation is one step.
-/
namespace SightingDB

/-- `written` is when the write arrived, not the sighting's own time. -/
structure LatestEntry where
  namespace_ : String
  value : String
  written : Int
  deriving DecidableEq

/-- Entries by when they were last written, and where each namespace and value sits among them.
`next` goes up by one a write and is below 2^64 in the source, which a run of that many writes
would have to reach. -/
structure Latest where
  capacity : Nat
  order : OrderedMap Nat LatestEntry
  position : OrderedMap String Nat
  next : Nat
  dirty : Bool
  deriving DecidableEq

namespace Latest

/-- `DEFAULT_CAPACITY`. -/
def defaultCapacity : Nat := 10000

/-- The most one request can return, whatever it asks for. -/
def maxLimit : Nat := 1000

/-- What a request without a limit gets. -/
def defaultLimit : Nat := 100

def default : Latest := ⟨defaultCapacity, ∅, ∅, 0, false⟩

def keyOf (name value : String) : String := name ++ "\x00" ++ value

/-- The entries, oldest first. -/
def entries (latest : Latest) : List LatestEntry := latest.order.entries.map (·.2)

/-! ## Recording -/

def remove (latest : Latest) (key : String) : Latest :=
  match latest.position.get key with
  | none => latest
  | some at_ => { latest with position := latest.position.erase key, order := latest.order.erase at_ }

def dropOldest (latest : Latest) : Latest :=
  match latest.order.entries with
  | [] => latest
  | (at_, oldest) :: _ =>
      { latest with
        order := latest.order.erase at_
        position := latest.position.erase (keyOf oldest.namespace_ oldest.value) }

/-- `Inner::trim`. -/
def trimTo (capacity : Nat) (latest : Latest) : Latest :=
  dropOldest^[latest.order.entries.length - capacity] latest

def push (latest : Latest) (entry : LatestEntry) (capacity : Nat) : Latest :=
  let key := keyOf entry.namespace_ entry.value
  let freed := latest.remove key
  trimTo capacity { freed with
    next := freed.next + 1
    order := freed.order.insert freed.next entry
    position := freed.position.insert key freed.next }

def setCapacity (latest : Latest) (capacity : Nat) : Latest :=
  let trimmed := trimTo capacity { latest with capacity := capacity }
  { trimmed with dirty := latest.dirty || trimmed.order.entries.length ≠ latest.order.entries.length }

/-- A write to one of the database's own namespaces is not noted. -/
def recordAt (latest : Latest) (name value : String) (written : Int) : Latest :=
  if latest.capacity = 0 || isInternal name then latest
  else { latest.push ⟨name, value, written⟩ latest.capacity with dirty := true }

/-- Exactly that namespace: those below it stay. -/
def forgetNamespace (latest : Latest) (name : String) : Latest :=
  let gone := (latest.entries.filter (·.namespace_ = name)).map fun e => keyOf e.namespace_ e.value
  if gone.isEmpty then latest else { gone.foldl remove latest with dirty := true }

def takeSnapshot (latest : Latest) (force : Bool) : Option (List LatestEntry) × Latest :=
  if !latest.dirty && !force then (none, latest) else (some latest.entries, { latest with dirty := false })

/-- What was recorded since startup stays newer than what was saved. -/
def restore (latest : Latest) (saved : List LatestEntry) : Latest :=
  (saved ++ latest.entries).foldl (fun l entry => l.push entry latest.capacity)
    { latest with order := ∅, position := ∅ }

/-! ## Reading -/

/-- Whether a namespace is at or below another, by whole segments. -/
def under (name start : String) : Bool := start = "" || StoragePolicy.isAtOrUnder name start

/-- The test `recent` puts to an entry. -/
def inSubtree (start name : String) : Bool := under name (trimSlashes start)

def walk (limit : Nat) (since : Option Int) (start : String) (visible : String → Bool) :
    List LatestEntry → List LatestEntry → List LatestEntry
  | found, [] => found
  | found, entry :: older =>
      if limit ≤ found.length then found
      else if since.any (entry.written < ·) then found
      else if inSubtree start entry.namespace_ && visible entry.namespace_ then
        walk limit since start visible (found ++ [entry]) older
      else walk limit since start visible found older

/-- The most recent first. -/
def recent (latest : Latest) (limit : Nat) (since : Option Int) (start : String) (visible : String → Bool) :
    List LatestEntry :=
  walk (min limit maxLimit) since start visible [] latest.entries.reverse

end Latest

end SightingDB
