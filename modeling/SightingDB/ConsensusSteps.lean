import SightingDB.Lib.Threads
import SightingDB.Lib.Handles
import SightingDB.Consensus

/-!
Writers, merges, deletions and sweeps side by side, one critical section at a time, with
everything in memory. The namespace map, the catalogue and each namespace have a lock of their
own, and between two sections any other thread may run.

Nothing is evicted, so a lookup that fails in the map fails. Marking shards dirty and looking
up `_all` for the log change none of what is modelled here.
-/
namespace SightingDB.Concurrent

open Database

structure Server where
  node : String
  statsRetention : Nat

structure Shared where
  namespaces : Handles String Namespace
  shards : OrderedMap String ShardMeta

/-- What a writer brings to a namespace: a sighting, or a peer's copy of a value. -/
inductive Change
  | write (origin value : String) (when : DateTime) (ttl : Option Nat) (consensus : Bool) (tags : String)
  | merge (value : String) (incoming : Merge)

def Change.value : Change → String
  | .write _ value _ _ _ _ => value
  | .merge value _ => value

/-- The namespace with the change in it. -/
def Change.apply (server : Server) (ns : Namespace) : Change → Namespace
  | .write origin value when ttl _ tags =>
      (ns.record origin value when ttl server.statsRetention tags).1
  | .merge value incoming => (ns.merge server.node value incoming).1

def Change.isNew (server : Server) (ns : Namespace) : Change → Bool
  | .write origin value when ttl _ tags =>
      (ns.record origin value when ttl server.statsRetention tags).2.2.1
  | .merge value incoming => (ns.merge server.node value incoming).2.2

/-- Whether `_all` is told when the value is new: a write is told so by its caller, a merge
goes by the namespace. -/
def Change.tells (path : String) : Change → Bool
  | .write _ _ _ _ consensus _ => consensus
  | .merge _ _ => countsTowardsConsensus path

/-- The time a first sighting is counted at in `_all`. -/
def Change.when (now : DateTime) : Change → DateTime
  | .write _ _ when _ _ _ => when
  | .merge _ _ => now

/-- The critical section a write or a merge enters next, with the handles it holds. -/
inductive Point
  | lookup
  | create
  | enroll (id : Nat)
  | apply (id : Nat)
  | allLookup (id : Nat)
  | allCreate (id : Nat)
  | allEnroll (id all : Nat)
  | allRecord (id all : Nat)
  | mark (id : Nat)
  | done

/-- The critical section a deletion enters next, with the values it has read. -/
inductive Removal
  | find
  | values (id : Nat)
  | unlink (listed : List String)
  | uncatalogue (listed : List String)
  | giveFind (value : String) (rest : List String)
  | give (all : Nat) (value : String) (rest : List String)
  | done

/-- The entries a sweep walks, with a handle on each, those it has still to walk, and the
namespaces it has emptied. -/
structure Walk where
  entries : List (String × Nat)
  todo : List (String × Nat)
  emptied : List String

/-- The critical section a sweep enters next. -/
inductive Sweep
  | snapshot
  | check (name : String) (id : Nat) (walk : Walk)
  | retain (name : String) (id : Nat) (walk : Walk)
  | isEmpty (name : String) (id : Nat) (expired : List String) (walk : Walk)
  | giveFind (value : String) (rest : List String) (walk : Walk)
  | give (all : Nat) (value : String) (rest : List String) (walk : Walk)
  | prune (emptied : List String)
  | uncatalogue (removed : List String)
  | done

inductive Thread
  | change (path : String) (change : Change) (at_ : Point)
  | delete (name : String) (at_ : Removal)
  | sweep (now : DateTime) (at_ : Sweep)

/-- What a turn finds outside: the clock, and the order in which the map happens to be walked. -/
structure Input where
  now : DateTime
  order : List String

/-! ## Handles -/

def Point.handles : Point → List Nat
  | .lookup | .create | .done => []
  | .enroll id | .apply id | .allLookup id | .allCreate id | .mark id => [id]
  | .allEnroll id all | .allRecord id all => [id, all]

def Removal.handles : Removal → List Nat
  | .values id => [id]
  | .give all _ _ => [all]
  | _ => []

def Walk.handles (walk : Walk) : List Nat := walk.entries.map Prod.snd

/-- A sweep lets go of its entries before it prunes. -/
def Sweep.handles : Sweep → List Nat
  | .check _ _ walk | .retain _ _ walk | .isEmpty _ _ _ walk | .giveFind _ _ walk => walk.handles
  | .give all _ _ walk => all :: walk.handles
  | .snapshot | .prune _ | .uncatalogue _ | .done => []

def Thread.handles : Thread → List Nat
  | .change _ _ at_ => at_.handles
  | .delete _ at_ => at_.handles
  | .sweep _ at_ => at_.handles

/-! ## Sections -/

namespace Shared

variable (sh : Shared)

/-- `entry(name).or_default()`. -/
def create (name : String) : Shared × Nat :=
  match sh.namespaces.handle name with
  | some id => (sh, id)
  | none => ({ sh with namespaces := sh.namespaces.add name .empty }, sh.namespaces.cells.length)

def enroll (name : String) (now : DateTime) : Shared :=
  { sh with shards := catalogue sh.shards name now.timestamp }

/-- What a handle leads to. -/
def cell (id : Nat) : Namespace := (sh.namespaces.cells[id]?).getD .empty

def put (id : Nat) (ns : Namespace) : Shared :=
  { sh with namespaces := sh.namespaces.modify id fun _ => ns }

def unlink (name : String) : Shared :=
  { sh with namespaces := sh.namespaces.filter fun n => n ≠ name }

def uncatalogue (name : String) : Shared :=
  match sh.shards.get (shardOf name) with
  | none => sh
  | some meta_ =>
      { sh with shards :=
          sh.shards.insert (shardOf name) { meta_ with namespaces := meta_.namespaces.erase name } }

/-- Whether `prune_empty` takes a namespace: nobody has a handle on it, and it is empty. -/
def prunes (threads : List Thread) (name : String) : Bool :=
  !startsWith name configPrefix &&
    match sh.namespaces.handle name with
    | none => false
    | some id => !threads.any (fun t => t.handles.contains id) && (sh.cell id).isEmpty

end Shared

/-- After the values to give back have been read. -/
def Removal.next : List String → Removal
  | [] => .done
  | value :: rest => .giveFind value rest

/-- On to the next entry. API keys are never swept out from under the ACL. -/
def Sweep.next (entries : List (String × Nat)) (emptied : List String) :
    List (String × Nat) → Sweep
  | [] => .prune emptied
  | (name, id) :: todo =>
      if startsWith name configPrefix then Sweep.next entries emptied todo
      else .check name id ⟨entries, todo, emptied⟩

def Walk.next (walk : Walk) : Sweep := Sweep.next walk.entries walk.emptied walk.todo

/-- On to the next value to give back, or to the next entry. -/
def Walk.giving (walk : Walk) : List String → Sweep
  | [] => walk.next
  | value :: rest => .giveFind value rest walk

variable (server : Server)

/-- One section of a write or a merge. -/
def change (input : Input) (sh : Shared) (path : String) (c : Change) : Point → Shared × Point
  | .lookup =>
      match sh.namespaces.handle path with
      | some id => (sh, .apply id)
      | none => (sh, .create)
  | .create =>
      let (sh, id) := sh.create path
      (sh, .enroll id)
  | .enroll id => (sh.enroll path input.now, .apply id)
  | .apply id =>
      let ns := sh.cell id
      (sh.put id (c.apply server ns), if c.tells path && c.isNew server ns then .allLookup id else .mark id)
  | .allLookup id =>
      match sh.namespaces.handle allNamespace with
      | some all => (sh, .allRecord id all)
      | none => (sh, .allCreate id)
  | .allCreate id =>
      let (sh, all) := sh.create allNamespace
      (sh, .allEnroll id all)
  | .allEnroll id all => (sh.enroll allNamespace input.now, .allRecord id all)
  | .allRecord id all =>
      let ns := sh.cell all
      (sh.put all (ns.record server.node c.value (c.when input.now) none server.statsRetention "").1,
        .mark id)
  | .mark _ => (sh, .done)
  | .done => (sh, .done)

/-- One section of a deletion. -/
def delete (sh : Shared) (name : String) : Removal → Shared × Removal
  | .find =>
      match sh.namespaces.handle name with
      | some id => (sh, .values id)
      | none => (sh, .done)
  | .values id => (sh, .unlink (sh.cell id).valueNames)
  | .unlink listed =>
      match sh.namespaces.handle name with
      | some _ => (sh.unlink name, .uncatalogue listed)
      | none => (sh, .done)
  | .uncatalogue listed =>
      (sh.uncatalogue name, if countsTowardsConsensus name then .next listed else .done)
  | .giveFind value rest =>
      match sh.namespaces.handle allNamespace with
      | some all => (sh, .give all value rest)
      | none => (sh, .next rest)
  | .give all value rest => (sh.put all ((sh.cell all).release server.node value), .next rest)
  | .done => (sh, .done)

/-- One section of a sweep. Expired values are looked for under the read lock first. -/
def sweep (input : Input) (threads : List Thread) (sh : Shared) (now : DateTime) :
    Sweep → Shared × Sweep
  | .snapshot =>
      let entries := input.order.filterMap fun name => (sh.namespaces.handle name).map (name, ·)
      (sh, Sweep.next entries [] entries)
  | .check name id walk =>
      let ns := sh.cell id
      if ns.hasTtl && ns.values.entries.any (fun e => e.2.isExpired now) then (sh, .retain name id walk)
      else (sh, walk.next)
  | .retain name id walk =>
      let (ns, expired) := (sh.cell id).removeExpired now
      (sh.put id ns, if expired.isEmpty then walk.next else .isEmpty name id expired walk)
  | .isEmpty name id expired walk =>
      let emptied := if (sh.cell id).isEmpty then walk.emptied ++ [name] else walk.emptied
      let walk := { walk with emptied := emptied }
      (sh, if countsTowardsConsensus name then walk.giving expired else walk.next)
  | .giveFind value rest walk =>
      match sh.namespaces.handle allNamespace with
      | some all => (sh, .give all value rest walk)
      | none => (sh, walk.giving rest)
  | .give all value rest walk => (sh.put all ((sh.cell all).release server.node value), walk.giving rest)
  | .prune emptied =>
      let removed := emptied.filter (sh.prunes threads)
      (removed.foldl Shared.unlink sh, .uncatalogue removed)
  | .uncatalogue removed => (removed.foldl Shared.uncatalogue sh, .done)
  | .done => (sh, .done)

def program : Threads.Program Input Shared Thread
  | input, _, _, sh, .change path c at_ =>
      let (sh, at_) := change server input sh path c at_
      (sh, .change path c at_)
  | _, _, _, sh, .delete name at_ =>
      let (sh, at_) := delete server sh name at_
      (sh, .delete name at_)
  | input, threads, _, sh, .sweep now at_ =>
      let (sh, at_) := sweep server input threads sh now at_
      (sh, .sweep now at_)

end SightingDB.Concurrent
