import SightingDB.Lib.Threads
import SightingDB.Lib.Handles
import SightingDB.Persistence

/-!
Eviction next to writers and readers, one critical section at a time. The namespace map, the
catalogue of shards and the dirty set have a lock each, and between two of them any other
thread may run.

The write to `_all` inside a write, and the lookups of `_all` for the log, are the same steps
on another namespace: a thread of their own, scheduled while the outer write holds its handle.
Every file operation succeeds.
-/
namespace SightingDB.Eviction

/-- One write as it reaches its namespace. -/
structure Sighting where
  origin : String
  value : String
  when : DateTime
  ttl : Option Nat
  tags : String
  deriving DecidableEq

/-- The thread that wrote, and the value it wrote. -/
abbrev Token := Nat × String

/-- A namespace in memory. `seen` says which sightings went into it; no code reads it. -/
structure Book where
  ns : Namespace
  seen : List Token
  holds : ∀ t ∈ seen, ns.values.contains t.2 = true

/-- A namespace in a file, with the sightings that went into it. -/
structure Sheet where
  values : OrderedMap String Attribute
  seen : List Token
  holds : ∀ t ∈ seen, values.contains t.2 = true

def Book.blank : Book := ⟨.empty, [], by simp⟩

def Book.record (b : Book) (thread : Nat) (s : Sighting) (retention : Nat) : Book where
  ns := (b.ns.record s.origin s.value s.when s.ttl retention s.tags).1
  seen := b.seen ++ [(thread, s.value)]
  holds t mem := by
    rw [Namespace.record_values, OrderedMap.contains, OrderedMap.get_insert]
    split
    · rfl
    · rcases List.mem_append.mp mem with old | new
      · exact b.holds t old
      · simp_all

def Book.save (b : Book) : Sheet where
  values := b.ns.values.mapValues fun _ a => a.stored
  seen := b.seen
  holds t mem := by
    rw [OrderedMap.contains, OrderedMap.get_mapValues, Option.isSome_map]
    exact b.holds t mem

def Sheet.load (sheet : Sheet) (node : String) : Book where
  ns := .fromValues sheet.values node
  seen := sheet.seen
  holds t mem := by
    rw [Namespace.fromValues, OrderedMap.contains, OrderedMap.get_mapValues, Option.isSome_map]
    exact sheet.holds t mem

structure Server where
  names : ShardFiles
  node : String
  statsRetention : Nat
  tiers : TierPolicy

/-- What the threads share. `marks` are the insertions into the dirty set so far, `written` the
namespaces that hold something or to which a write has returned; no code reads either. -/
structure Shared where
  namespaces : Handles String Book
  shards : OrderedMap String ShardMeta
  dirty : Names
  files : OrderedMap String (OrderedMap String Sheet)
  marks : List String
  written : List String

namespace Shared

variable (server : Server) (sh : Shared)

/-- A shard without a file has nothing in it. -/
def fileOf (shard : String) : OrderedMap String Sheet :=
  (sh.files.get (server.names.file shard)).getD ∅

def isResident (shard : String) : Bool := ((sh.shards.get shard).map (·.resident)).getD false

/-- Whether the catalogue lists a namespace in a shard that is not in memory. -/
def catalogued (shard name : String) : Bool :=
  match sh.shards.get shard with
  | none => false
  | some meta_ => !meta_.resident && meta_.namespaces.contains name

/-- Whether a shard is known and not in memory. -/
def evicted (shard : String) : Bool :=
  match sh.shards.get shard with
  | none => false
  | some meta_ => !meta_.resident

def touch (shard : String) (now : Int) : Shared :=
  match sh.shards.get shard with
  | none => sh
  | some meta_ => { sh with shards := sh.shards.insert shard { meta_ with lastAccess := now } }

/-- The map section of `page_in`, when the shard is not resident. -/
def load (shard : String) : Shared :=
  let books := (sh.fileOf server shard).mapValues fun _ sheet => sheet.load server.node
  { sh with namespaces := sh.namespaces.addAll books.entries }

/-- The catalogue section of `page_in`. -/
def flag (shard : String) (listed : List String) (now : Int) : Shared :=
  let meta_ := (sh.shards.get shard).getD .default
  let namespaces := listed.foldl (fun names name => names.insert name ()) meta_.namespaces
  { sh with shards := sh.shards.insert shard ⟨namespaces, true, now⟩ }

/-- `entry(name).or_default()`. -/
def create (name : String) : Shared × Nat :=
  match sh.namespaces.handle name with
  | some id => (sh, id)
  | none => ({ sh with namespaces := sh.namespaces.add name .blank }, sh.namespaces.cells.length)

/-- Note a namespace in the catalogue and mark its shard resident. -/
def enroll (name : String) (now : Int) : Shared :=
  { sh with shards := Database.catalogue sh.shards name now }

def record (id thread : Nat) (s : Sighting) : Shared :=
  { sh with namespaces := sh.namespaces.modify id fun b => b.record thread s server.statsRetention }

def markDirty (shard : String) : Shared :=
  { sh with dirty := sh.dirty.insert shard (), marks := shard :: sh.marks }

def unmark (shard : String) : Shared := { sh with dirty := sh.dirty.erase shard }

/-- A shard written to its file. -/
def save (shard : String) : Shared :=
  let books := sh.namespaces.objects.filter fun name _ => shardOf name = shard
  let file := books.mapValues fun _ b => b.save
  { sh with files := sh.files.insert (server.names.file shard) file }

/-- The map section of `drop_shard`, when nobody holds a handle. -/
def drop (shard : String) : Shared :=
  { sh with namespaces := sh.namespaces.filter fun name => shardOf name ≠ shard }

/-- The catalogue section of `drop_shard`. -/
def unflag (shard : String) : Shared :=
  match sh.shards.get shard with
  | none => sh
  | some meta_ => { sh with shards := sh.shards.insert shard { meta_ with resident := false } }

def return_ (name : String) : Shared := { sh with written := name :: sh.written }

end Shared

/-- What a request wants from a namespace. A read remembers whether its namespace had been
written when it started. -/
inductive Goal
  | write (s : Sighting)
  | read (expected : Bool)
  deriving DecidableEq

/-- Where a request stands: the critical section it enters next. `page_in` is called from two
places; `extending` is the call before a new namespace is registered. -/
inductive Point
  | touch
  | lookup
  | catalogue
  | load (extending : Bool)
  | flag (extending : Bool) (listed : List String)
  | lookupAgain
  | evicted
  | create
  | enroll (id : Nat)
  | record (id : Nat)
  | mark (id : Nat)
  | release (id : Nat)
  | done
  | missing
  deriving DecidableEq

/-- Where an eviction pass stands: the shard it is at, and those still to come. `looked` is how
many marks that shard had been given when the pass last looked at it. -/
inductive Pass
  | candidates
  | test (shard : String) (rest : List String)
  | save (shard : String) (rest : List String)
  | unmark (shard : String) (rest : List String) (looked : Nat)
  | drop (shard : String) (rest : List String)
  | unflag (shard : String) (rest : List String)
  | done
  deriving DecidableEq

inductive Thread
  | access (name : String) (goal : Goal) (at_ : Point)
  | evictor (at_ : Pass)
  deriving DecidableEq

/-- The handle a request holds. -/
def Point.handle : Point → Option Nat
  | .enroll id | .record id | .mark id | .release id => some id
  | _ => none

def Thread.handle : Thread → Option Nat
  | .access _ _ at_ => at_.handle
  | .evictor _ => none

/-- `Arc::strong_count` above one, for some namespace of the shard. -/
def busy (threads : List Thread) (sh : Shared) (shard : String) : Bool :=
  sh.namespaces.map.entries.any fun e =>
    shardOf e.1 = shard && threads.any fun t => t.handle = some e.2

/-- A read that finds its namespace written expects it to be there. -/
def Goal.looked (written : Bool) : Goal → Goal
  | .write s => .write s
  | .read _ => .read written

/-- After a handle is taken: a write records through it, a read looks and lets go. -/
def Goal.found (id : Nat) : Goal → Point
  | .write _ => .record id
  | .read _ => .release id

/-- After `namespace` found nothing: a write goes on to register it, a read is answered. -/
def Goal.absent : Goal → Point
  | .write _ => .evicted
  | .read _ => .missing

/-- After `page_in`. -/
def Point.loaded (extending : Bool) : Point := if extending then .create else .lookupAgain

def nextShard : List String → Pass
  | [] => .done
  | shard :: rest => .test shard rest

variable (server : Server)

/-- One critical section of a request. -/
def access (now : Int) (i : Nat) (sh : Shared) (name : String) (goal : Goal) :
    Point → Shared × Goal × Point
  | .touch => (sh.touch (shardOf name) now, goal, .lookup)
  | .lookup =>
      let goal := goal.looked (sh.written.contains name)
      match sh.namespaces.handle name with
      | some id => (sh, goal, goal.found id)
      | none => (sh, goal, .catalogue)
  | .catalogue =>
      if sh.catalogued (shardOf name) name then (sh, goal, .load false) else (sh, goal, goal.absent)
  | .load extending =>
      if sh.isResident (shardOf name) then (sh, goal, .loaded extending)
      else (sh.load server (shardOf name), goal,
        .flag extending (sh.fileOf server (shardOf name)).keys)
  | .flag extending listed => (sh.flag (shardOf name) listed now, goal, .loaded extending)
  | .lookupAgain =>
      match sh.namespaces.handle name with
      | some id => (sh, goal, goal.found id)
      | none => (sh, goal, goal.absent)
  | .evicted =>
      if sh.evicted (shardOf name) then (sh, goal, .load true) else (sh, goal, .create)
  | .create =>
      let (sh, id) := sh.create name
      (sh, goal, .enroll id)
  | .enroll id => (sh.enroll name now, goal, goal.found id)
  | .record id =>
      match goal with
      | .write s => (sh.record server id i s, goal, .mark id)
      | .read _ => (sh, goal, .release id)
  | .mark id => (sh.markDirty (shardOf name), goal, .release id)
  | .release _ =>
      match goal with
      | .write _ => (sh.return_ name, goal, .done)
      | .read _ => (sh, goal, .done)
  | .done => (sh, goal, .done)
  | .missing => (sh, goal, .missing)

/-- One critical section of an eviction pass. -/
def evict (now : Int) (threads : List Thread) (sh : Shared) : Pass → Shared × Pass
  | .candidates =>
      (sh, nextShard (sh.shards.filter fun shard meta_ => server.tiers.isIdle now shard meta_).keys)
  | .test shard rest =>
      if sh.dirty.contains shard then (sh, .save shard rest)
      else (sh, .unmark shard rest (sh.marks.count shard))
  | .save shard rest => (sh.save server shard, .unmark shard rest (sh.marks.count shard))
  | .unmark shard rest _ => (sh.unmark shard, .drop shard rest)
  | .drop shard rest =>
      if busy threads sh shard then (sh, nextShard rest) else (sh.drop shard, .unflag shard rest)
  | .unflag shard rest => (sh.unflag shard, nextShard rest)
  | .done => (sh, .done)

def program : Threads.Program Int Shared Thread
  | now, _, i, sh, .access name goal at_ =>
      let (sh, goal, at_) := access server now i sh name goal at_
      (sh, .access name goal at_)
  | now, threads, _, sh, .evictor at_ =>
      let (sh, at_) := evict server now threads sh at_
      (sh, .evictor at_)

end SightingDB.Eviction
