import SightingDB.Snapshot
import SightingDB.Tier

/-!
The in-memory store, one operation at a time: namespaces, the set of shards written to
since the last save, and the catalogue of shards, resident or not.

The clock and the state of the disk are handed to each operation; the disk is only read
here. Request activity and the list of latest writes are kept elsewhere and left out.
-/
namespace SightingDB

/-- A set of names. -/
abbrev Names := OrderedMap String Unit

structure ShardMeta where
  namespaces : Names
  resident : Bool
  lastAccess : Int
  deriving DecidableEq

/-- `ShardMeta::default()`. -/
def ShardMeta.default : ShardMeta := ⟨∅, false, 0⟩

structure DatabasePolicy where
  statsRetention : Nat
  shadowTtl : Nat
  deriving DecidableEq

/-- `store` is whether persistence is configured. -/
structure Database where
  namespaces : OrderedMap String Namespace
  policy : DatabasePolicy
  stores : StoragePolicy
  node : String
  dirty : Names
  shards : OrderedMap String ShardMeta
  store : Bool
  tiers : TierPolicy
  deriving DecidableEq

/-- What an operation finds outside: the time, the directory, and which shards' files can
be read, written and removed at the moment. -/
structure World where
  now : DateTime
  names : ShardFiles
  dir : Dir
  readable : String → Bool
  writable : String → Bool
  removable : String → Bool

/-- A directory in which every file operation succeeds. -/
def World.sound (names : ShardFiles) (dir : Dir) (now : DateTime) : World :=
  ⟨now, names, dir, fun _ => true, fun _ => true, fun _ => true⟩

/-- The epoch and an empty directory. -/
def World.sample : World := .sound .sample ⟨none, ∅⟩ .unixEpoch

structure Written where
  count : Nat
  new : Bool
  deriving DecidableEq

structure WriteOpts where
  consensus : Bool
  ttl : Option Nat
  deriving DecidableEq

def WriteOpts.default : WriteOpts := ⟨false, none⟩

structure SweepReport where
  valuesRemoved : Nat
  namespacesRemoved : Nat
  deriving DecidableEq

structure ValueCount where
  values : Nat
  exact_ : Bool
  pagedIn : Bool
  deriving DecidableEq

namespace Database

def withNode (policy : DatabasePolicy) (stores : StoragePolicy) (node : String) : Database where
  namespaces := ∅
  policy := policy
  stores := stores
  node := node
  dirty := ∅
  shards := ∅
  store := false
  tiers := .default

/-- Enter a namespace in the catalogue and mark its shard resident. -/
def catalogue (shards : OrderedMap String ShardMeta) (name : String) (at_ : Int) :
    OrderedMap String ShardMeta :=
  let shard := shardOf name
  let meta_ := (shards.get shard).getD .default
  shards.insert shard ⟨meta_.namespaces.insert name (), true, at_⟩

/-- Rebuild a database from a snapshot. -/
def fromSnapshotAs (data : Snapshot) (policy : DatabasePolicy) (stores : StoragePolicy)
    (node : String) (now : DateTime) : Database :=
  { withNode policy stores node with
    namespaces := data.namespaces.mapValues fun _ values => .fromValues values node
    shards := data.namespaces.keys.foldl (catalogue · · now.timestamp) ∅ }

/-- Tell the database where shards live. -/
def attachStore (db : Database) (tiers : TierPolicy) : Database :=
  { db with store := true, tiers := tiers }

def holds (db : Database) (namespace_ : String) : Bool := db.stores.holds namespace_

def markShardDirty (db : Database) (shard : String) : Database :=
  { db with dirty := db.dirty.insert shard () }

def markDirty (db : Database) (namespace_ : String) : Database := db.markShardDirty (shardOf namespace_)

def touch (db : Database) (w : World) (shard : String) : Database :=
  match db.shards.get shard with
  | none => db
  | some meta_ =>
      { db with shards := db.shards.insert shard { meta_ with lastAccess := w.now.timestamp } }

/-- Read a shard back into memory; `none` when its file cannot be read. -/
def pageIn (db : Database) (w : World) (shard : String) : Option Database :=
  if !db.store then some db
  else if ((db.shards.get shard).map (·.resident)).getD false then some db
  else
    match readShardFile w.names w.dir w.readable shard with
    | none => none
    | some data =>
        let meta_ := (db.shards.get shard).getD .default
        let listed := data.keys.foldl (fun names name => names.insert name ()) meta_.namespaces
        some { db with
          namespaces := extend db.namespaces (data.mapValues fun _ values => .fromValues values db.node)
          shards := db.shards.insert shard ⟨listed, true, w.now.timestamp⟩ }

/-- Whether the catalogue lists a namespace in a shard that is not in memory. -/
def catalogued (db : Database) (shard name : String) : Bool :=
  match db.shards.get shard with
  | none => false
  | some meta_ => !meta_.resident && meta_.namespaces.contains name

/-- Fetch a namespace, paging its shard in when it has been evicted. -/
def namespace_ (db : Database) (w : World) (name : String) : Database × Option Namespace :=
  let shard := shardOf name
  let db := db.touch w shard
  match db.namespaces.get name with
  | some ns => (db, some ns)
  | none =>
      if !db.catalogued shard name then (db, none)
      else
        match db.pageIn w shard with
        | none => (db, none)
        | some db => (db, db.namespaces.get name)

/-- Whether a shard is known and not in memory. -/
def evicted (db : Database) (shard : String) : Bool :=
  match db.shards.get shard with
  | none => false
  | some meta_ => !meta_.resident

/-- Fetch a namespace, registering it when it is not there. A shard that cannot be read is
extended without it. -/
def namespaceOrCreate (db : Database) (w : World) (name : String) : Database × Namespace :=
  match db.namespace_ w name with
  | (db, some ns) => (db, ns)
  | (db, none) =>
      let shard := shardOf name
      let db := if db.evicted shard then (db.pageIn w shard).getD db else db
      let ns := (db.namespaces.get name).getD .empty
      ({ db with
          namespaces := db.namespaces.insert name ns
          shards := catalogue db.shards name w.now.timestamp }, ns)

/-- Write a namespace back through its handle. -/
def put (db : Database) (name : String) (ns : Namespace) : Database :=
  { db with namespaces := db.namespaces.insert name ns }

def count (db : Database) (w : World) (path value : String) : Database × Nat :=
  match db.namespace_ w path with
  | (db, none) => (db, 0)
  | (db, some ns) => (db, ns.count value w.now)

/-- The tail of every recorded write: consensus is looked up for the log, then the shard is
marked. -/
def logged (db : Database) (w : World) (path value : String) : Database :=
  (db.count w allNamespace value).1.markDirty path

/-- Record a sighting in one namespace. -/
def recordIn (db : Database) (w : World) (origin path value : String) (when : DateTime)
    (ttl : Option Nat) (tags : String) : Database × Written :=
  let (db, ns) := db.namespaceOrCreate w path
  let (ns, count, isNew, _) := ns.record origin value when ttl db.policy.statsRetention tags
  (db.put path ns, ⟨count, isNew⟩)

/-- A write that does not count towards consensus; tallies are written this way. -/
def writePlain (db : Database) (w : World) (path value : String) (when : DateTime)
    (ttl : Option Nat) : Database :=
  ((db.recordIn w db.node path value when ttl "").1).logged w path value

/-- Shadow sightings take their lifetime from the policy. -/
def ttlOf (db : Database) (path : String) (opts : WriteOpts) : Option Nat :=
  match opts.ttl with
  | some ttl => some ttl
  | none => if startsWith path shadowPrefix && (0 < db.policy.shadowTtl : Bool) then
      some db.policy.shadowTtl
    else none

def recordWrite (db : Database) (w : World) (origin path value : String) (when : DateTime)
    (opts : WriteOpts) (tags : String) : Database × Written :=
  let (db, written) := db.recordIn w origin path value when (db.ttlOf path opts) tags
  let db := if opts.consensus && written.new then
      db.writePlain w allNamespace value when (db.ttlOf allNamespace .default)
    else db
  (db.logged w path value, written)

/-- `Database::write` under this server's own name. -/
def write (db : Database) (w : World) (path value : String) (when : DateTime) (opts : WriteOpts) :
    Database :=
  (db.recordWrite w db.node path value when opts "").1

def merge (db : Database) (w : World) (path value : String) (incoming : Merge) : Database × Merged :=
  let (db, ns) := db.namespaceOrCreate w path
  let (ns, outcome, isNew) := ns.merge db.node value incoming
  let db := db.put path ns
  let db := if isNew && countsTowardsConsensus path then
      db.write w allNamespace value w.now .default
    else db
  (if outcome.changed then db.markDirty path else db, outcome)

/-- One value put right, counted when it was wrong. -/
def correct (node : String) (now : DateTime) (acc : Namespace × Nat) (value : String) (truth : Nat) :
    Namespace × Nat :=
  let (all, wrong) := acc.1.setCount node value truth now
  (all, if wrong then acc.2 + 1 else acc.2)

/-- The two walks of a survey: over what it found, then over what has a tally and was not
found at all. -/
def survey (holders : OrderedMap String Names) (node : String) (now : DateTime) (all : Namespace) :
    Namespace × Nat :=
  let acc := holders.entries.foldl (fun acc e => correct node now acc e.1 e.2.size) (all, 0)
  acc.1.valueNames.foldl
    (fun acc value => if holders.contains value then acc else correct node now acc value 0) acc

/-- Put the tally right from a survey; `holders` gives the namespaces that hold each value. -/
def setConsensus (db : Database) (w : World) (holders : OrderedMap String Names) : Database × Nat :=
  let (db, all) := db.namespaceOrCreate w allNamespace
  let (all, corrected) := survey holders db.node w.now all
  let db := db.put allNamespace all
  (if 0 < corrected then db.markDirty allNamespace else db, corrected)

def setTags (db : Database) (w : World) (path value tags : String) : Database × Bool :=
  match db.namespace_ w path with
  | (db, none) => (db, false)
  | (db, some ns) =>
      let (ns, changed) := ns.retag value tags w.now
      let db := db.put path ns
      (if changed then db.markDirty path else db, changed)

def view (db : Database) (w : World) (path value : String) (consensus : Nat) (withStats : Bool) :
    Database × Option AttributeView :=
  match db.namespace_ w path with
  | (db, none) => (db, none)
  | (db, some ns) => (db, ns.view value consensus withStats w.now)

def mergePage (db : Database) (w : World) (path : String) (offset limit : Nat) :
    Database × Option (Page (String × Merge)) :=
  match db.namespace_ w path with
  | (db, none) => (db, none)
  | (db, some ns) => (db, some (ns.mergePage offset limit w.now))

def mergePayload (db : Database) (w : World) (path value : String) : Database × Option Merge :=
  match db.namespace_ w path with
  | (db, none) => (db, none)
  | (db, some ns) => (db, ns.mergePayload value w.now)

/-- Whether a namespace exists at all, resident or evicted. -/
def namespaceExists (db : Database) (name : String) : Bool :=
  db.namespaces.contains name ||
    match db.shards.get (shardOf name) with
    | none => false
    | some meta_ => meta_.namespaces.contains name

/-- Consensus is filled in value by value after the namespace is done with. -/
def withConsensus (db : Database) (w : World) : List AttributeView → Database × List AttributeView
  | [] => (db, [])
  | v :: rest =>
      let (db, consensus) := db.count w allNamespace v.value
      let (db, rest) := db.withConsensus w rest
      (db, { v with consensus := consensus } :: rest)

def namespaceViews (db : Database) (w : World) (name : String) :
    Database × Option (List AttributeView) :=
  match db.namespace_ w name with
  | (db, none) => (db, none)
  | (db, some ns) =>
      let (db, views) := db.withConsensus w (ns.allViews false w.now)
      (db, some views)

def valueCount (db : Database) (w : World) (name : String) : Database × Option ValueCount :=
  let db := db.touch w (shardOf name)
  match db.namespaces.get name with
  | some ns => (db, some ⟨ns.len, !ns.hasTtl, false⟩)
  | none =>
      match db.namespace_ w name with
      | (db, none) => (db, none)
      | (db, some ns) => (db, some ⟨ns.len, !ns.hasTtl, true⟩)

/-- Declare a namespace before anything is written to it. -/
def createNamespace (db : Database) (w : World) (name : String) : Database × Bool :=
  if db.namespaceExists name then (db, false)
  else ((db.namespaceOrCreate w name).1.markDirty name, true)

def releaseConsensus (db : Database) (w : World) (value : String) : Database :=
  match db.namespace_ w allNamespace with
  | (db, none) => db
  | (db, some all) => db.put allNamespace (all.release db.node value)

/-- Take a namespace out of its shard's entry in the catalogue. -/
def uncatalogue (db : Database) (name : String) : Database :=
  match db.shards.get (shardOf name) with
  | none => db
  | some meta_ =>
      { db with shards :=
          db.shards.insert (shardOf name) { meta_ with namespaces := meta_.namespaces.erase name } }

/-- Drop a namespace, giving back the consensus its values were holding. -/
def delete (db : Database) (w : World) (name : String) : Database × Bool :=
  match db.namespace_ w name with
  | (db, none) => (db, false)
  | (db, some ns) =>
      let db := { db with namespaces := db.namespaces.erase name }
      let db := (db.markDirty name).uncatalogue name
      let db := if countsTowardsConsensus name then
          ns.valueNames.foldl (fun db value => db.releaseConsensus w value) db
        else db
      (db, true)

/-- One namespace of a sweep: what it loses, and whether it is left empty by that. -/
def sweepOne (db : Database) (w : World) (now : DateTime) (name : String) :
    Database × Nat × List String :=
  match db.namespaces.get name with
  | none => (db, 0, [])
  | some ns =>
      if startsWith name configPrefix then (db, 0, [])
      else
        let (ns, expired) := ns.removeExpired now
        let db := db.put name ns
        let db := if expired.isEmpty then db else db.markDirty name
        let emptied := if !expired.isEmpty && ns.isEmpty then [name] else []
        let db := if countsTowardsConsensus name then
            expired.foldl (fun db value => db.releaseConsensus w value) db
          else db
        (db, expired.length, emptied)

/-- Reclaim a namespace this sweep emptied, if it still is. -/
def pruneOne (db : Database) (name : String) : Database × Nat :=
  if startsWith name configPrefix then (db, 0)
  else
    match db.namespaces.get name with
    | none => (db, 0)
    | some ns =>
        if ns.isEmpty then
          (({ db with namespaces := db.namespaces.erase name } : Database).uncatalogue name, 1)
        else (db, 0)

/-- Reclaim expired values and the namespaces left empty by them. `order` is the order in
which the map happens to be walked. -/
def sweep (db : Database) (w : World) (now : DateTime) (order : List String) :
    Database × SweepReport :=
  let (db, values, emptied) := order.foldl
    (fun acc name =>
      let (db, values, emptied) := acc.1.sweepOne w now name
      (db, acc.2.1 + values, acc.2.2 ++ emptied)) (db, 0, [])
  let (db, namespaces) := emptied.foldl
    (fun acc name =>
      let (db, gone) := acc.1.pruneOne name
      (db, acc.2 + gone)) (db, 0)
  (db, ⟨values, namespaces⟩)

/-- A sweep keeps what each namespace's turn keeps; what holds of a name when it is emptied, and
is kept from then on, holds when it is pruned. -/
theorem sweep_rule {P Q : Database → Prop} {E : Database → String → Prop} {w : World} {now : DateTime}
    (sweeps : ∀ db name, P db → P (db.sweepOne w now name).1 ∧ (∀ n, E db n → E (db.sweepOne w now name).1 n) ∧
      ∀ n ∈ (db.sweepOne w now name).2.2, E (db.sweepOne w now name).1 n)
    (between : ∀ db, P db → Q db)
    (prunes : ∀ db name, Q db → E db name → Q (db.pruneOne name).1 ∧ ∀ n, E db n → E (db.pruneOne name).1 n)
    {db : Database} (start : P db) (order : List String) : Q (db.sweep w now order).1 := by
  have walk : ∀ (order : List String) (acc : Database × Nat × List String), P acc.1 → (∀ n ∈ acc.2.2, E acc.1 n) →
      P (order.foldl (fun acc name =>
        let (db, values, emptied) := acc.1.sweepOne w now name
        (db, acc.2.1 + values, acc.2.2 ++ emptied)) acc).1 ∧
      ∀ n ∈ (order.foldl (fun acc name =>
        let (db, values, emptied) := acc.1.sweepOne w now name
        (db, acc.2.1 + values, acc.2.2 ++ emptied)) acc).2.2,
        E (order.foldl (fun acc name =>
          let (db, values, emptied) := acc.1.sweepOne w now name
          (db, acc.2.1 + values, acc.2.2 ++ emptied)) acc).1 n := by
    intro order
    induction order with
    | nil => exact fun _ holds emptied => ⟨holds, emptied⟩
    | cons name rest ih =>
        intro acc holds emptied
        obtain ⟨kept, stays, here⟩ := sweeps acc.1 name holds
        refine ih _ kept fun n member => ?_
        rcases List.mem_append.mp member with before | new
        · exact stays n (emptied n before)
        · exact here n new
  have prune : ∀ (emptied : List String) (acc : Database × Nat), Q acc.1 → (∀ n ∈ emptied, E acc.1 n) →
      Q (emptied.foldl (fun acc name =>
        let (db, gone) := acc.1.pruneOne name
        (db, acc.2 + gone)) acc).1 := by
    intro emptied
    induction emptied with
    | nil => exact fun _ holds _ => holds
    | cons name rest ih =>
        intro acc holds marked
        obtain ⟨kept, stays⟩ := prunes acc.1 name holds (marked name List.mem_cons_self)
        exact ih _ kept fun n member => stays n (marked n (List.mem_cons_of_mem _ member))
  obtain ⟨walked, emptied⟩ := walk order (db, 0, []) start (by simp)
  exact prune _ (_, 0) (between _ walked) emptied

/-- What one namespace's turn keeps, in either walk, the whole sweep keeps. -/
theorem sweep_induction {P : Database → Prop} {w : World} {now : DateTime}
    (sweeps : ∀ db name, P db → P (db.sweepOne w now name).1)
    (prunes : ∀ db name, P db → P (db.pruneOne name).1) {db : Database} (start : P db)
    (order : List String) : P (db.sweep w now order).1 :=
  @sweep_rule P P (fun _ _ => True) w now
    (fun db name holds => ⟨sweeps db name holds, fun _ _ => trivial, fun _ _ => trivial⟩) (fun _ holds => holds)
    (fun db name holds _ => ⟨prunes db name holds, fun _ _ => trivial⟩) db start order

/-- The tally itself is never given a lifetime. -/
theorem ttlOf_all (db : Database) : db.ttlOf allNamespace .default = none := by
  have other : startsWith allNamespace shadowPrefix = false := by decide
  simp [ttlOf, WriteOpts.default, other]

/-! ## Touching a shard changes nothing but its last access -/

section Touch

variable (db : Database) (w : World) (shard : String)

theorem touch_ignores : db.touch w shard = { db with shards := (db.touch w shard).shards } := by
  simp only [touch]
  split <;> rfl

@[simp] theorem touch_namespaces : (db.touch w shard).namespaces = db.namespaces := by
  rw [touch_ignores]

@[simp] theorem touch_node : (db.touch w shard).node = db.node := by
  rw [touch_ignores]

@[simp] theorem touch_dirty : (db.touch w shard).dirty = db.dirty := by
  rw [touch_ignores]

@[simp] theorem touch_store : (db.touch w shard).store = db.store := by
  rw [touch_ignores]

theorem touch_shards (k : String) : (db.touch w shard).shards.get k =
    (db.shards.get k).map fun m => if k = shard then { m with lastAccess := w.now.timestamp } else m := by
  simp only [touch]
  cases found : db.shards.get shard with
  | none =>
      by_cases same : k = shard
      · subst same
        simp [found]
      · simp [same]
  | some m =>
      by_cases same : k = shard
      · subst same
        simp [found]
      · simp [OrderedMap.get_insert, same]

end Touch

end Database
end SightingDB
