import SightingDB.Database

/-!
Writing shards out: saving what changed, and dropping what has been idle. Both go through
the same writer, and both leave the rest of the directory alone.

Figures that depend on the encoding, such as the bytes a save wrote, are left out.
-/
namespace SightingDB

/-- One shard, in the shape a whole snapshot has. -/
def shardSnapshot (db : Database) (shard : String) : Snapshot where
  version := snapshotVersion
  namespaces := (db.namespaces.filter fun name _ => shardOf name = shard).mapValues fun _ ns =>
    ns.values.mapValues fun _ a => a.stored

/-- Replace a shard's file; `none` when it cannot be written, and then the file is as before. -/
def writeShard (db : Database) (w : World) (dir : Dir) (shard : String) : Option Dir :=
  if w.writable shard then
    some { dir with files := dir.files.insert (w.names.file shard) (shardSnapshot db shard) }
  else none

/-- Every shard that currently holds a namespace. -/
def presentShards (db : Database) : Names :=
  db.namespaces.keys.foldl (fun shards name => shards.insert (shardOf name) ()) ∅

structure SaveReport where
  shardsWritten : Nat
  shardsSkipped : Nat
  deriving DecidableEq

/-- Walk the shards that are present. The first that cannot be written is put back among
the dirty ones and ends the save. -/
def saveShards (w : World) (all : Bool) (dirty : Names) :
    List String → Database × Dir × SaveReport → Database × Dir × Option SaveReport
  | [], (db, dir, report) => (db, dir, some report)
  | shard :: rest, (db, dir, report) =>
      if !all && !dirty.contains shard then
        saveShards w all dirty rest
          (db, dir, { report with shardsSkipped := report.shardsSkipped + 1 })
      else
        match writeShard db w dir shard with
        | some dir => saveShards w all dirty rest
            (db, dir, { report with shardsWritten := report.shardsWritten + 1 })
        | none => (db.markShardDirty shard, dir, none)

/-- A shard whose namespaces have all been deleted leaves a stale file. -/
def removeStale (w : World) (present : Names) (dir : Dir) (shard : String) : Dir :=
  if !present.contains shard && w.removable shard then
    { dir with files := dir.files.erase (w.names.file shard) }
  else dir

/-- Write the shards that have changed since the last save, or all of them. `order` is the
order in which the shards present happen to be walked. -/
def save (db : Database) (w : World) (all : Bool) (order : List String) :
    Database × Dir × Option SaveReport :=
  let present := presentShards db
  let dirty := db.dirty
  match saveShards w all dirty order ({ db with dirty := ∅ }, w.dir, ⟨0, 0⟩) with
  | (db, dir, none) => (db, dir, none)
  | (db, dir, some report) => (db, dirty.keys.foldl (removeStale w present) dir, some report)

/-- `i64::saturating_sub`. -/
def saturatingSub (x y : Int) : Int := max (-2 ^ 63) (min i64Max (x - y))

/-- `as i64` from `u64`. -/
def asI64 (n : Nat) : Int := if n < 2 ^ 63 then n else (n : Int) - 2 ^ 64

structure EvictReport where
  evicted : Nat
  busy : Nat
  failed : Nat
  deriving DecidableEq

/-- Whether a shard is in memory and has been idle longer than its tier allows. -/
def TierPolicy.isIdle (tiers : TierPolicy) (now : Int) (shard : String) (meta_ : ShardMeta) : Bool :=
  meta_.resident &&
    match tiers.idleAllowance shard with
    | none => false
    | some allowance => asI64 allowance ≤ saturatingSub now meta_.lastAccess

namespace Database

/-- Remove a shard's namespaces from memory. Between operations nobody holds a handle, so
nothing is ever busy here. -/
def dropShard (db : Database) (shard : String) : Database :=
  { db with
    namespaces := db.namespaces.filter fun name _ => shardOf name ≠ shard
    shards := match db.shards.get shard with
      | none => db.shards
      | some meta_ => db.shards.insert shard { meta_ with resident := false } }

/-- A dirty shard is saved first, and kept when that fails. -/
def evictShard (w : World) (acc : Database × Dir × EvictReport) (shard : String) :
    Database × Dir × EvictReport :=
  let (db, dir, report) := acc
  let written := if db.dirty.contains shard then writeShard db w dir shard else some dir
  match written with
  | none => (db, dir, { report with failed := report.failed + 1 })
  | some dir =>
      let db := { db with dirty := db.dirty.erase shard }
      (db.dropShard shard, dir, { report with evicted := report.evicted + 1 })

/-- Write out and drop shards that have been idle longer than their tier allows. -/
def evictIdle (db : Database) (w : World) (now : Int) : Database × Dir × EvictReport :=
  if !db.store then (db, w.dir, ⟨0, 0, 0⟩)
  else
    let candidates := (db.shards.filter fun shard meta_ => db.tiers.isIdle now shard meta_).keys
    candidates.foldl (evictShard w) (db, w.dir, ⟨0, 0, 0⟩)

end Database
end SightingDB
