import SightingDB.Namespace
import SightingDB.Paths

/-!
What is on disk: one file per shard, and possibly a single-file snapshot of an older
version. Serialisation keeps whole seconds and drops what older builds left behind.
-/
namespace SightingDB

/-- The snapshot format this build writes. -/
def snapshotVersion : Nat := 2

/-- Namespaces with their values, as a file holds them. -/
abbrev Stored := OrderedMap String (OrderedMap String Attribute)

structure Snapshot where
  version : Nat
  namespaces : Stored
  deriving DecidableEq

/-- A database directory. Shard files are kept by file name. -/
structure Dir where
  legacy : Option Snapshot
  files : OrderedMap String Snapshot
  deriving DecidableEq

/-- Hexadecimal digits, most significant first, padded to a width. -/
def hexDigits (letter : Nat) : Nat → Nat → List Char
  | 0, _ => []
  | width + 1, n =>
      let digit := n % 16
      hexDigits letter width (n / 16) ++
        [if digit < 10 then Char.ofNat (48 + digit) else Char.ofNat (letter + digit - 10)]

/-- Anything outside a conservative set is percent-encoded, byte by byte. -/
def encodeChar (c : Char) : List Char :=
  if c.isAlphanum || c = '.' || c = '_' || c = '-' then [c]
  else (String.utf8EncodeChar c).flatMap fun byte => '%' :: hexDigits 65 2 byte.toNat

/-- The file a shard is stored in. `digest` is the first four bytes of a SHA-256 of the exact
name; it is all that tells apart shards whose encoded names agree in the first 80 bytes. -/
def shardFile (digest : String → UInt32) (shard : String) : String :=
  if shard = internalShard then "sightingdb.json.zst"
  else
    let safe := (shard.toList.flatMap encodeChar).take 80
    String.ofList (safe ++ '-' :: hexDigits 97 8 (digest shard).toNat ++ ".json.zst".toList)

/-- The digest in force, and the shards in play, which have a file each. -/
structure ShardFiles where
  digest : String → UInt32
  used : String → Prop
  internal : used internalShard
  apart : ∀ s t, used s → used t → shardFile digest s = shardFile digest t → s = t

def ShardFiles.file (names : ShardFiles) (shard : String) : String := shardFile names.digest shard

/-- The digest of `a`, with that shard and the internal one in play. -/
def ShardFiles.sample : ShardFiles where
  digest shard := if shard = "a" then 0xca978112 else 0
  used shard := shard = internalShard ∨ shard = "a"
  internal := .inl rfl
  apart := by
    rintro s t (rfl | rfl) (rfl | rfl) same
    · rfl
    · exact absurd same (by decide)
    · exact absurd same (by decide)
    · rfl

/-- An attribute as it is written: times to the second, legacy totals skipped. -/
def Attribute.stored (a : Attribute) : Attribute :=
  { a with
    firstSeen := a.firstSeen.truncate
    lastSeen := a.lastSeen.truncate
    legacyCount := 0
    legacyStats := ∅ }

/-- What this build writes needs no migration. -/
@[simp] theorem Attribute.migrate_stored (a : Attribute) (node : String) : a.stored.migrate node = a.stored := by
  have blank : (∅ : Buckets).entries = [] := rfl
  simp [Attribute.migrate, Attribute.stored, blank]

inductive LoadError
  | newer (version : Nat)
  | unversioned
  deriving DecidableEq

/-- Older versions are read and migrated, a newer one is refused. -/
def checkVersion (version : Nat) : Except LoadError Unit :=
  if snapshotVersion < version then .error (.newer version)
  else if version = 0 then .error .unversioned
  else .ok ()

/-- `HashMap::extend`: what comes later wins. -/
def extend {ν : Type} (m m' : OrderedMap String ν) : OrderedMap String ν :=
  m'.entries.foldl (fun acc e => acc.insert e.1 e.2) m

def loadFiles : List (String × Snapshot) → Stored → Except LoadError Stored
  | [], acc => .ok acc
  | e :: rest, acc => do
      checkVersion e.2.version
      loadFiles rest (extend acc e.2.namespaces)

/-- Read every shard back, plus a single-file snapshot from an older version, which is read
first so that shards win on any overlap. -/
def load (dir : Dir) : Except LoadError (Option Snapshot) := do
  let start : Stored ← match dir.legacy with
    | none => pure ∅
    | some data => do
        checkVersion data.version
        pure (extend ∅ data.namespaces)
  let namespaces ← loadFiles dir.files.entries start
  if dir.legacy.isNone && dir.files.entries.isEmpty then pure none
  else pure (some ⟨snapshotVersion, namespaces⟩)

/-- Read one shard's namespaces, for paging it back into memory. `readable` says whether
the file can be read at the moment. -/
def readShardFile (names : ShardFiles) (dir : Dir) (readable : String → Bool) (shard : String) :
    Option Stored :=
  match dir.files.get (names.file shard) with
  | none => some ∅
  | some data =>
      if readable shard then (checkVersion data.version).toOption.map fun _ => data.namespaces
      else none

theorem get_extend {ν : Type} (m m' : OrderedMap String ν) (k : String) :
    (extend m m').get k = (m'.get k).or (m.get k) := by
  have fold := OrderedMap.get_foldl_insert (fun _ (_ : Option ν) v => v) m'.entries m'.keys_nodup m k
  simp only [extend, fold]
  change (m'.get k).elim _ _ = _
  cases m'.get k <;> simp

end SightingDB
