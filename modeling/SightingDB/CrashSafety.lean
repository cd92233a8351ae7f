import SightingDB.FailedSaves
import SightingDB.ShardPaths
import SightingDB.SnapshotText
import SightingDB.Lib.CrashFiles

/-!
What a failure of power leaves of the database directory. Each shard is written to a file beside its own,
synced and renamed; the sweeper and the snapshot thread do so at the same time, and the power may fail
between any two steps of theirs.
-/
namespace SightingDB

open CrashFiles (FileAct Disk Sys Slot Sound Stage)

/-- What this build writes: its own version, times to the second and no totals of older builds. -/
structure Snapshot.Written (snapshot : Snapshot) : Prop where
  version : snapshot.version = snapshotVersion
  fits : Serde.StoredFits snapshot.namespaces
  kept : Serde.kept snapshot.namespaces = snapshot.namespaces

namespace Crashes

/-- How a snapshot becomes the bytes of a file: as text, its hash maps walked in some order, and compressed. -/
structure ShardCodec where
  json : JsonCodec
  compress : List Char → List UInt8
  decompress : List UInt8 → Option (List Char)
  whole : ∀ text, decompress (compress text) = some text
  order : Stored → Serde.Walk
  walks : ∀ stored, Serde.Walks stored (order stored)

def ShardCodec.encode (codec : ShardCodec) (snapshot : Snapshot) : List UInt8 :=
  codec.compress (Serde.snapshotText codec.json snapshot.version (codec.order snapshot.namespaces))

def ShardCodec.decode (codec : ShardCodec) (bytes : List UInt8) : Option Snapshot :=
  (codec.decompress bytes).bind (Serde.readSnapshot codec.json)

theorem ShardCodec.decode_encode (codec : ShardCodec) {snapshot : Snapshot} (written : snapshot.Written) :
    codec.decode (codec.encode snapshot) = some snapshot := by
  have version : snapshot.version < 2 ^ 32 := by
    rw [written.version]
    decide
  rw [decode, encode, codec.whole, Option.bind_some, Serde.readSnapshot_snapshotText written.fits version (codec.walks _), written.kept]

/-- The files that `save_json` replaces, which does not sync them. -/
def isSideFile (name : String) : Bool := name = activityFile || name = latestFile

/-- What a name stands for in the directory. -/
def slotText : Slot String → String
  | .file name => name
  | .temp name => tempOf name

/-- What is read of a disk is what the directory says, shard by shard. -/
def Finds (codec : ShardCodec) (disk : Disk String UInt8) (dir : Dir) : Prop :=
  ∀ name, isShardFile name = true → (disk.read name).map codec.decode = (dir.files.get name).map some

/-- A disk at a start: everything there has been synced, and there is nothing before. -/
structure AtRest (disk : Disk String UInt8) : Prop where
  past : disk.past = []
  one : ∀ a b i, disk.dir a = some i → disk.dir b = some i → a = b
  used : ∀ a i, disk.dir a = some i → i < disk.next
  synced : ∀ a i, disk.dir a = some i → (disk.inode i).synced = true

variable {ι : Type} {codec : ShardCodec} {disk : Disk String UInt8} {dir : Dir}
  {acts : List (FileAct ι String UInt8)} {s s' : Sys ι String UInt8} {w : ι} {db : Database} {world : World}

/-! ## What is asked -/

/-- The threads write snapshots of shards, as this build makes them, and remove files. -/
def Asks (codec : ShardCodec) (acts : List (FileAct ι String UInt8)) : Prop :=
  ∀ act ∈ acts, ∀ name bytes, act.asks = some (name, bytes) → isShardFile name = true →
    ∃ snapshot, snapshot.Written ∧ bytes = codec.encode snapshot

/-- Every value in memory fits the integers it is kept in. -/
def Fits (db : Database) : Prop := ∀ name ns, db.namespaces.get name = some ns → ∀ value a, ns.values.get value = some a → a.Storable

theorem shardSnapshot_written (fits : Fits db) (shard : String) : (shardSnapshot db shard).Written where
  version := rfl
  fits name vals found value a at_ := by
    simp only [shardSnapshot, OrderedMap.get_mapValues, OrderedMap.get_filter] at found
    obtain ⟨ns, held, rfl⟩ := Option.map_eq_some_iff.mp found
    rw [OrderedMap.get_mapValues] at at_
    obtain ⟨a', there, rfl⟩ := Option.map_eq_some_iff.mp at_
    exact (fits name ns (Option.filter_eq_some_iff.mp held).1 value a' there).stored
  kept := by
    refine OrderedMap.ext_get fun name => ?_
    simp only [Serde.kept, shardSnapshot, OrderedMap.get_mapValues, Option.map_map]
    congr 1
    funext ns
    refine OrderedMap.ext_get fun value => ?_
    simp [OrderedMap.get_mapValues, Option.map_map, Function.comp_def, Attribute.stored]

theorem isShardFile_shardFile (digest : String → UInt32) (shard : String) : isShardFile (shardFile digest shard) = true := by
  obtain ⟨front, split⟩ := shardFile_suffix digest shard
  unfold isShardFile
  rw [split]
  exact List.isSuffixOf_iff_suffix.mpr (List.suffix_append ..)

theorem isSideFile_shard {name : String} (shard : isShardFile name = true) : isSideFile name = false := by
  unfold isSideFile
  rw [Bool.or_eq_false_iff, decide_eq_false_iff_not, decide_eq_false_iff_not]
  constructor
  · rintro rfl
    exact absurd shard (by decide)
  · rintro rfl
    exact absurd shard (by decide)

/-! ## Names apart -/

theorem tempOf_of_split {name : String} {front : List Char} (back : List Char) (split : name.toList = front ++ '.' :: back) (solid : '.' ∉ back)
    (some_ : front ≠ []) (plain : name ≠ "..") : (tempOf name).toList = front ++ ".tmp".toList := by
  have drop : name.toList.reverse.dropWhile (· ≠ '.') = '.' :: front.reverse := by
    rw [split, List.reverse_append, List.reverse_cons, List.append_assoc, List.dropWhile_append_of_pos]
    · rfl
    · intro c member
      simp only [decide_eq_true_eq]
      rintro rfl
      exact solid (List.mem_reverse.mp member)
  have stem : fileStem name = String.ofList front := by
    have before : String.ofList front ≠ "" := fun nothing => some_ (String.ofList_eq_empty_iff.mp nothing)
    simp only [fileStem, if_neg plain, rsplitOnce, drop, List.reverse_reverse, if_neg before]
  rw [tempOf, withExtension, stem, String.toList_append, String.toList_append, String.toList_ofList, List.append_assoc]
  rfl

/-- Up to its last dot a shard's name ends like the name of no small file. -/
theorem shard_split {name : String} (shard : isShardFile name = true) : ∃ front, name.toList = front ++ '.' :: "zst".toList ∧
    (tempOf name).toList = front ++ ".tmp".toList ∧ front.getLast? = some 'n' := by
  obtain ⟨start, split⟩ := List.isSuffixOf_iff_suffix.mp shard
  have split : name.toList = (start ++ ".json".toList) ++ '.' :: "zst".toList := by
    rw [← split, List.append_assoc]
    rfl
  refine ⟨start ++ ".json".toList, split, tempOf_of_split _ split (by decide) (by simp) ?_, ?_⟩
  · rintro rfl
    exact absurd shard (by decide)
  · rw [List.getLast?_append]
    rfl

theorem side_temp {name : String} (side : isSideFile name = true) :
    (name = activityFile ∧ (tempOf name).toList = "activity".toList ++ ".tmp".toList) ∨
      (name = latestFile ∧ (tempOf name).toList = "latest".toList ++ ".tmp".toList) := by
  simp only [isSideFile, Bool.or_eq_true, decide_eq_true_eq] at side
  rcases side with rfl | rfl
  · exact .inl ⟨rfl, tempOf_of_split "json".toList (by decide) (by decide) (by decide) (by decide)⟩
  · exact .inr ⟨rfl, tempOf_of_split "json".toList (by decide) (by decide) (by decide) (by decide)⟩

/-- A file that is replaced. -/
def isReplaced (name : String) : Bool := isShardFile name || isSideFile name

theorem last_of_replaced {name : String} (listed : isReplaced name = true) :
    (name.toList.getLast? = some 't' ∨ name.toList.getLast? = some 'n') ∧ (tempOf name).toList.getLast? = some 'p' := by
  rcases Bool.or_eq_true .. ▸ listed with shard | side
  · obtain ⟨front, split, temp, -⟩ := shard_split shard
    rw [split, temp, List.getLast?_append, List.getLast?_append]
    exact ⟨.inl rfl, rfl⟩
  · rcases side_temp side with ⟨rfl, temp⟩ | ⟨rfl, temp⟩
    · rw [temp]
      exact ⟨.inr (by decide), rfl⟩
    · rw [temp]
      exact ⟨.inr (by decide), rfl⟩

theorem tempOf_inj {name other : String} (listed : isReplaced name = true) (listed' : isReplaced other = true)
    (same : tempOf name = tempOf other) : name = other := by
  have mixed {name other : String} (shard : isShardFile name = true) (side : isSideFile other = true) : tempOf name ≠ tempOf other := by
    intro same
    obtain ⟨front, -, temp, last⟩ := shard_split shard
    rcases side_temp side with ⟨-, temp'⟩ | ⟨-, temp'⟩
    · obtain rfl := List.append_cancel_right (temp.symm.trans ((congrArg String.toList same).trans temp'))
      exact absurd last (by decide)
    · obtain rfl := List.append_cancel_right (temp.symm.trans ((congrArg String.toList same).trans temp'))
      exact absurd last (by decide)
  rcases Bool.or_eq_true .. ▸ listed with shard | side
  · rcases Bool.or_eq_true .. ▸ listed' with shard' | side'
    · obtain ⟨front, split, temp, -⟩ := shard_split shard
      obtain ⟨front', split', temp', -⟩ := shard_split shard'
      obtain rfl := List.append_cancel_right (temp.symm.trans ((congrArg String.toList same).trans temp'))
      exact String.toList_inj.mp (split.trans split'.symm)
    · exact absurd same (mixed shard side')
  · rcases Bool.or_eq_true .. ▸ listed' with shard' | side'
    · exact absurd same.symm (mixed shard' side)
    · rcases side_temp side with ⟨rfl, -⟩ | ⟨rfl, -⟩
      · rcases side_temp side' with ⟨rfl, -⟩ | ⟨rfl, -⟩
        · rfl
        · exact absurd same (by decide)
      · rcases side_temp side' with ⟨rfl, -⟩ | ⟨rfl, -⟩
        · exact absurd same (by decide)
        · rfl

/-- Slots are files of their own: the names of the files that are replaced, and of those they are
written to first, are apart. -/
theorem slotText_apart {a b : Slot String} (listed : ∀ t, a = .file t ∨ a = .temp t ∨ b = .file t ∨ b = .temp t → isReplaced t = true)
    (same : slotText a = slotText b) : a = b := by
  have mixed {s t : String} (listed : isReplaced s = true) (listed' : isReplaced t = true) : s ≠ tempOf t := by
    rintro rfl
    rcases (last_of_replaced listed).1 with last | last
    · exact absurd ((last_of_replaced listed').2.symm.trans last) (by decide)
    · exact absurd ((last_of_replaced listed').2.symm.trans last) (by decide)
  cases a with
  | file s =>
      cases b with
      | file t => exact congrArg Slot.file same
      | temp t => exact absurd same (mixed (listed s (.inl rfl)) (listed t (.inr (.inr (.inr rfl)))))
  | temp s =>
      cases b with
      | file t => exact absurd same.symm (mixed (listed t (.inr (.inr (.inl rfl)))) (listed s (.inr (.inl rfl))))
      | temp t => exact congrArg Slot.temp (tempOf_inj (listed s (.inr (.inl rfl))) (listed t (.inr (.inr (.inr rfl)))) same)

/-! ## After a crash -/

/-- What may be in a file: what was there at the start, or what one of the threads set out to write. -/
def Possible (codec : ShardCodec) (dir : Dir) (acts : List (FileAct ι String UInt8)) (name : String) (bytes : List UInt8) : Prop :=
  isShardFile name = true → ∃ snapshot, codec.decode bytes = some snapshot ∧
    (dir.files.get name = some snapshot ∨ snapshot.Written ∧ ∃ w, .start w name (codec.encode snapshot) ∈ acts)

theorem possible_of_asked (asks : Asks codec acts) {act : FileAct ι String UInt8} (member : act ∈ acts) {v : String × List UInt8}
    (asked : act.asks = some v) : Possible codec dir acts v.1 v.2 := by
  intro shard
  obtain ⟨snapshot, written, same⟩ := asks act member v.1 v.2 asked shard
  cases act with
  | start w t bytes =>
      obtain rfl := Option.some.inj asked
      obtain rfl : bytes = codec.encode snapshot := same
      exact ⟨snapshot, codec.decode_encode written, .inr ⟨written, w, member⟩⟩
  | put w n => cases asked
  | finish w => cases asked
  | publish w => cases asked
  | quit w => cases asked
  | remove t => cases asked
  | crash undone found => cases asked

/-- A disk at rest is a sound start for whatever the threads will write. -/
theorem AtRest.sound (rest_ : AtRest disk) (finds : Finds codec disk dir) :
    Sound isSideFile (Possible codec dir acts) (⟨disk, fun _ => .idle⟩ : Sys ι String UInt8) := by
  refine CrashFiles.Quiet.sound ⟨rest_.past, rest_.one, rest_.used, fun name i entry _ => ⟨rest_.synced _ i entry, ?_⟩⟩
  intro shard
  have found := finds name shard
  rw [Disk.read, entry, Option.map_some, Option.map_some] at found
  obtain ⟨snapshot, held, decoded⟩ := Option.map_eq_some_iff.mp found.symm
  exact ⟨snapshot, decoded.symm, .inl held⟩

/-- The names that files may have. -/
def namesOf (dir : Dir) (acts : List (FileAct ι String UInt8)) : Names :=
  (dir.files.keys ++ acts.filterMap fun act => act.asks.map Prod.fst).foldl (fun set name => set.insert name ()) ∅

/-- The directory as it can be read off a disk. -/
def readDir (codec : ShardCodec) (dir : Dir) (acts : List (FileAct ι String UInt8)) (disk : Disk String UInt8) : Dir where
  legacy := dir.legacy
  files := (namesOf dir acts).filterMap fun name _ =>
    if isShardFile name then (disk.read name).bind codec.decode else none

theorem mem_namesOf {name : String} : (namesOf dir acts).contains name = true ↔
    dir.files.contains name = true ∨ ∃ w bytes, FileAct.start w name bytes ∈ acts := by
  have asked : name ∈ acts.filterMap (fun act => act.asks.map Prod.fst) ↔ ∃ w bytes, FileAct.start w name bytes ∈ acts := by
    rw [List.mem_filterMap]
    constructor
    · rintro ⟨act, member, asks⟩
      cases act with
      | start w t bytes =>
          obtain rfl := Option.some.inj asks
          exact ⟨w, bytes, member⟩
      | put w n => cases asks
      | finish w => cases asks
      | publish w => cases asks
      | quit w => cases asks
      | remove t => cases asks
      | crash undone found => cases asks
    · rintro ⟨w, bytes, member⟩
      exact ⟨_, member, rfl⟩
  rw [namesOf, OrderedMap.contains_foldl_insert, ← asked, OrderedMap.contains_iff, ← OrderedMap.mem_keys]
  simp [OrderedMap.contains]

/-- What is read of a disk that is sound is what the directory read off it says. -/
theorem finds_readDir (sound : Sound isSideFile (Possible codec dir acts) s) : Finds codec s.disk (readDir codec dir acts s.disk) ∧
    ∀ name snapshot, (readDir codec dir acts s.disk).files.get name = some snapshot →
      dir.files.get name = some snapshot ∨ snapshot.Written ∧ ∃ w, .start w name (codec.encode snapshot) ∈ acts := by
  have get (name : String) : (readDir codec dir acts s.disk).files.get name =
      ((namesOf dir acts).get name).bind fun _ => if isShardFile name then (s.disk.read name).bind codec.decode else none :=
    OrderedMap.get_filterMap ..
  have known (name : String) (shard : isShardFile name = true) (bytes : List UInt8) (found : s.disk.read name = some bytes) :
      Possible codec dir acts name bytes := sound.read (isSideFile_shard shard) found
  constructor
  · intro name shard
    rw [get, if_pos shard]
    cases found : s.disk.read name with
    | none => simp
    | some bytes =>
        obtain ⟨snapshot, decoded, from_⟩ := known name shard bytes found shard
        have listed : (namesOf dir acts).contains name = true := by
          refine mem_namesOf.mpr ?_
          rcases from_ with held | ⟨-, w, member⟩
          · exact .inl (OrderedMap.contains_iff.mpr ⟨snapshot, held⟩)
          · exact .inr ⟨w, _, member⟩
        obtain ⟨_, entry⟩ := OrderedMap.contains_iff.mp listed
        simp [entry, decoded]
  · intro name snapshot held
    rw [get] at held
    obtain ⟨_, -, held⟩ := Option.bind_eq_some_iff.mp held
    split at held
    · rename_i shard
      obtain ⟨bytes, found, decoded⟩ := Option.bind_eq_some_iff.mp held
      obtain ⟨snapshot', decoded', from_⟩ := known name shard bytes found shard
      obtain rfl : snapshot' = snapshot := Option.some.inj (decoded'.symm.trans decoded)
      exact from_
    · cases held

theorem loadFiles_of_versions {l : List (String × Snapshot)} (versions : ∀ e ∈ l, checkVersion e.2.version = .ok ()) (acc : Stored) :
    ∃ acc', loadFiles l acc = .ok acc' := by
  induction l generalizing acc with
  | nil => exact ⟨acc, rfl⟩
  | cons e rest ih =>
      obtain ⟨acc', loaded⟩ := ih (fun e' member => versions e' (List.mem_cons_of_mem _ member)) (extend acc e.2.namespaces)
      refine ⟨acc', ?_⟩
      simp only [loadFiles, versions e List.mem_cons_self]
      exact loaded

/-- A directory can be loaded when every file in it has a version that this build reads. -/
theorem load_isOk (files : ∀ name snapshot, dir.files.get name = some snapshot → checkVersion snapshot.version = .ok ())
    (old : ∀ snapshot, dir.legacy = some snapshot → checkVersion snapshot.version = .ok ()) : (load dir).isOk = true := by
  have versions : ∀ e ∈ dir.files.entries, checkVersion e.2.version = .ok () :=
    fun e member => files e.1 e.2 (OrderedMap.mem_entries.mp member)
  unfold load
  cases legacy : dir.legacy with
  | none =>
      obtain ⟨acc, loaded⟩ := loadFiles_of_versions versions ∅
      simp only [pure_bind, loaded]
      change Except.isOk (if _ then _ else _) = true
      split
      · rfl
      · rfl
  | some snapshot =>
      obtain ⟨acc, loaded⟩ := loadFiles_of_versions versions (extend ∅ snapshot.namespaces)
      simp only [old snapshot legacy]
      change Except.isOk (loadFiles dir.files.entries (extend ∅ snapshot.namespaces) >>= _) = true
      rw [loaded]
      rfl

variable [DecidableEq ι]

/-- Where no two threads are ever at one shard, power may fail at any moment and any number of times: every shard's file is
then what it was at the start or what one of them set out to write, whole; a file nobody removes is there; and a directory
that could be loaded still can. -/
theorem crash_keeps_shards (rest_ : AtRest disk) (finds : Finds codec disk dir)
    (apart : (⟨disk, fun _ => .idle⟩ : Sys ι String UInt8).Exclusive isSideFile acts) (asks : Asks codec acts)
    (ran : (⟨disk, fun _ => .idle⟩ : Sys ι String UInt8).run isSideFile acts = some s') :
    ∃ dir' : Dir, Finds codec s'.disk dir' ∧ dir'.legacy = dir.legacy ∧
      (∀ name snapshot, dir'.files.get name = some snapshot →
        dir.files.get name = some snapshot ∨ snapshot.Written ∧ ∃ w, .start w name (codec.encode snapshot) ∈ acts) ∧
      (∀ name, isShardFile name = true → dir.files.contains name = true → .remove name ∉ acts → dir'.files.contains name = true) ∧
      ((load dir).isOk = true → (load dir').isOk = true) := by
  have sound : Sound isSideFile (Possible codec dir acts) s' :=
    (rest_.sound finds).run apart (fun act member v asked => possible_of_asked asks member asked) ran
  obtain ⟨reads, from_⟩ := finds_readDir sound
  refine ⟨readDir codec dir acts s'.disk, reads, rfl, from_, fun name shard held kept => ?_, fun loads => ?_⟩
  · -- A file that is there at the start is there in the only directory a crash may leave.
    have start : CrashFiles.Stays name disk := by
      intro found member absent
      rw [Disk.dirs, rest_.past, List.mem_singleton] at member
      obtain ⟨snapshot, entry⟩ := OrderedMap.contains_iff.mp held
      have finds_ := finds name shard
      rw [Disk.read, ← member, absent, entry] at finds_
      cases finds_
    obtain ⟨bytes, found⟩ := (CrashFiles.Stays.run start kept ran).read
    have reads_ := reads name shard
    rw [found] at reads_
    obtain ⟨snapshot, entry, -⟩ := Option.map_eq_some_iff.mp reads_.symm
    exact OrderedMap.contains_iff.mpr ⟨snapshot, entry⟩
  · cases loaded : load dir with
    | error e =>
        rw [loaded] at loads
        cases loads
    | ok data =>
        refine load_isOk (fun name snapshot entry => ?_) fun snapshot old => load_legacy loaded snapshot old
        rcases from_ name snapshot entry with held | ⟨written, -⟩
        · exact load_versions loaded name snapshot held
        · rw [written.version]
          decide

/-! ## One save -/

section OneSave

variable {names : ShardFiles} {order : List String} {now : DateTime}

/-- What a save sets out to do to the files: the shards that are marked, then the small files that have something new to say,
then the files of shards that are gone. -/
def saveActs (codec : ShardCodec) (names : ShardFiles) (db : Database) (order : List String) (side : List (String × List UInt8)) :
    List (FileAct Unit String UInt8) :=
  (((toWrite db order).map fun shard => (names.file shard, codec.encode (shardSnapshot db shard))) ++ side).flatMap
      (fun e => CrashFiles.replace () e.1 e.2) ++
    ((db.dirty.keys.filter fun shard => !(presentShards db).contains shard).map names.file).map .remove

/-- An act that starts on no file and removes no file but those that were to be. -/
def Amid (asked : List (FileAct Unit String UInt8)) : FileAct Unit String UInt8 → Prop
  | .start w t bytes => .start w t bytes ∈ asked
  | .remove t => .remove t ∈ asked
  | _ => True

/-- What is read, in terms of the directory. -/
def Agree (codec : ShardCodec) (read : String → Option (List UInt8)) (dir : Dir) : Prop :=
  ∀ name, isShardFile name = true → (read name).map codec.decode = (dir.files.get name).map some

theorem Agree.insert {read : String → Option (List UInt8)} (agree : Agree codec read dir) (f : String) {snapshot : Snapshot}
    (written : snapshot.Written) : Agree codec (Function.update read f (some (codec.encode snapshot)))
      { dir with files := dir.files.insert f snapshot } := by
  intro name shard
  rw [Function.update_apply, OrderedMap.get_insert]
  split
  · exact congrArg some (codec.decode_encode written)
  · exact agree name shard

theorem Agree.erase {read : String → Option (List UInt8)} (agree : Agree codec read dir) (f : String) :
    Agree codec (Function.update read f none) { dir with files := dir.files.erase f } := by
  intro name shard
  rw [Function.update_apply, OrderedMap.get_erase]
  split
  · rfl
  · exact agree name shard

theorem Agree.side {read : String → Option (List UInt8)} (agree : Agree codec read dir) {f : String} (beside : isSideFile f = true)
    (bytes : List UInt8) : Agree codec (Function.update read f (some bytes)) dir := by
  intro name shard
  rw [Function.update_apply, if_neg]
  · exact agree name shard
  · rintro rfl
    exact absurd (beside.symm.trans (isSideFile_shard shard)) nofun

theorem save_dir (db : Database) (names : ShardFiles) (dir : Dir) (now : DateTime) (order : List String) :
    (save db (.sound names dir now) false order).2.1 =
      db.dirty.keys.foldl (removeStale (.sound names dir now) (presentShards db))
        (replaceFiles db (.sound names dir now) (toWrite db order) dir) := by
  obtain ⟨report, walked⟩ := @saveShards_stops (.sound names dir now) db.dirty { db with dirty := ∅ }
    order dir ⟨0, 0⟩
  have all : (order.filter db.dirty.contains).takeWhile (World.sound names dir now).writable = toWrite db order :=
    List.takeWhile_eq_self_iff.mpr fun _ _ => rfl
  have none_ : (order.filter db.dirty.contains).dropWhile (World.sound names dir now).writable = [] :=
    List.dropWhile_eq_nil_iff.mpr fun _ _ => rfl
  rw [none_, all] at walked
  have opened : (World.sound names dir now).dir = dir := rfl
  simp only [save, opened, walked]
  rfl

/-- A save that is not interrupted leaves on the disk what it leaves in the directory. -/
theorem saveActs_finds {side : List (String × List UInt8)} (fits : Fits db) (rest_ : AtRest disk) (finds : Finds codec disk dir)
    (beside : ∀ e ∈ side, isSideFile e.1 = true) :
    ∃ s', (⟨disk, fun _ => .idle⟩ : Sys Unit String UInt8).run isSideFile (saveActs codec names db order side) = some s' ∧
      Finds codec s'.disk (save db (.sound names dir now) false order).2.1 := by
  let contents := ((toWrite db order).map fun shard => (names.file shard, codec.encode (shardSnapshot db shard))) ++ side
  let acts : List (FileAct Unit String UInt8) := contents.map fun e => .start () e.1 e.2
  have quiet : Sound isSideFile (fun _ _ => True) (⟨disk, fun _ => .idle⟩ : Sys Unit String UInt8) :=
    CrashFiles.Quiet.sound ⟨rest_.past, rest_.one, rest_.used, fun name i entry _ => ⟨rest_.synced _ i entry, trivial⟩⟩
  obtain ⟨s₁, ran₁, -, -, reads₁⟩ := quiet.replaceAll (w := ()) rfl contents fun _ _ => trivial
  obtain ⟨s₂, ran₂, reads₂⟩ := CrashFiles.Sys.removeAll isSideFile s₁
    ((db.dirty.keys.filter fun shard => !(presentShards db).contains shard).map names.file)
  refine ⟨s₂, ?_, ?_⟩
  · rw [saveActs, CrashFiles.Sys.run_append]
    change ((⟨disk, fun _ => .idle⟩ : Sys Unit String UInt8).run isSideFile
      (contents.flatMap fun e => CrashFiles.replace () e.1 e.2)).bind _ = _
    rw [ran₁]
    exact ran₂
  have shards : ∀ (l : List String) (read : String → Option (List UInt8)) (dir' : Dir), Agree codec read dir' →
      Agree codec ((l.map fun shard => (names.file shard, codec.encode (shardSnapshot db shard))).foldl
        (fun read e => Function.update read e.1 (some e.2)) read) (replaceFiles db (.sound names dir now) l dir') := by
    intro l
    induction l with
    | nil => exact fun _ _ agree => agree
    | cons shard rest ih => exact fun read dir' agree => ih _ _ (agree.insert _ (shardSnapshot_written fits shard))
  have small : ∀ (l : List (String × List UInt8)) (read : String → Option (List UInt8)) (dir' : Dir),
      (∀ e ∈ l, isSideFile e.1 = true) → Agree codec read dir' →
        Agree codec (l.foldl (fun read e => Function.update read e.1 (some e.2)) read) dir' := by
    intro l
    induction l with
    | nil => exact fun _ _ _ agree => agree
    | cons e rest ih =>
        exact fun read dir' all agree => ih _ _ (fun e' member => all e' (List.mem_cons_of_mem _ member))
          (agree.side (all e List.mem_cons_self) e.2)
  have stale : ∀ (l : List String) (read : String → Option (List UInt8)) (dir' : Dir), Agree codec read dir' →
      Agree codec (((l.filter fun shard => !(presentShards db).contains shard).map names.file).foldl
        (fun read t => Function.update read t none) read)
        (l.foldl (removeStale (.sound names dir now) (presentShards db)) dir') := by
    intro l
    induction l with
    | nil => exact fun _ _ agree => agree
    | cons shard rest ih =>
        intro read dir' agree
        rw [List.filter_cons, List.foldl_cons]
        cases there : (presentShards db).contains shard with
        | true =>
            have kept : removeStale (.sound names dir now) (presentShards db) dir' shard = dir' := by
              simp only [removeStale, there, Bool.not_true, Bool.false_and, Bool.false_eq_true, if_false]
            rw [kept]
            exact ih read dir' agree
        | false =>
            have gone : removeStale (.sound names dir now) (presentShards db) dir' shard =
                { dir' with files := dir'.files.erase (names.file shard) } := by
              simp only [removeStale, there, World.sound, Bool.not_false, Bool.true_and, if_true]
            rw [gone]
            exact ih _ _ (agree.erase _)
  change Agree codec s₂.disk.read _
  rw [reads₂, reads₁, save_dir, List.foldl_append]
  exact stale _ _ _ (small side _ _ beside (shards _ _ dir finds))

/-- The file of a shard in play after a save. -/
theorem save_get (marks : ∀ s, db.dirty.contains s = true → names.used s) (walk : order.Perm (presentShards db).keys) {s : String}
    (used : names.used s) : (save db (.sound names dir now) false order).2.1.files.get (names.file s) =
      if db.dirty.contains s = true then if (presentShards db).contains s = true then some (shardSnapshot db s) else none
      else dir.files.get (names.file s) := by
  have mem : s ∈ order ↔ (presentShards db).contains s = true := by
    rw [walk.mem_iff, OrderedMap.contains_iff, OrderedMap.mem_keys]
  have marked : s ∈ db.dirty.keys ↔ db.dirty.contains s = true := by
    rw [OrderedMap.contains_iff, OrderedMap.mem_keys]
  have written : ∀ shard ∈ toWrite db order, names.used shard := fun shard member => marks shard (List.mem_filter.mp member).2
  have replaced : (replaceFiles db (.sound names dir now) (toWrite db order) dir).files.get (names.file s) =
      if s ∈ toWrite db order then some (shardSnapshot db s) else dir.files.get (names.file s) := by
    have step : ∀ (l : List String) (dir' : Dir), (∀ shard ∈ l, names.used shard) →
        (replaceFiles db (.sound names dir now) l dir').files.get (names.file s) =
          if s ∈ l then some (shardSnapshot db s) else dir'.files.get (names.file s) := by
      intro l
      induction l with
      | nil => exact fun _ _ => (if_neg List.not_mem_nil).symm
      | cons shard rest ih =>
          intro dir' play
          change (replaceFiles db (.sound names dir now) rest
            { dir' with files := dir'.files.insert (names.file shard) (shardSnapshot db shard) }).files.get (names.file s) = _
          rw [ih _ fun other member => play other (List.mem_cons_of_mem _ member), OrderedMap.get_insert]
          by_cases same : s = shard
          · subst same
            simp
          · have apart : names.file s ≠ names.file shard := fun equal => same (names.apart s shard used (play shard List.mem_cons_self) equal)
            simp [same, apart]
    exact step _ dir written
  rw [save_dir, (removeStale_sound names dir now (presentShards db) (fun shard member => marks shard (by
    rwa [OrderedMap.contains_iff, ← OrderedMap.mem_keys])) _).2 s used, replaced]
  by_cases dirty : db.dirty.contains s = true
  · by_cases there : (presentShards db).contains s = true
    · have listed : s ∈ toWrite db order := List.mem_filter.mpr ⟨mem.mpr there, dirty⟩
      simp [dirty, there, listed]
    · simp [marked, dirty, there]
  · have unlisted : s ∉ toWrite db order := fun member => dirty (List.mem_filter.mp member).2
    simp [marked, dirty, unlisted]

/-- What a save sets out to write under a shard's name is that shard. -/
theorem of_start_mem {side : List (String × List UInt8)} (beside : ∀ e ∈ side, isSideFile e.1 = true) {name : String}
    {bytes : List UInt8} (shard : isShardFile name = true)
    (asked : FileAct.start () name bytes ∈ saveActs codec names db order side) :
    ∃ s ∈ toWrite db order, name = names.file s ∧ bytes = codec.encode (shardSnapshot db s) := by
  rcases List.mem_append.mp asked with written | removed
  · obtain ⟨e, member, here⟩ := List.mem_flatMap.mp written
    simp only [CrashFiles.replace, List.mem_cons, FileAct.start.injEq, true_and, reduceCtorEq, List.not_mem_nil, or_false] at here
    obtain ⟨rfl, rfl⟩ := here
    rcases List.mem_append.mp member with shard_ | small
    · obtain ⟨s, listed, rfl⟩ := List.mem_map.mp shard_
      exact ⟨s, listed, rfl, rfl⟩
    · have aside := beside e small
      rw [isSideFile_shard shard] at aside
      cases aside
  · obtain ⟨_, -, other⟩ := List.mem_map.mp removed
    cases other

theorem start_mem {side : List (String × List UInt8)} {s : String} (listed : s ∈ toWrite db order) :
    FileAct.start () (names.file s) (codec.encode (shardSnapshot db s)) ∈ saveActs codec names db order side :=
  List.mem_append_left _ (List.mem_flatMap.mpr ⟨_, List.mem_append_left _ (List.mem_map_of_mem listed), List.mem_cons_self⟩)

theorem of_remove_mem {side : List (String × List UInt8)} {name : String}
    (asked : FileAct.remove name ∈ saveActs codec names db order side) :
    ∃ s, db.dirty.contains s = true ∧ (presentShards db).contains s = false ∧ name = names.file s := by
  rcases List.mem_append.mp asked with written | removed
  · obtain ⟨e, -, here⟩ := List.mem_flatMap.mp written
    simp only [CrashFiles.replace, List.mem_cons, reduceCtorEq, List.not_mem_nil, or_false] at here
  · obtain ⟨_, there, same⟩ := List.mem_map.mp removed
    obtain ⟨s, listed, rfl⟩ := List.mem_map.mp there
    obtain ⟨marked, gone⟩ := List.mem_filter.mp listed
    exact ⟨s, OrderedMap.contains_iff.mpr (OrderedMap.mem_keys.mp marked), by simpa using gone, (FileAct.remove.inj same).symm⟩

/-- Text as its bytes, not compressed, and hash maps in the order of their keys. -/
def ShardCodec.plain : ShardCodec where
  json := JsonText.codec
  compress text := (String.ofList text).toUTF8.data.toList
  decompress bytes := (String.fromUTF8? ⟨bytes.toArray⟩).map String.toList
  whole text := by
    have valid : (String.ofList text).toUTF8.IsValidUTF8 := (String.ofList text).isValidUTF8
    have same : (⟨(String.ofList text).toUTF8.data.toList.toArray⟩ : ByteArray) = (String.ofList text).toUTF8 := rfl
    rw [same, String.fromUTF8?, dif_pos valid, Option.map_some]
    exact congrArg some String.toList_ofList
  order stored := stored.entries.map fun e => (e.1, e.2.entries)
  walks stored := ⟨stored.entries, .refl _, by
    rw [List.forall₂_map_right_iff]
    exact List.forall₂_same.mpr fun e _ => ⟨rfl, .refl _⟩⟩

/-- One value in memory, its shard to be saved. -/
def sightedOnce : Database :=
  { Database.withNode ⟨0, 0⟩ .storeEverything "local" with
    namespaces := (∅ : OrderedMap String Namespace).insert "a" ⟨(∅ : OrderedMap String Attribute).insert "v" (Attribute.new "v"), false⟩
    dirty := (∅ : Names).insert "a" () }

def emptyDisk : Disk String UInt8 := ⟨fun _ => ⟨[], true⟩, 0, fun _ => none, []⟩

/-- The power fails while the file is being written. -/
def failing : List (FileAct Unit String UInt8) :=
  [.start () (ShardFiles.sample.file "a") (ShardCodec.plain.encode (shardSnapshot sightedOnce "a")), .put () 3, .crash 0 fun _ => [0]]

end OneSave

end Crashes

end SightingDB
