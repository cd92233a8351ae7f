import SightingDB.Acts

/-!
Runs in which a shard's file may for a while not be readable. A page-in that fails leaves
the shard out of memory, and its file alone, as long as nothing is made in it: registering
a namespace marks the shard resident, and from then on its file is written from memory.
-/
namespace SightingDB

/-- When something happens, and which shards' files can be read then. -/
structure Moment where
  now : DateTime
  readable : String → Bool

/-- Reads may fail at this moment, writes and removals do not. -/
def Moment.world (t : Moment) (names : ShardFiles) (dir : Dir) : World :=
  { World.sound names dir t.now with readable := t.readable }

namespace Machine

variable (names : ShardFiles)

/-- A step at a moment. Saving and evicting read no shard file. -/
def stepAmid (m : Machine) (t : Moment) : Act → Option Machine
  | .evictIdle at_ => m.step names t.now (.evictIdle at_)
  | .save order => m.step names t.now (.save order)
  | act => (act.apply m.db (t.world names m.dir)).map fun db => ⟨db, m.dir⟩

def runAmid (m : Machine) : List (Moment × Act) → Option Machine
  | [] => some m
  | (t, act) :: rest => (m.stepAmid names t act).bind fun m => runAmid m rest

/-- Where every file can be read this is the step there was. -/
theorem stepAmid_readable (m : Machine) (now : DateTime) (act : Act) :
    m.stepAmid names ⟨now, fun _ => true⟩ act = m.step names now act := by
  cases act with
  | sweep at_ order =>
      simp only [stepAmid, step, Act.apply]
      split_ifs <;> rfl
  | _ => rfl

end Machine

/-! ## Where things are -/

/-- A directory of shard files, each of a shard in play and with namespaces of that shard
only, and possibly a single-file snapshot beside them. -/
structure ShardDir (names : ShardFiles) (dir : Dir) : Prop where
  shard : ∀ f, dir.files.contains f = true → ∃ s, names.used s ∧ f = names.file s
  own : OwnFiles names dir
  legacy : ∀ old name vals, dir.legacy = some old → old.namespaces.get name = some vals → names.used (shardOf name)

/-- The directory is one of shard files that can be loaded, all that memory, catalogue and
dirty set name is in play, and what is in memory is in a shard that is. -/
structure Placed (names : ShardFiles) (m : Machine) : Prop where
  store : m.db.store = true
  dir : ShardDir names m.dir
  versions : ∀ f snap, m.dir.files.get f = some snap → checkVersion snap.version = .ok ()
  old : ∀ snap, m.dir.legacy = some snap → checkVersion snap.version = .ok ()
  memory : ∀ name, m.db.namespaces.contains name = true →
    names.used (shardOf name) ∧ m.db.evicted (shardOf name) = false
  catalogue : ∀ s meta_, m.db.shards.get s = some meta_ → names.used s
  marks : ∀ s, m.db.dirty.contains s = true → names.used s
  hot : m.db.evicted internalShard = false

section Placed

variable {names : ShardFiles} {dir : Dir} {db db' : Database} {t : Moment} {adds drops : Item → Prop} {blind : Prop}

theorem fileOf_of_read {readable : String → Bool} {shard : String} {data : Stored}
    (read : readShardFile names dir readable shard = some data) : data = fileOf names dir shard := by
  simp only [readShardFile, fileOf] at read ⊢
  cases file : dir.files.get (names.file shard) with
  | none =>
      rw [file] at read
      exact (Option.some.inj read).symm
  | some snap =>
      simp only [file] at read
      split_ifs at read
      obtain ⟨_, _, rfl⟩ := Option.map_eq_some_iff.mp read
      rfl

theorem ShardDir.fileOf_own (placed : ShardDir names dir) {shard name : String} {vals : Values}
    (used : names.used shard) (found : (fileOf names dir shard).get name = some vals) : shardOf name = shard := by
  simp only [fileOf] at found
  cases file : dir.files.get (names.file shard) with
  | none => simp [file] at found
  | some snap => exact placed.own shard snap name vals used file (by simpa [file] using found)

theorem Placed.used_of_evicted (placed : Placed names ⟨db, dir⟩) {shard : String} (away : db.evicted shard = true) :
    names.used shard := by
  obtain ⟨meta_, found, _⟩ := evicted_iff.mp away
  exact placed.catalogue shard meta_ found

theorem shards_uncatalogue {name s : String} {meta_ : ShardMeta}
    (found : (db.uncatalogue name).shards.get s = some meta_) : ∃ old, db.shards.get s = some old := by
  simp only [Database.uncatalogue] at found
  cases held : db.shards.get (shardOf name) with
  | none =>
      rw [held] at found
      exact ⟨meta_, found⟩
  | some old =>
      simp only [held, OrderedMap.get_insert] at found
      split_ifs at found with same
      · exact ⟨old, same ▸ held⟩
      · exact ⟨meta_, found⟩

/-- Moves stay among the shards in play when what they bring in is. -/
theorem Placed.move (placed : Placed names ⟨db, dir⟩) (move : Move (t.world names dir) adds drops blind db db')
    (play : ∀ item, adds item → names.used (shardOf item.name)) : Placed names ⟨db', dir⟩ := by
  have store : db'.store = true := (Moves.store (.single move)).trans placed.store
  have stays : ∀ {s}, db.evicted s = false → db'.evicted s = false := move.here
  have hot := stays placed.hot
  cases move with
  | touch shard =>
      refine ⟨store, placed.dir, placed.versions, placed.old, ?_, fun s meta_ found => ?_, ?_, hot⟩
      · simpa using placed.memory
      · rw [Database.touch_shards, Option.map_eq_some_iff] at found
        obtain ⟨old, before, _⟩ := found
        exact placed.catalogue s old before
      · simpa using placed.marks
  | pageIn away paged =>
      have used := placed.used_of_evicted away
      have resident := resident_of_pageIn placed.store paged
      rcases pageIn_cases paged with rfl | ⟨data, read, namespaces, dirty, _, _, shards⟩
      · exact placed
      · have file : data = fileOf names dir _ := fileOf_of_read read
        refine ⟨store, placed.dir, placed.versions, placed.old, fun name present => ?_, fun s meta_ found => ?_, ?_, hot⟩
        · rw [OrderedMap.contains, namespaces, get_extend, OrderedMap.get_mapValues] at present
          cases inFile : data.get name with
          | none =>
              have before := placed.memory name (by simpa [inFile, OrderedMap.contains] using present)
              exact ⟨before.1, stays before.2⟩
          | some vals =>
              rw [file] at inFile
              rw [placed.dir.fileOf_own used inFile]
              exact ⟨used, resident⟩
        · rw [shards] at found
          split_ifs at found with same
          · exact same ▸ used
          · exact placed.catalogue s meta_ found
        · rw [dirty]
          exact placed.marks
  | @register name allowed here =>
      have used := play _ allowed
      refine ⟨store, placed.dir, placed.versions, placed.old, fun name' present => ?_, fun s meta_ found => ?_,
        placed.marks, hot⟩
      · simp only [OrderedMap.contains, OrderedMap.get_insert] at present
        split_ifs at present with same
        · rw [same]
          exact ⟨used, by simp [Database.evicted, Database.catalogue]⟩
        · have before := placed.memory name' present
          exact ⟨before.1, stays before.2⟩
      · simp only [Database.catalogue, OrderedMap.get_insert] at found
        split_ifs at found with same
        · exact same ▸ used
        · exact placed.catalogue s meta_ found
  | put held gains loses =>
      refine ⟨store, placed.dir, placed.versions, placed.old, fun name present => ?_, placed.catalogue, placed.marks, hot⟩
      simp only [Database.put, OrderedMap.contains, OrderedMap.get_insert] at present
      split_ifs at present with same
      · exact placed.memory name (by simp [OrderedMap.contains, same, held])
      · exact placed.memory name present
  | mark held =>
      refine ⟨store, placed.dir, placed.versions, placed.old, placed.memory, placed.catalogue, fun s marked => ?_, hot⟩
      simp only [Database.markDirty, Database.markShardDirty, OrderedMap.contains, OrderedMap.get_insert] at marked
      split_ifs at marked with same
      · exact same ▸ (placed.memory _ held).1
      · exact placed.marks s marked
  | erase allowed =>
      refine ⟨store, placed.dir, placed.versions, placed.old, fun name present => ?_, placed.catalogue, placed.marks, hot⟩
      simp only [OrderedMap.contains, OrderedMap.get_erase] at present
      split_ifs at present
      · cases present
      · exact placed.memory name present
  | uncatalogue name =>
      refine ⟨store, placed.dir, placed.versions, placed.old, ?_, fun s meta_ found => ?_, ?_, hot⟩
      · simpa using placed.memory
      · obtain ⟨old, before⟩ := shards_uncatalogue found
        exact placed.catalogue s old before
      · simpa using placed.marks

theorem Placed.moves (placed : Placed names ⟨db, dir⟩) (moves : Moves (t.world names dir) adds drops blind db db')
    (play : ∀ item, adds item → names.used (shardOf item.name)) : Placed names ⟨db', dir⟩ := by
  induction moves with
  | refl => exact placed
  | tail _ move ih => exact ih.move move play

end Placed

/-! ## Saving and evicting -/

section Writing

variable {names : ShardFiles}

theorem ShardDir.insert {dir : Dir} (shards : ShardDir names dir) {shard : String} (used : names.used shard)
    (db : Database) :
    ShardDir names { dir with files := dir.files.insert (names.file shard) (shardSnapshot db shard) } where
  shard f present := ((Spreads.insert dir used _).shard f present).elim (shards.shard f) id
  own k snap name vals play found inFile := by
    simp only [OrderedMap.get_insert] at found
    split_ifs at found with same
    · obtain rfl := names.apart k shard play used same
      obtain rfl := Option.some.inj found
      rw [get_shardSnapshot] at inFile
      split_ifs at inFile with mine
      exact mine
    · exact shards.own k snap name vals play found inFile
  legacy := shards.legacy

/-- One shard written out if dirty, and dropped. -/
def evictedDir (names : ShardFiles) (db : Database) (dir : Dir) (shard : String) : Dir :=
  if db.dirty.contains shard then
    { dir with files := dir.files.insert (names.file shard) (shardSnapshot db shard) }
  else dir

def evictedDb (db : Database) (shard : String) : Database :=
  ({ db with dirty := db.dirty.erase shard } : Database).dropShard shard

theorem evictShard_sound (start : Dir) (now : DateTime) (acc : Database × Dir × EvictReport) (shard : String) :
    (Database.evictShard (.sound names start now) acc shard).1 = evictedDb acc.1 shard ∧
      (Database.evictShard (.sound names start now) acc shard).2.1 = evictedDir names acc.1 acc.2.1 shard := by
  obtain ⟨db, dir, report⟩ := acc
  simp only [Database.evictShard, evictedDb, evictedDir, writeShard_sound]
  split_ifs <;> exact ⟨rfl, rfl⟩

theorem shards_evictedDb {db : Database} {shard s : String} : ((evictedDb db shard).shards.get s) =
    (db.shards.get s).map fun meta_ => if s = shard then { meta_ with resident := false } else meta_ := by
  simp only [evictedDb, Database.dropShard]
  cases found : db.shards.get shard with
  | none =>
      by_cases same : s = shard
      · subst same
        simp [found]
      · simp [same]
  | some meta_ =>
      by_cases same : s = shard
      · subst same
        simp [found]
      · simp [OrderedMap.get_insert, same]

/-- What one eviction keeps, a walk over the idle shards keeps. -/
theorem Machine.evictIdle_induction {P : Machine → Prop} {now : DateTime} {at_ : Int}
    (evicts : ∀ db dir s, (∃ meta_, db.shards.get s = some meta_) → s ≠ internalShard → P ⟨db, dir⟩ →
      P ⟨evictedDb db s, evictedDir names db dir s⟩)
    {m m' : Machine} (stepped : m.step names now (.evictIdle at_) = some m') (start : P m) : P m' := by
  have walk : ∀ (shards : List String) (acc : Database × Dir × EvictReport),
      (∀ s ∈ shards, (∃ meta_, acc.1.shards.get s = some meta_) ∧ s ≠ internalShard) → P ⟨acc.1, acc.2.1⟩ →
      P ⟨(shards.foldl (Database.evictShard (.sound names m.dir now)) acc).1,
        (shards.foldl (Database.evictShard (.sound names m.dir now)) acc).2.1⟩ := by
    intro shards
    induction shards with
    | nil => exact fun _ _ holds => holds
    | cons shard rest ih =>
        intro acc candidates holds
        obtain ⟨db', dir'⟩ := @evictShard_sound names m.dir now acc shard
        obtain ⟨listed, other⟩ := candidates shard List.mem_cons_self
        refine ih _ (fun s member => ?_) ?_
        · obtain ⟨⟨meta_, found⟩, other'⟩ := candidates s (List.mem_cons_of_mem _ member)
          rw [db', shards_evictedDb, found]
          exact ⟨⟨_, rfl⟩, other'⟩
        · rw [db', dir']
          exact evicts acc.1 acc.2.1 shard listed other holds
  have same : m' = ⟨(m.db.evictIdle (.sound names m.dir now) at_).1,
      (m.db.evictIdle (.sound names m.dir now) at_).2.1⟩ := by
    simp only [step] at stepped
    exact (Option.some.inj stepped).symm
  rw [same]
  simp only [Database.evictIdle]
  split_ifs with store
  · exact start
  · refine walk _ (m.db, m.dir, ⟨0, 0, 0⟩) (fun s member => ?_) start
    obtain ⟨meta_, kept⟩ := OrderedMap.mem_keys.mp member
    rw [OrderedMap.get_filter, Option.filter_eq_some_iff] at kept
    refine ⟨⟨meta_, kept.1⟩, ?_⟩
    rintro rfl
    simpa [TierPolicy.isIdle] using kept.2

theorem evicted_evictedDb {db : Database} {shard : String} (listed : ∃ meta_, db.shards.get shard = some meta_)
    (s : String) : (evictedDb db shard).evicted s = (decide (s = shard) || db.evicted s) := by
  obtain ⟨meta_, found⟩ := listed
  simp only [Database.evicted, shards_evictedDb]
  by_cases same : s = shard
  · subst same
    simp [found]
  · cases db.shards.get s <;> simp [same]

theorem get_evictedDb (db : Database) (shard name : String) : (evictedDb db shard).namespaces.get name =
    if shardOf name = shard then none else db.namespaces.get name := get_dropShard _ shard name

theorem Placed.evict {db : Database} {dir : Dir} (placed : Placed names ⟨db, dir⟩) {shard : String}
    (listed : ∃ meta_, db.shards.get shard = some meta_) (other : shard ≠ internalShard) :
    Placed names ⟨evictedDb db shard, evictedDir names db dir shard⟩ := by
  obtain ⟨meta_, found⟩ := listed
  have used := placed.catalogue shard meta_ found
  have evicted := evicted_evictedDb ⟨meta_, found⟩
  refine ⟨placed.store, ?_, ?_, ?_, fun name present => ?_, fun s meta' entered => ?_, fun s marked => ?_, ?_⟩
  · simp only [evictedDir]
    split_ifs
    · exact placed.dir.insert used db
    · exact placed.dir
  · intro f snap inDir
    simp only [evictedDir] at inDir
    split_ifs at inDir
    · simp only [OrderedMap.get_insert] at inDir
      split_ifs at inDir
      · obtain rfl := Option.some.inj inDir
        rfl
      · exact placed.versions f snap inDir
    · exact placed.versions f snap inDir
  · intro snap legacy
    simp only [evictedDir] at legacy
    split_ifs at legacy <;> exact placed.old snap legacy
  · rw [OrderedMap.contains, get_evictedDb] at present
    split_ifs at present with mine
    · cases present
    · have before := placed.memory name present
      exact ⟨before.1, by rw [evicted, before.2]; simpa using mine⟩
  · rw [shards_evictedDb] at entered
    obtain ⟨old, before, _⟩ := Option.map_eq_some_iff.mp entered
    exact placed.catalogue s old before
  · have before : (db.dirty.erase shard).contains s = true := marked
    simp only [OrderedMap.contains, OrderedMap.get_erase] at before
    split_ifs at before
    · cases before
    · exact placed.marks s before
  · rw [evicted, placed.hot]
    simpa using Ne.symm other

/-- A save rewrites the dirty shards and nothing else. -/
theorem Placed.save {m m' : Machine} {now : DateTime} {order : List String} (placed : Placed names m)
    (stepped : m.step names now (.save order) = some m') :
    Placed names m' ∧ m'.db = { m.db with dirty := ∅ } ∧ m'.dir.legacy = m.dir.legacy ∧
      Rewritten names m.db (fun s => m.db.dirty.contains s = true) m.dir m'.dir := by
  simp only [Machine.step] at stepped
  split_ifs at stepped with walk
  obtain ⟨dir', report, saved, spreads, rewritten⟩ := save_rewrites (fun name present => (placed.memory name present).1) placed.marks now walk
  rw [saved] at stepped
  obtain rfl := Option.some.inj stepped
  have shard : ∀ f, dir'.files.contains f = true → ∃ s, names.used s ∧ f = names.file s :=
    fun f present => (spreads.shard f present).elim (placed.dir.shard f) id
  -- A file of the new directory is an old one, or a snapshot of its shard.
  have kept : ∀ s snap, names.used s → dir'.files.get (names.file s) = some snap →
      m.dir.files.get (names.file s) = some snap ∨ snap = shardSnapshot m.db s := by
    intro s snap used found
    by_cases dirty : m.db.dirty.contains s = true
    · rcases rewritten.new s used dirty with written | ⟨gone, _⟩
      · exact .inr (Option.some.inj (found.symm.trans written))
      · rw [gone] at found
        cases found
    · rw [rewritten.same s used dirty] at found
      exact .inl found
  refine ⟨⟨placed.store, ⟨shard, ?_, ?_⟩, ?_, ?_, placed.memory, placed.catalogue, ?_, placed.hot⟩, rfl, spreads.legacy,
    rewritten⟩
  · intro s snap name vals used found inFile
    rcases kept s snap used found with before | rfl
    · exact placed.dir.own s snap name vals used before inFile
    · rw [get_shardSnapshot] at inFile
      split_ifs at inFile with mine
      exact mine
  · rw [spreads.legacy]
    exact placed.dir.legacy
  · intro f snap found
    obtain ⟨s, used, rfl⟩ := shard f (OrderedMap.contains_iff.mpr ⟨snap, found⟩)
    rcases kept s snap used found with before | rfl
    · exact placed.versions _ snap before
    · rfl
  · rw [spreads.legacy]
    exact placed.old
  · intro s marked
    simp [OrderedMap.contains] at marked

end Writing

/-! ## Nothing is destroyed -/

/-- A shard in memory is there with all that its file holds; one that is not is in its file
alone, and not dirty. -/
structure Backed (names : ShardFiles) (m : Machine) : Prop where
  placed : Placed names m
  away : ∀ s, m.db.evicted s = true → m.db.dirty.contains s = false
  whole : ∀ item : Item, m.db.evicted (shardOf item.name) = false →
    item.inStored (fileOf names m.dir (shardOf item.name)) = true → item.inMemory m.db = true

theorem Item.within_readBack (item : Item) (vals : Values) (node : String) :
    item.within (readBack node vals) = item.within vals := by
  cases item with
  | namespace_ name => rfl
  | value name v => cases held : vals.get v <;> simp [Item.within, readBack, OrderedMap.contains, held]

theorem Item.within_onDisk (item : Item) (vals : Values) : item.within (onDisk vals) = item.within vals := by
  cases item with
  | namespace_ name => rfl
  | value name v => cases held : vals.get v <;> simp [Item.within, onDisk, OrderedMap.contains, held]

theorem Item.inMemory_iff {item : Item} {db : Database} :
    item.inMemory db = true ↔ ∃ ns, db.namespaces.get item.name = some ns ∧ item.within ns.values = true := by
  cases held : db.namespaces.get item.name <;> simp [Item.inMemory, held]

theorem Item.inStored_iff {item : Item} {stored : Stored} :
    item.inStored stored = true ↔ ∃ vals, stored.get item.name = some vals ∧ item.within vals = true := by
  cases held : stored.get item.name <;> simp [Item.inStored, held]

section Backed

variable {names : ShardFiles} {dir : Dir} {db db' : Database} {t : Moment} {adds : Item → Prop}

/-- A page-in brings the shard back whole. -/
theorem Backed.pageIn {shard : String} (backed : Backed names ⟨db, dir⟩) (away : db.evicted shard = true)
    (paged : db.pageIn (t.world names dir) shard = some db') (placed : Placed names ⟨db', dir⟩) :
    Backed names ⟨db', dir⟩ := by
  have used := backed.placed.used_of_evicted away
  have here := resident_of_pageIn backed.placed.store paged
  rcases pageIn_cases paged with rfl | ⟨data, read, namespaces, dirty, _, _, shards⟩
  · exact backed
  · obtain rfl : data = fileOf names dir shard := fileOf_of_read read
    have evicted : ∀ s, s ≠ shard → db'.evicted s = db.evicted s := by
      intro s other
      simp [Database.evicted, shards, other]
    have get : ∀ name, db'.namespaces.get name =
        (((fileOf names dir shard).get name).map fun vals => .fromValues vals db.node).or (db.namespaces.get name) := by
      intro name
      rw [namespaces, get_extend, OrderedMap.get_mapValues]
    refine ⟨placed, fun s gone => ?_, fun item resident filed => ?_⟩
    · have other : s ≠ shard := by
        rintro rfl
        rw [here] at gone
        cases gone
      rw [evicted s other] at gone
      rw [dirty]
      exact backed.away s gone
    · obtain ⟨vals, inFile, within⟩ := Item.inStored_iff.mp filed
      by_cases mine : shardOf item.name = shard
      · rw [mine] at inFile
        refine Item.inMemory_iff.mpr ⟨.fromValues vals db.node, by simp [get, inFile], ?_⟩
        rw [fromValues_values, Item.within_readBack]
        exact within
      · rw [evicted _ mine] at resident
        obtain ⟨ns, held, there⟩ := Item.inMemory_iff.mp (backed.whole item resident filed)
        have absent : (fileOf names dir shard).get item.name = none := by
          cases inFile' : (fileOf names dir shard).get item.name with
          | none => rfl
          | some other => exact absurd (backed.placed.dir.fileOf_own used inFile') mine
        exact Item.inMemory_iff.mpr ⟨ns, by simp [get, absent, held], there⟩

/-- Moves that take nothing out, and make nothing in a shard that could not be read. -/
theorem Backed.move (backed : Backed names ⟨db, dir⟩)
    (move : Move (t.world names dir) adds keepsAll False db db')
    (play : ∀ item, adds item → names.used (shardOf item.name)) : Backed names ⟨db', dir⟩ := by
  have placed := backed.placed.move move play
  cases move with
  | touch shard =>
      refine ⟨placed, ?_, ?_⟩
      · simpa using backed.away
      · simpa [Item.inMemory] using backed.whole
  | pageIn away paged => exact backed.pageIn away paged placed
  | @register name allowed here =>
      have resident := here.resolve_right id
      have same : ∀ s, Database.evicted { db with
          namespaces := db.namespaces.insert name ((db.namespaces.get name).getD .empty)
          shards := Database.catalogue db.shards name (t.world names dir).now.timestamp } s = db.evicted s := by
        intro s
        by_cases mine : s = shardOf name
        · rw [mine, resident]
          simp [Database.evicted, Database.catalogue]
        · simp [Database.evicted, Database.catalogue, OrderedMap.get_insert, mine]
      refine ⟨placed, fun s gone => ?_, fun item here' filed => ?_⟩
      · rw [same] at gone
        exact backed.away s gone
      · rw [same] at here'
        obtain ⟨ns, held, within⟩ := Item.inMemory_iff.mp (backed.whole item here' filed)
        refine Item.inMemory_iff.mpr ⟨ns, ?_, within⟩
        by_cases mine : item.name = name
        · simp [← mine, held]
        · simp [OrderedMap.get_insert, mine, held]
  | @put name ns ns' held gains loses =>
      refine ⟨placed, backed.away, fun item here filed => ?_⟩
      obtain ⟨old, before, within⟩ := Item.inMemory_iff.mp (backed.whole item here filed)
      by_cases mine : item.name = name
      · refine Item.inMemory_iff.mpr ⟨ns', by simp [Database.put, mine], ?_⟩
        rw [mine, held] at before
        obtain rfl := Option.some.inj before
        cases item with
        | namespace_ _ => rfl
        | value _ v => exact (loses v within).resolve_right id
      · exact Item.inMemory_iff.mpr ⟨old, by simp [Database.put, OrderedMap.get_insert, mine, before], within⟩
  | @mark name held =>
      refine ⟨placed, fun s gone => ?_, backed.whole⟩
      have other : s ≠ shardOf name := by
        rintro rfl
        rw [show Database.evicted (db.markDirty name) (shardOf name) = db.evicted (shardOf name) from rfl,
          (backed.placed.memory name held).2] at gone
        cases gone
      simpa [Database.markDirty, Database.markShardDirty, OrderedMap.contains, OrderedMap.get_insert, other] using
        backed.away s gone
  | @erase name allowed => exact (allowed (.namespace_ name) rfl).elim
  | uncatalogue name =>
      have same : (db.uncatalogue name).namespaces = db.namespaces ∧ (db.uncatalogue name).dirty = db.dirty := by
        simp only [Database.uncatalogue]
        split <;> exact ⟨rfl, rfl⟩
      refine ⟨placed, ?_, ?_⟩
      · simpa [same] using backed.away
      · simpa [Item.inMemory, same] using backed.whole

theorem Backed.moves (backed : Backed names ⟨db, dir⟩)
    (moves : Moves (t.world names dir) adds keepsAll False db db')
    (play : ∀ item, adds item → names.used (shardOf item.name)) : Backed names ⟨db', dir⟩ := by
  induction moves with
  | refl => exact backed
  | tail _ move ih => exact ih.move move play

theorem ShardDir.used_of_filed (shards : ShardDir names dir) {name : String} {vals : Values}
    (found : (fileOf names dir (shardOf name)).get name = some vals) : names.used (shardOf name) := by
  cases file : dir.files.get (names.file (shardOf name)) with
  | none => simp [fileOf, file] at found
  | some snap =>
      obtain ⟨s, used, same⟩ := shards.shard _ (OrderedMap.contains_iff.mpr ⟨snap, file⟩)
      rw [shards.own s snap name vals used (same ▸ file) (by simpa [fileOf, file] using found)]
      exact used

theorem Item.inStored_shardSnapshot (item : Item) (db : Database) :
    item.inStored (shardSnapshot db (shardOf item.name)).namespaces = item.inMemory db := by
  rw [Item.inStored, get_shardSnapshot, if_pos rfl, Item.inMemory]
  cases db.namespaces.get item.name with
  | none => rfl
  | some ns => exact item.within_onDisk ns.values

theorem Item.inStored_rewritten (item : Item) {dir' : Dir} {shards : String → Prop}
    (rewritten : Rewritten names db shards dir dir') (used : names.used (shardOf item.name))
    (taken : shards (shardOf item.name)) :
    item.inStored (fileOf names dir' (shardOf item.name)) = item.inMemory db := by
  rw [Item.inStored, rewritten.fileOf_new used taken rfl, Item.inMemory]
  cases db.namespaces.get item.name with
  | none => rfl
  | some ns => exact item.within_onDisk ns.values

theorem fileOf_evictedDir {shard s : String} (used : names.used shard) (play : names.used s) :
    fileOf names (evictedDir names db dir shard) s =
      if s = shard ∧ db.dirty.contains shard = true then (shardSnapshot db shard).namespaces
      else fileOf names dir s := by
  simp only [evictedDir]
  by_cases marked : db.dirty.contains shard = true
  · by_cases same : s = shard
    · subst same
      simp [marked, fileOf]
    · have apart : names.file s ≠ names.file shard := fun equal => same (names.apart s shard play used equal)
      simp [marked, same, fileOf, OrderedMap.get_insert, apart]
  · simp [marked]

/-- A shard in memory is written with all that its file held, and dropped. -/
theorem Backed.evict {shard : String} (backed : Backed names ⟨db, dir⟩)
    (listed : ∃ meta_, db.shards.get shard = some meta_) (notInternal : shard ≠ internalShard) :
    Backed names ⟨evictedDb db shard, evictedDir names db dir shard⟩ ∧
      ∀ item : Item, item.inStored (fileOf names dir (shardOf item.name)) = true →
        item.inStored (fileOf names (evictedDir names db dir shard) (shardOf item.name)) = true := by
  have placed := backed.placed.evict listed notInternal
  have evicted := evicted_evictedDb listed
  have get := get_evictedDb db shard
  obtain ⟨meta_, found⟩ := listed
  have used := backed.placed.catalogue shard meta_ found
  refine ⟨⟨placed, fun s gone => ?_, fun item here filed => ?_⟩, fun item filed => ?_⟩
  · change (db.dirty.erase shard).contains s = false
    by_cases same : s = shard
    · simp [OrderedMap.contains, same]
    · rw [evicted] at gone
      simpa [OrderedMap.contains, OrderedMap.get_erase, same] using backed.away s (by simpa [same] using gone)
  · have other : shardOf item.name ≠ shard := by
      intro same
      simp [evicted, same] at here
    obtain ⟨vals, inFile, _⟩ := Item.inStored_iff.mp filed
    have play := placed.dir.used_of_filed inFile
    rw [fileOf_evictedDir used play, if_neg fun both => other both.1] at filed
    rw [evicted] at here
    obtain ⟨ns, held, within⟩ := Item.inMemory_iff.mp (backed.whole item (by simpa [other] using here) filed)
    exact Item.inMemory_iff.mpr ⟨ns, by simp [get, other, held], within⟩
  · obtain ⟨vals, inFile, _⟩ := Item.inStored_iff.mp filed
    have play := backed.placed.dir.used_of_filed inFile
    rw [fileOf_evictedDir used play]
    split_ifs with both
    · have here : db.evicted (shardOf item.name) = false := by
        cases gone : db.evicted (shardOf item.name) with
        | false => rfl
        | true =>
            have clean := backed.away _ gone
            rw [both.1] at clean
            exact both.2.symm.trans clean
      rw [← both.1, item.inStored_shardSnapshot]
      exact backed.whole item here filed
    · exact filed

theorem Backed.save {m m' : Machine} {now : DateTime} {order : List String} (backed : Backed names m)
    (stepped : m.step names now (.save order) = some m') :
    Backed names m' ∧ ∀ item : Item, item.inStored (fileOf names m.dir (shardOf item.name)) = true →
      item.inStored (fileOf names m'.dir (shardOf item.name)) = true := by
  obtain ⟨placed, same, _, rewritten⟩ := backed.placed.save stepped
  have here : ∀ s, m.db.dirty.contains s = true → m.db.evicted s = false := by
    intro s marked
    cases gone : m.db.evicted s with
    | false => rfl
    | true => exact marked.symm.trans (backed.away s gone)
  refine ⟨⟨placed, ?_, fun item resident filed => ?_⟩, fun item filed => ?_⟩
  · intro s _
    rw [same]
    simp [OrderedMap.contains]
  · rw [same] at resident ⊢
    obtain ⟨vals, inFile, _⟩ := Item.inStored_iff.mp filed
    have used := placed.dir.used_of_filed inFile
    by_cases marked : m.db.dirty.contains (shardOf item.name) = true
    · rw [item.inStored_rewritten rewritten used marked] at filed
      exact filed
    · rw [rewritten.fileOf_same used marked] at filed
      exact backed.whole item resident filed
  · obtain ⟨vals, inFile, _⟩ := Item.inStored_iff.mp filed
    have used := backed.placed.dir.used_of_filed inFile
    by_cases marked : m.db.dirty.contains (shardOf item.name) = true
    · rw [item.inStored_rewritten rewritten used marked]
      exact backed.whole item (here _ marked) filed
    · rw [rewritten.fileOf_same used marked]
      exact filed

end Backed

/-! ## Runs -/

/-- An act that takes nothing out: no deletion, no sweep, no restating of the tally. -/
def Act.Gentle (act : Act) : Prop := ∀ item, ¬ act.drops item

/-- An act that writes in shards in play only. -/
def Act.InPlay (names : ShardFiles) (act : Act) : Prop := ∀ item, act.adds item → names.used (shardOf item.name)

namespace Machine

/-- No act of the run makes a namespace in a shard whose file could not be read. -/
def Sighted (names : ShardFiles) (m : Machine) : List (Moment × Act) → Prop
  | [] => True
  | (t, act) :: rest => ¬ act.Blinded m.db (t.world names m.dir) ∧
      ∀ m', m.stepAmid names t act = some m' → Sighted names m' rest

variable {names : ShardFiles}

/-- A step of the store is a save, an eviction, or an act in memory. -/
theorem stepAmid_acts {m m' : Machine} {t : Moment} {act : Act} (stepped : m.stepAmid names t act = some m') :
    (∃ order, act = .save order ∧ m.step names t.now (.save order) = some m') ∨
      (∃ at_, act = .evictIdle at_ ∧ m.step names t.now (.evictIdle at_) = some m') ∨
      ∃ db, act.apply m.db (t.world names m.dir) = some db ∧ m' = ⟨db, m.dir⟩ := by
  have applies : (act.apply m.db (t.world names m.dir)).map (fun db => Machine.mk db m.dir) = some m' →
      ∃ db, act.apply m.db (t.world names m.dir) = some db ∧ m' = ⟨db, m.dir⟩ := by
    intro applied
    obtain ⟨db, ran, rfl⟩ := Option.map_eq_some_iff.mp applied
    exact ⟨db, ran, rfl⟩
  cases act with
  | save order => exact .inl ⟨order, rfl, stepped⟩
  | evictIdle at_ => exact .inr (.inl ⟨at_, rfl, stepped⟩)
  | request r => exact .inr (.inr (applies stepped))
  | setConsensus holders => exact .inr (.inr (applies stepped))
  | createNamespace name => exact .inr (.inr (applies stepped))
  | sweep at_ order => exact .inr (.inr (applies stepped))

theorem stepAmid_cases {m m' : Machine} {t : Moment} {act : Act} (stepped : m.stepAmid names t act = some m') :
    (∃ order, act = .save order ∧ m.step names t.now (.save order) = some m') ∨
      (∃ at_, act = .evictIdle at_ ∧ m.step names t.now (.evictIdle at_) = some m') ∨
      m'.dir = m.dir ∧ Moves (t.world names m.dir) act.adds act.drops (act.Blinded m.db (t.world names m.dir)) m.db m'.db := by
  refine (stepAmid_acts stepped).imp_right (Or.imp_right ?_)
  rintro ⟨db, ran, rfl⟩
  exact ⟨rfl, Act.apply_moves ran⟩

theorem stepAmid_backed {m m' : Machine} {t : Moment} {act : Act} (backed : Backed names m) (gentle : act.Gentle)
    (play : act.InPlay names) (sighted : ¬ act.Blinded m.db (t.world names m.dir))
    (stepped : m.stepAmid names t act = some m') :
    Backed names m' ∧ ∀ item : Item, item.inStored (fileOf names m.dir (shardOf item.name)) = true →
      item.inStored (fileOf names m'.dir (shardOf item.name)) = true := by
  rcases stepAmid_cases stepped with ⟨order, rfl, saved⟩ | ⟨at_, rfl, evicted⟩ | ⟨same, moves⟩
  · exact backed.save saved
  · refine @evictIdle_induction names (fun m' => Backed names m' ∧ ∀ item : Item,
      item.inStored (fileOf names m.dir (shardOf item.name)) = true →
        item.inStored (fileOf names m'.dir (shardOf item.name)) = true) t.now at_ ?_ m m' evicted ⟨backed, fun _ => id⟩
    rintro db dir s listed other ⟨backed', kept⟩
    obtain ⟨backed'', kept'⟩ := backed'.evict listed other
    exact ⟨backed'', fun item filed => kept' item (kept item filed)⟩
  · obtain ⟨db', dir'⟩ := m'
    obtain rfl : dir' = m.dir := same
    exact ⟨backed.moves (moves.mono (fun _ => id) (fun item dropped => gentle item dropped) sighted) play, fun _ => id⟩

theorem runAmid_backed {m m' : Machine} {acts : List (Moment × Act)} (backed : Backed names m)
    (gentle : ∀ e ∈ acts, e.2.Gentle) (play : ∀ e ∈ acts, e.2.InPlay names) (sighted : m.Sighted names acts)
    (ran : m.runAmid names acts = some m') :
    Backed names m' ∧ ∀ item : Item, item.inStored (fileOf names m.dir (shardOf item.name)) = true →
      item.inStored (fileOf names m'.dir (shardOf item.name)) = true := by
  induction acts generalizing m with
  | nil =>
      obtain rfl := Option.some.inj ran
      exact ⟨backed, fun _ => id⟩
  | cons e rest ih =>
      obtain ⟨mid, stepped, ranRest⟩ := Option.bind_eq_some_iff.mp ran
      obtain ⟨backed', kept⟩ := stepAmid_backed backed (gentle e List.mem_cons_self) (play e List.mem_cons_self)
        sighted.1 stepped
      obtain ⟨backed'', kept'⟩ := ih backed' (fun e' member => gentle e' (List.mem_cons_of_mem _ member))
        (fun e' member => play e' (List.mem_cons_of_mem _ member)) (sighted.2 mid stepped) ranRest
      exact ⟨backed'', fun item filed => kept' item (kept item filed)⟩

end Machine

/-! ## From a start -/

section Start

variable {names : ShardFiles} {dir : Dir} {policy : DatabasePolicy} {stores : StoragePolicy} {node : String}
  {now : DateTime} {db : Database}

/-- What a start finds under a name: what the shard's file holds, or else what a single-file
snapshot does. -/
theorem started_over (shards : ShardDir names dir) (started : restart dir policy stores node now = .ok db)
    (name : String) : db.namespaces.get name =
      (((fileOf names dir (shardOf name)).get name).or (dir.legacy.bind (·.namespaces.get name))).map fun vals =>
        .fromValues vals node := by
  obtain ⟨data, loaded, rfl⟩ := load_of_restart started
  obtain ⟨data', loaded', get⟩ := load_over shards.shard shards.own (load_versions loaded) (load_legacy loaded)
  obtain rfl : data = data' := Except.ok.inj (loaded.symm.trans loaded')
  rw [started_get, get]

/-- A start has everything in memory. -/
theorem started_resident (started : restart dir policy stores node now = .ok db) (s : String) : db.evicted s = false := by
  obtain ⟨data, _, rfl⟩ := load_of_restart started
  cases gone : (data.elim (Database.withNode policy stores node) (.fromSnapshotAs · policy stores node now)).evicted s with
  | false => rfl
  | true =>
      obtain ⟨meta_, found, out⟩ := evicted_iff.mp gone
      rw [started_shards] at found
      rw [((catalogue_spec now.timestamp _ ∅ (by simp)).1 s meta_ found).1] at out
      cases out

theorem start_placed (shards : ShardDir names dir) (started : restart dir policy stores node now = .ok db)
    (tiers : TierPolicy) : Placed names ⟨db.attachStore tiers, dir⟩ ∧
      (∀ s, db.evicted s = false) ∧ db.dirty = ∅ := by
  obtain ⟨data, loaded, rfl⟩ := load_of_restart started
  obtain ⟨data', loaded', get⟩ := load_over shards.shard shards.own (load_versions loaded) (load_legacy loaded)
  obtain rfl : data = data' := Except.ok.inj (loaded.symm.trans loaded')
  have inPlay : ∀ name vals, (data.elim ∅ (·.namespaces)).get name = some vals → names.used (shardOf name) := by
    intro name vals found
    rw [get] at found
    cases inFile : (fileOf names dir (shardOf name)).get name with
    | some vals' => exact shards.used_of_filed inFile
    | none =>
        rw [inFile, Option.none_or] at found
        obtain ⟨old, legacy, held⟩ := Option.bind_eq_some_iff.mp found
        exact shards.legacy old name vals legacy held
  have consistent := @started_consistent names dir (fun _ => True) data loaded shards.own inPlay
    (fun name never => (never trivial).elim) policy stores node now tiers
  have dirty : (data.elim (Database.withNode policy stores node) (.fromSnapshotAs · policy stores node now)).dirty = ∅ := by
    cases data <;> rfl
  have here := started_resident started
  exact ⟨⟨rfl, shards, load_versions loaded, load_legacy loaded,
    fun name present => ⟨consistent.used_of_present present, here _⟩, consistent.inPlay, consistent.marks, here _⟩,
    here, dirty⟩

theorem start_backed (shards : ShardDir names dir) (started : restart dir policy stores node now = .ok db)
    (tiers : TierPolicy) : Backed names ⟨db.attachStore tiers, dir⟩ := by
  obtain ⟨placed, here, dirty⟩ := start_placed shards started tiers
  refine ⟨placed, fun s gone => ?_, fun item _ filed => ?_⟩
  · change db.dirty.contains s = false
    rw [dirty]
    rfl
  · obtain ⟨vals, inFile, within⟩ := Item.inStored_iff.mp filed
    have held : db.namespaces.get item.name = some (.fromValues vals node) := by
      rw [started_over shards started, inFile]
      rfl
    refine Item.inMemory_iff.mpr ⟨_, held, ?_⟩
    rw [fromValues_values, Item.within_readBack]
    exact within

end Start

namespace Machine

/-- A page-in that fails destroys nothing: through every run of writes, merges, reads,
evictions and saves from a start, in which no namespace is made in a shard while its file
cannot be read, whatever was in a shard's file stays in it and is found by a later load. -/
theorem failed_pageIn_destroys_nothing (names : ShardFiles) (dir : Dir) (policy : DatabasePolicy)
    (stores : StoragePolicy) (node : String) (booted : DateTime) (tiers : TierPolicy) (shards : ShardDir names dir)
    {db : Database} (started : restart dir policy stores node booted = .ok db) {before after : List (Moment × Act)}
    {m m' : Machine} (ran : Machine.runAmid names ⟨db.attachStore tiers, dir⟩ before = some m)
    (ran' : m.runAmid names after = some m') (gentle : ∀ e ∈ before ++ after, e.2.Gentle)
    (play : ∀ e ∈ before ++ after, e.2.InPlay names)
    (sighted : Machine.Sighted names ⟨db.attachStore tiers, dir⟩ before) (sighted' : m.Sighted names after)
    (item : Item) (filed : item.inStored (fileOf names m.dir (shardOf item.name)) = true) :
    item.inStored (fileOf names m'.dir (shardOf item.name)) = true ∧
      ∃ data, load m'.dir = .ok (some data) ∧ item.inStored data.namespaces = true := by
  obtain ⟨backed, _⟩ := runAmid_backed (start_backed shards started tiers)
    (fun e member => gentle e (List.mem_append_left _ member)) (fun e member => play e (List.mem_append_left _ member))
    sighted ran
  obtain ⟨backed', kept⟩ := runAmid_backed backed (fun e member => gentle e (List.mem_append_right _ member))
    (fun e member => play e (List.mem_append_right _ member)) sighted' ran'
  have still := kept item filed
  obtain ⟨vals, inFile, within⟩ := Item.inStored_iff.mp still
  have placed := backed'.placed
  obtain ⟨data, loaded, get⟩ := load_over placed.dir.shard placed.dir.own placed.versions placed.old
  have found := get item.name
  rw [inFile, Option.some_or] at found
  cases data with
  | none => simp at found
  | some snap => exact ⟨still, snap, loaded, Item.inStored_iff.mpr ⟨vals, found, within⟩⟩

theorem inPlay_of_write {names : ShardFiles} {path : String} (used : names.used (shardOf path)) (origin value : String)
    (when : DateTime) (opts : WriteOpts) (tags : String) :
    (Act.request (.write origin path value when opts tags)).InPlay names := by
  rintro item (own | rfl | rfl)
  · rw [own]
    exact names.internal
  · exact used
  · exact used

/-- A server that keeps nothing in memory that is not in use, started with nothing. -/
def coldFresh : Machine :=
  ⟨(Database.withNode ⟨0, 0⟩ .storeEverything "local").attachStore ⟨.cold, ∅, 0⟩, ⟨none, ∅⟩⟩

def clear : Moment := ⟨.unixEpoch, fun _ => true⟩

/-- The file of shard `a` cannot be read just now. -/
def clouded : Moment := ⟨.unixEpoch, fun shard => shard != "a"⟩

/-- A value is written and saved, and its shard evicted. -/
def putAway : List (Moment × Act) :=
  [(clear, sightingOf "a/x"), (clear, .save ["_internal", "a"]), (clear, .evictIdle 0)]

/-- The value is asked for in vain, and later another one is written beside it. -/
def lookedFor : List (Moment × Act) :=
  [(clouded, .request (.read (.count "a/x" "v"))), (clear, sightingOf "a/y"), (clear, .save ["_internal", "a"])]

/-- After the eviction. -/
def shelved : Machine := (coldFresh.runAmid .sample putAway).getD coldFresh

theorem shelved_sighted : coldFresh.Sighted .sample putAway ∧ shelved.Sighted .sample lookedFor := by
  refine ⟨⟨by decide, fun m₁ first => ?_⟩, ⟨by decide, fun m₁ first => ?_⟩⟩
  · obtain rfl := Option.some.inj first
    exact ⟨id, fun m₂ _ => ⟨id, fun _ _ => trivial⟩⟩
  · obtain rfl := Option.some.inj first
    exact ⟨by decide, fun m₂ _ => ⟨id, fun _ _ => trivial⟩⟩

theorem failed_pageIn_destroys_nothing_lookedFor : ∃ m', coldFresh.runAmid .sample putAway = some shelved ∧
    shelved.runAmid .sample lookedFor = some m' ∧
    (Item.value "a/x" "v").inStored (fileOf .sample m'.dir (shardOf "a/x")) = true := by
  have used : ShardFiles.sample.used "a" := .inr rfl
  have sights : ∀ path, shardOf path = "a" → (sightingOf path).Gentle ∧ (sightingOf path).InPlay .sample :=
    fun path mine => ⟨fun _ => id, inPlay_of_write (mine ▸ used) _ _ _ _ _⟩
  have plain : ∀ e ∈ putAway ++ lookedFor, e.2.Gentle ∧ e.2.InPlay .sample := by
    intro e member
    simp only [putAway, lookedFor, List.cons_append, List.nil_append, List.mem_cons, List.not_mem_nil, or_false] at member
    rcases member with rfl | rfl | rfl | rfl | rfl | rfl
    · exact sights "a/x" (by decide)
    · exact ⟨fun _ => id, fun _ => False.elim⟩
    · exact ⟨fun _ => id, fun _ => False.elim⟩
    · exact ⟨fun _ => id, fun _ => False.elim⟩
    · exact sights "a/y" (by decide)
    · exact ⟨fun _ => id, fun _ => False.elim⟩
  refine ⟨_, rfl, rfl, ?_⟩
  refine (@failed_pageIn_destroys_nothing .sample ⟨none, ∅⟩ ⟨0, 0⟩ .storeEverything "local" .unixEpoch
    ⟨.cold, ∅, 0⟩ ⟨by simp [OrderedMap.contains], fun _ _ _ _ _ found => by simp at found, by simp⟩ _ rfl putAway lookedFor
    shelved _ rfl rfl (fun e member => (plain e member).1) (fun e member => (plain e member).2) shelved_sighted.1
    shelved_sighted.2 (.value "a/x" "v") (by decide)).1

/-- The same, but the other value is written while the file cannot be read. -/
def writtenBlind : List (Moment × Act) := [(clouded, sightingOf "a/y"), (clear, .save ["_internal", "a"])]

/-- The save that follows writes the shard out without what was in it. -/
theorem saved_value_destroyed : ∃ m m' data, coldFresh.runAmid .sample putAway = some m ∧
    m.runAmid .sample writtenBlind = some m' ∧
    (Item.value "a/x" "v").inStored (fileOf .sample m.dir (shardOf "a/x")) = true ∧
    (Item.value "a/x" "v").inStored (fileOf .sample m'.dir (shardOf "a/x")) = false ∧
    load m'.dir = .ok (some data) ∧ (Item.value "a/x" "v").inStored data.namespaces = false :=
  ⟨_, _, _, rfl, rfl, by decide, by decide, rfl, by decide⟩

end Machine

end SightingDB
