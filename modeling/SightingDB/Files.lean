import SightingDB.Requests

/-!
Writing shards to their files: what that says about memory, and what dropping a shard or
reading the whole directory back then gives.
-/
namespace SightingDB

/-! ## Values in files -/

@[simp] theorem Attribute.stored_stored (a : Attribute) : a.stored.stored = a.stored := by
  simp [Attribute.stored]

theorem onDisk_readBack (vals : Values) (node : String) : readBack node (onDisk vals) = onDisk vals := by
  refine OrderedMap.ext_get fun k => ?_
  simp only [readBack, onDisk, OrderedMap.get_mapValues]
  cases vals.get k <;> simp

@[simp] theorem onDisk_onDisk (vals : Values) : onDisk (onDisk vals) = onDisk vals := by
  refine OrderedMap.ext_get fun k => ?_
  simp only [onDisk, OrderedMap.get_mapValues]
  cases vals.get k <;> simp

theorem get_shardSnapshot (db : Database) (shard name : String) :
    (shardSnapshot db shard).namespaces.get name =
      if shardOf name = shard then (db.namespaces.get name).map fun ns => onDisk ns.values else none := by
  simp only [shardSnapshot, OrderedMap.get_mapValues, OrderedMap.get_filter]
  by_cases mine : shardOf name = shard
  · cases db.namespaces.get name <;> simp [mine, Option.filter, onDisk]
  · cases db.namespaces.get name <;> simp [mine, Option.filter]

/-! ## Rewriting files -/

/-- The files of some shards replaced by what memory holds, or removed where it holds
nothing. -/
structure Rewritten (names : ShardFiles) (db : Database) (shards : String → Prop) (dir dir' : Dir) : Prop where
  same : ∀ s, names.used s → ¬ shards s → dir'.files.get (names.file s) = dir.files.get (names.file s)
  new : ∀ s, names.used s → shards s → dir'.files.get (names.file s) = some (shardSnapshot db s) ∨
    (dir'.files.get (names.file s) = none ∧ ∀ name, shardOf name = s → db.namespaces.get name = none)

section

variable {names : ShardFiles} {dir dir' : Dir} {db : Database} {exempt shards : String → Prop}

theorem Rewritten.fileOf_same (rewritten : Rewritten names db shards dir dir') {s : String}
    (used : names.used s) (kept : ¬ shards s) : fileOf names dir' s = fileOf names dir s := by
  simp only [fileOf, rewritten.same s used kept]

theorem Rewritten.fileOf_new (rewritten : Rewritten names db shards dir dir') {s : String}
    (used : names.used s) (taken : shards s) {name : String} (mine : shardOf name = s) :
    (fileOf names dir' s).get name = (db.namespaces.get name).map fun ns => onDisk ns.values := by
  rcases rewritten.new s used taken with snapshot | ⟨nothing, absent⟩
  · simp [fileOf, snapshot, get_shardSnapshot, mine]
  · simp [fileOf, nothing, absent name mine]

/-- Rewriting the files of shards in memory changes nothing that is held, and their marks
can go. -/
theorem Consistent.rewritten (consistent : Consistent names dir exempt db)
    (rewritten : Rewritten names db shards dir dir') (here : ∀ s, shards s → db.evicted s = false)
    (dirty : Names) (fewer : ∀ s, dirty.contains s = true → db.dirty.contains s = true)
    (rest : ∀ s, db.dirty.contains s = true → dirty.contains s = true ∨ shards s) :
    Consistent names dir' exempt { db with dirty := dirty } ∧
      held names dir' { db with dirty := dirty } = held names dir db := by
  have away : ∀ s, db.evicted s = true → ¬ shards s := by
    intro s evicted taken
    rw [here s taken] at evicted
    cases evicted
  refine ⟨⟨consistent.store, ?_, ?_, ?_, consistent.listed, consistent.known, consistent.hot,
    consistent.inPlay, fun s marked => consistent.marks s (fewer s marked)⟩, ?_⟩
  · intro s snap used found
    by_cases taken : shards s
    · rcases rewritten.new s used taken with snapshot | ⟨nothing, _⟩
      · rw [snapshot] at found
        obtain rfl := Option.some.inj found
        refine ⟨rfl, fun name vals inFile => ?_⟩
        rw [get_shardSnapshot] at inFile
        split_ifs at inFile with mine
        exact mine
      · rw [nothing] at found
        cases found
    · rw [rewritten.same s used taken] at found
      exact consistent.own s snap used found
  · intro s used notExempt clean resident name mine
    by_cases taken : shards s
    · rw [rewritten.fileOf_new used taken mine, Option.map_map]
      congr 1
      funext ns
      simp [onDisk_readBack]
    · have before : db.dirty.contains s = false := by
        cases marked : db.dirty.contains s with
        | false => rfl
        | true =>
            rcases rest s marked with still | taken'
            · exact still.symm.trans clean
            · exact absurd taken' taken
      rw [rewritten.fileOf_same used taken]
      exact consistent.clean s used notExempt before resident name mine
  · intro s meta_ found gone
    obtain ⟨clean, absent, catalogue⟩ := consistent.gone s meta_ found gone
    refine ⟨?_, absent, ?_⟩
    · cases marked : dirty.contains s with
      | false => rfl
      | true => exact (fewer s marked).symm.trans clean
    · rw [rewritten.fileOf_same (consistent.inPlay s meta_ found)
        (away s (evicted_iff.mpr ⟨meta_, found, gone⟩))]
      exact catalogue
  · funext name
    simp only [held]
    cases db.namespaces.get name with
    | some ns => rfl
    | none =>
        cases evicted : db.evicted (shardOf name) with
        | false =>
            have still : Database.evicted { db with dirty := dirty } (shardOf name) = false := evicted
            simp [still]
        | true =>
            have still : Database.evicted { db with dirty := dirty } (shardOf name) = true := evicted
            obtain ⟨meta_, found, _⟩ := evicted_iff.mp evicted
            simp [still, rewritten.fileOf_same (consistent.inPlay _ meta_ found) (away _ evicted)]

theorem writeShard_sound (db : Database) (names : ShardFiles) (dir target : Dir) (now : DateTime) (shard : String) :
    writeShard db (.sound names dir now) target shard =
      some { target with files := target.files.insert (names.file shard) (shardSnapshot db shard) } := rfl

theorem Rewritten.one {names : ShardFiles} {shard : String} (used : names.used shard) (dir : Dir)
    (db : Database) :
    Rewritten names db (· = shard) dir
      { dir with files := dir.files.insert (names.file shard) (shardSnapshot db shard) } where
  same s used' other := by
    have apart : names.file s ≠ names.file shard := fun same => other (names.apart s shard used' used same)
    rw [OrderedMap.get_insert, if_neg apart]
  new s _ same := by
    rw [same]
    exact .inl (OrderedMap.get_insert_self _ _ _)

end

/-! ## Dropping shards -/

section Dropping

variable {names : ShardFiles} {dir : Dir} {db : Database} {exempt : String → Prop}

/-- The same values, as far as files can tell. -/
def Alike (c c' : Contents) : Prop := ∀ name, (c name).map onDisk = (c' name).map onDisk

theorem get_dropShard (db : Database) (shard name : String) :
    (db.dropShard shard).namespaces.get name =
      if shardOf name = shard then none else db.namespaces.get name := by
  simp only [Database.dropShard, OrderedMap.get_filter]
  by_cases mine : shardOf name = shard <;> cases db.namespaces.get name <;> simp [mine, Option.filter]

theorem dropShard_spec (consistent : Consistent names dir exempt db) {shard : String} {meta_ : ShardMeta}
    (found : db.shards.get shard = some meta_) (resident : meta_.resident = true)
    (clean : db.dirty.contains shard = false) (notExempt : ¬ exempt shard) (other : shard ≠ internalShard) :
    Consistent names dir exempt (db.dropShard shard) ∧
      ∀ name, held names dir (db.dropShard shard) name =
        if shardOf name = shard then ((fileOf names dir shard).get name).map (readBack db.node)
        else held names dir db name := by
  have here : db.evicted shard = false := not_evicted_of_resident found resident
  have used := consistent.inPlay shard meta_ found
  have evicted : ∀ k, (db.dropShard shard).evicted k = (decide (k = shard) || db.evicted k) := by
    intro k
    by_cases same : k = shard
    · simp [Database.evicted, Database.dropShard, found, same]
    · simp [Database.evicted, Database.dropShard, found, OrderedMap.get_insert, same]
  have shards : ∀ k, (db.dropShard shard).shards.get k =
      if k = shard then some { meta_ with resident := false } else db.shards.get k := by
    intro k
    simp [Database.dropShard, found, OrderedMap.get_insert]
  have asFile := consistent.clean shard used notExempt clean here
  refine ⟨@Consistent.changes names dir db exempt _ _ shard { meta_ with resident := false } consistent
    ⟨rfl, rfl, rfl, used, by rw [shards, if_pos rfl], ?_, ?_, ?_, ?_, ?_, fun same => absurd same other⟩ fun _ _ => id, ?_⟩
  · intro k apart
    rw [shards, if_neg apart]
  · intro name apart
    rw [get_dropShard, if_neg apart]
  · intro resident'
    cases resident'
  · refine fun _ => ⟨clean, fun name mine => by rw [get_dropShard, if_pos mine], fun name => ?_⟩
    have listed := consistent.listed shard meta_ found resident name
    rw [listed]
    by_cases mine : shardOf name = shard
    · have match_ := congrArg Option.isSome (asFile name mine)
      simpa [OrderedMap.contains, mine] using match_
    · cases inFile : (fileOf names dir shard).get name with
      | none => simp [mine]
      | some vals => exact absurd (fileOf_own consistent used inFile) mine
  · intro resident'
    cases resident'
  · intro name
    simp only [held, get_dropShard, evicted]
    by_cases mine : shardOf name = shard
    · simp [mine, Database.dropShard]
    · simp [mine, Database.dropShard]

theorem dropShard_alike (consistent : Consistent names dir exempt db) {shard : String} {meta_ : ShardMeta}
    (found : db.shards.get shard = some meta_) (resident : meta_.resident = true)
    (clean : db.dirty.contains shard = false) (notExempt : ¬ exempt shard) (other : shard ≠ internalShard) :
    Alike (held names dir (db.dropShard shard)) (held names dir db) := by
  have here : db.evicted shard = false := not_evicted_of_resident found resident
  intro name
  rw [(dropShard_spec consistent found resident clean notExempt other).2]
  split_ifs with mine
  · have asFile := consistent.clean shard (consistent.inPlay shard meta_ found) notExempt clean here name mine
    rw [Option.map_map]
    refine Eq.trans ?_ (asFile.symm.trans ?_)
    · rfl
    · simp only [held]
      cases db.namespaces.get name with
      | some ns => rfl
      | none => rw [mine, here]; rfl
  · rfl

/-- A directory of the files of shards in play and nothing else. -/
structure Tidy (names : ShardFiles) (dir : Dir) : Prop where
  legacy : dir.legacy = none
  shard : ∀ f, dir.files.contains f = true → ∃ s, names.used s ∧ f = names.file s

/-- Times to the second, which is all a file can say. -/
def Stored.Whole (stored : Stored) : Prop :=
  ∀ name vals v a, stored.get name = some vals → vals.get v = some a →
    a.firstSeen.truncate = a.firstSeen ∧ a.lastSeen.truncate = a.lastSeen

structure Whole (dir : Dir) : Prop where
  legacy : ∀ snap, dir.legacy = some snap → snap.namespaces.Whole
  files : ∀ f snap, dir.files.get f = some snap → snap.namespaces.Whole

/-- A value first seen in the second of the epoch was seen at the epoch itself. -/
def Attribute.Timely (a : Attribute) : Prop :=
  a.firstSeen.truncate = .unixEpoch → a.firstSeen = .unixEpoch

def Contents.Timely (c : Contents) : Prop :=
  ∀ name vals v a, c name = some vals → vals.get v = some a → a.Timely

/-- From `dir` to `dir'` only files of shards in play appeared, and the single-file snapshot
is as it was. -/
structure Spreads (names : ShardFiles) (dir dir' : Dir) : Prop where
  legacy : dir'.legacy = dir.legacy
  shard : ∀ f, dir'.files.contains f = true → dir.files.contains f = true ∨ ∃ s, names.used s ∧ f = names.file s

theorem Spreads.refl (dir : Dir) : Spreads names dir dir := ⟨rfl, fun _ => .inl⟩

theorem Spreads.trans {dir' dir'' : Dir} (first : Spreads names dir dir') (second : Spreads names dir' dir'') :
    Spreads names dir dir'' where
  legacy := second.legacy.trans first.legacy
  shard f present := (second.shard f present).elim (first.shard f) .inr

theorem Spreads.insert (dir : Dir) {shard : String} (used : names.used shard) (snap : Snapshot) :
    Spreads names dir { dir with files := dir.files.insert (names.file shard) snap } where
  legacy := rfl
  shard f present := by
    simp only [OrderedMap.contains, OrderedMap.get_insert] at present
    split_ifs at present with same
    · exact .inr ⟨shard, used, same⟩
    · exact .inl present

theorem Spreads.erase (dir : Dir) (f : String) : Spreads names dir { dir with files := dir.files.erase f } where
  legacy := rfl
  shard k present := by
    simp only [OrderedMap.contains, OrderedMap.get_erase] at present
    split_ifs at present with same
    · simp at present
    · exact .inl present

theorem Spreads.tidy {dir' : Dir} (spreads : Spreads names dir dir') (tidy : Tidy names dir) : Tidy names dir' where
  legacy := spreads.legacy.trans tidy.legacy
  shard f present := (spreads.shard f present).elim (tidy.shard f) id

theorem shardSnapshot_whole (db : Database) (shard : String) : (shardSnapshot db shard).namespaces.Whole := by
  intro name vals v a inFile entry
  rw [get_shardSnapshot] at inFile
  split_ifs at inFile
  obtain ⟨ns, _, rfl⟩ := Option.map_eq_some_iff.mp inFile
  rw [onDisk, OrderedMap.get_mapValues] at entry
  obtain ⟨held, _, rfl⟩ := Option.map_eq_some_iff.mp entry
  simp [Attribute.stored]

theorem Whole.insert (whole : Whole dir) (db : Database) (f shard : String) :
    Whole { dir with files := dir.files.insert f (shardSnapshot db shard) } where
  legacy := whole.legacy
  files k snap found := by
    simp only [OrderedMap.get_insert] at found
    split_ifs at found
    · obtain rfl := Option.some.inj found
      exact shardSnapshot_whole db shard
    · exact whole.files k snap found

theorem Attribute.migrate_firstSeen (a : Attribute) (node : String) :
    (a.migrate node).firstSeen = a.firstSeen := by
  simp only [Attribute.migrate]
  split_ifs <;> rfl

/-- What is read back is timely. -/
theorem Stored.Whole.timely {stored : Stored} (whole : stored.Whole) {name : String} {vals : Values}
    (found : stored.get name = some vals) {node v : String} {a : Attribute}
    (entry : (readBack node vals).get v = some a) : a.Timely := by
  rw [readBack, OrderedMap.get_mapValues] at entry
  obtain ⟨written, inVals, rfl⟩ := Option.map_eq_some_iff.mp entry
  intro epoch
  rw [Attribute.migrate_firstSeen] at epoch ⊢
  rw [← (whole name vals v written found inVals).1, epoch]

theorem Whole.fileOf (whole : Whole dir) (shard : String) : Stored.Whole (fileOf names dir shard) := by
  simp only [SightingDB.fileOf]
  cases found : dir.files.get (names.file shard) with
  | none => exact fun name vals v a absent => by simp at absent
  | some snap => exact whole.files _ snap found

/-- What eviction may do: move shards to their files. -/
structure Evicts (names : ShardFiles) (exempt : String → Prop) (db : Database) (dir : Dir) (db' : Database)
    (dir' : Dir) : Prop where
  consistent : Consistent names dir' exempt db'
  node : db'.node = db.node
  policy : db'.policy = db.policy
  alike : Alike (held names dir' db') (held names dir db)
  tidy : Tidy names dir → Tidy names dir'
  whole : Whole dir → Whole dir'
  timely : Whole dir → Contents.Timely (held names dir db) → Contents.Timely (held names dir' db')

theorem Evicts.refl (consistent : Consistent names dir exempt db) : Evicts names exempt db dir db dir :=
  ⟨consistent, rfl, rfl, fun _ => rfl, id, id, fun _ => id⟩

theorem Evicts.trans {db' db'' : Database} {dir' dir'' : Dir} (first : Evicts names exempt db dir db' dir')
    (second : Evicts names exempt db' dir' db'' dir'') : Evicts names exempt db dir db'' dir'' :=
  ⟨second.consistent, second.node.trans first.node, second.policy.trans first.policy,
    fun name => (second.alike name).trans (first.alike name), fun tidy => second.tidy (first.tidy tidy),
    fun whole => second.whole (first.whole whole),
    fun whole timely => second.timely (first.whole whole) (first.timely whole timely)⟩

theorem Evicts.drop (consistent : Consistent names dir exempt db) {shard : String} {meta_ : ShardMeta}
    (found : db.shards.get shard = some meta_) (resident : meta_.resident = true)
    (clean : db.dirty.contains shard = false) (notExempt : ¬ exempt shard) (other : shard ≠ internalShard) :
    Evicts names exempt db dir (db.dropShard shard) dir where
  consistent := (dropShard_spec consistent found resident clean notExempt other).1
  node := rfl
  policy := rfl
  alike := dropShard_alike consistent found resident clean notExempt other
  tidy := id
  whole := id
  timely whole timely name vals v a held entry := by
    rw [(dropShard_spec consistent found resident clean notExempt other).2] at held
    split_ifs at held
    · obtain ⟨stored, inFile, rfl⟩ := Option.map_eq_some_iff.mp held
      exact (whole.fileOf shard).timely inFile entry
    · exact timely name vals v a held entry

/-- A shard written to its file and its mark taken off. -/
theorem Evicts.write (consistent : Consistent names dir exempt db) {shard : String}
    (used : names.used shard) (here : db.evicted shard = false) :
    Evicts names exempt db dir { db with dirty := db.dirty.erase shard }
      { dir with files := dir.files.insert (names.file shard) (shardSnapshot db shard) } := by
  obtain ⟨written, same⟩ := consistent.rewritten (Rewritten.one used dir db)
    (fun s same => same ▸ here) (db.dirty.erase shard)
    (fun s marked => by
      simp only [OrderedMap.contains, OrderedMap.get_erase] at marked ⊢
      split_ifs at marked
      · simp at marked
      · exact marked)
    (fun s marked => by
      by_cases isShard : s = shard
      · exact .inr isShard
      · exact .inl (by simpa [OrderedMap.contains, OrderedMap.get_erase, isShard] using marked))
  refine ⟨written, rfl, rfl, ?_, fun tidy => (Spreads.insert dir used _).tidy tidy, fun whole => whole.insert db _ shard, ?_⟩
  · rw [same]
    exact fun _ => rfl
  · rw [same]
    exact fun _ => id

/-- Whether a shard may be evicted: in memory, and not the internal one. -/
def Ready (exempt : String → Prop) (db : Database) (shard : String) : Prop :=
  (∃ meta_, db.shards.get shard = some meta_ ∧ meta_.resident = true) ∧ ¬ exempt shard ∧ shard ≠ internalShard

theorem evictShard_evicts (consistent : Consistent names dir exempt db) {shard : String}
    (ready : Ready exempt db shard) (start : Dir) (now : DateTime) (report : EvictReport) :
    Evicts names exempt db dir (Database.evictShard (.sound names start now) (db, dir, report) shard).1
        (Database.evictShard (.sound names start now) (db, dir, report) shard).2.1 ∧
      ∀ k, k ≠ shard → (Database.evictShard (.sound names start now) (db, dir, report) shard).1.shards.get k =
        db.shards.get k := by
  obtain ⟨⟨meta_, found, resident⟩, notExempt, other⟩ := ready
  have here := not_evicted_of_resident found resident
  have others : ∀ (db : Database) k, k ≠ shard → (db.dropShard shard).shards.get k = db.shards.get k := by
    intro db k apart
    simp only [Database.dropShard]
    split
    · rfl
    · rw [OrderedMap.get_insert, if_neg apart]
  simp only [Database.evictShard]
  by_cases dirty : db.dirty.contains shard = true
  · simp only [dirty, if_true, writeShard_sound]
    have written := Evicts.write consistent (consistent.inPlay shard meta_ found) here
    exact ⟨written.trans (Evicts.drop written.consistent found resident
      (by simp [OrderedMap.contains]) notExempt other), others _⟩
  · have clean : db.dirty.contains shard = false := by simpa using dirty
    have same : db.dirty.erase shard = db.dirty :=
      OrderedMap.erase_absent _ (OrderedMap.not_contains_iff.mp clean)
    simp only [clean, Bool.false_eq_true, if_false, same]
    exact ⟨Evicts.drop consistent found resident clean notExempt other, others _⟩

theorem evictAll_evicts {shards : List String} (apart : shards.Nodup) (start : Dir) (now : DateTime)
    (acc : Database × Dir × EvictReport) (consistent : Consistent names acc.2.1 exempt acc.1)
    (ready : ∀ s ∈ shards, Ready exempt acc.1 s) :
    Evicts names exempt acc.1 acc.2.1 (shards.foldl (Database.evictShard (.sound names start now)) acc).1
      (shards.foldl (Database.evictShard (.sound names start now)) acc).2.1 := by
  induction shards generalizing acc with
  | nil => exact .refl consistent
  | cons shard rest ih =>
      obtain ⟨evicts, others⟩ :=
        evictShard_evicts consistent (ready shard List.mem_cons_self) start now acc.2.2
      refine evicts.trans (ih (List.nodup_cons.mp apart).2 _ evicts.consistent fun s member => ?_)
      obtain ⟨inMemory, rest⟩ := ready s (List.mem_cons_of_mem _ member)
      refine ⟨?_, rest⟩
      rw [others s fun same => (List.nodup_cons.mp apart).1 (same ▸ member)]
      exact inMemory

/-- Idle shards go to their files, whatever the tiers say. -/
theorem evictIdle_evicts (consistent : Consistent names dir exempt db)
    (internal : ∀ s, exempt s → s = internalShard) (clock : DateTime) (now : Int) :
    Evicts names exempt db dir (db.evictIdle (.sound names dir clock) now).1
      (db.evictIdle (.sound names dir clock) now).2.1 := by
  simp only [Database.evictIdle, consistent.store, Bool.not_true, Bool.false_eq_true, if_false]
  refine evictAll_evicts (OrderedMap.keys_nodup _) dir clock (db, dir, ⟨0, 0, 0⟩) consistent fun s member => ?_
  obtain ⟨meta_, kept⟩ := OrderedMap.mem_keys.mp member
  rw [OrderedMap.get_filter, Option.filter_eq_some_iff] at kept
  obtain ⟨found, idle⟩ := kept
  simp only [TierPolicy.isIdle, Bool.and_eq_true] at idle
  have other : s ≠ internalShard := by
    rintro rfl
    simp at idle
  exact ⟨⟨meta_, found, idle.1⟩, fun free => other (internal s free), other⟩

end Dropping

end SightingDB
