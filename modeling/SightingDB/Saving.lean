import SightingDB.Files

/-!
A save and a restart. The files a save leaves behind, read back as a whole, give what was
held when it was made.
-/
namespace SightingDB

/-- What a server does with its directory when it starts. -/
def restart (dir : Dir) (policy : DatabasePolicy) (stores : StoragePolicy) (node : String) (now : DateTime) :
    Except LoadError Database := do
  match ← load dir with
  | some data => pure (.fromSnapshotAs data policy stores node now)
  | none => pure (.withNode policy stores node)

/-- Each shard's file holds namespaces of that shard only. -/
def OwnFiles (names : ShardFiles) (dir : Dir) : Prop :=
  ∀ shard snap name vals, names.used shard → dir.files.get (names.file shard) = some snap →
    snap.namespaces.get name = some vals → shardOf name = shard

theorem Consistent.ownFiles {names : ShardFiles} {dir : Dir} {exempt : String → Prop} {db : Database}
    (consistent : Consistent names dir exempt db) : OwnFiles names dir :=
  fun shard snap name vals used found => (consistent.own shard snap used found).2 name vals

/-- What a tidy directory holds is in shards in play. -/
theorem fileOf_used {names : ShardFiles} {dir : Dir} (tidy : Tidy names dir) (own : OwnFiles names dir)
    {name : String} {vals : Values} (found : (fileOf names dir (shardOf name)).get name = some vals) :
    names.used (shardOf name) := by
  cases file : dir.files.get (names.file (shardOf name)) with
  | none => simp [fileOf, file] at found
  | some snap =>
      obtain ⟨s, used, same⟩ := tidy.shard _ (OrderedMap.contains_iff.mpr ⟨snap, file⟩)
      have mine := own s snap name vals used (same ▸ file) (by simpa [fileOf, file] using found)
      rw [mine]
      exact used

/-! ## Saving -/

section Saving

theorem contains_presentShards (db : Database) (shard : String) :
    (presentShards db).contains shard = true ↔ ∃ name, db.namespaces.contains name = true ∧ shardOf name = shard := by
  have fold : ∀ (l : List String) (acc : Names),
      (l.foldl (fun shards name => shards.insert (shardOf name) ()) acc).contains shard = true ↔
        acc.contains shard = true ∨ ∃ name ∈ l, shardOf name = shard := by
    intro l
    induction l with
    | nil => simp
    | cons name rest ih =>
        intro acc
        rw [List.foldl_cons, ih]
        by_cases same : shard = shardOf name
        · simp [OrderedMap.contains, same]
        · simp [OrderedMap.contains, OrderedMap.get_insert, same, Ne.symm same]
  rw [presentShards, fold]
  simp [OrderedMap.contains_iff, OrderedMap.mem_keys]

/-- The walk writes the shards among `order` that are dirty. -/
theorem saveShards_sound (names : ShardFiles) (db : Database) (start : Dir) (now : DateTime) (dirty : Names) {order : List String}
    (used : ∀ s ∈ order, names.used s) (dir : Dir) (report : SaveReport) :
    ∃ dir' report', saveShards (.sound names start now) false dirty order (db, dir, report) =
        (db, dir', some report') ∧ Spreads names dir dir' ∧
      ∀ s, names.used s → dir'.files.get (names.file s) =
        if s ∈ order ∧ dirty.contains s = true then some (shardSnapshot db s)
        else dir.files.get (names.file s) := by
  induction order generalizing dir report with
  | nil => exact ⟨dir, report, rfl, .refl dir, fun s _ => by simp⟩
  | cons shard rest ih =>
      have mine := used shard List.mem_cons_self
      have others : ∀ s ∈ rest, names.used s := fun s member => used s (List.mem_cons_of_mem _ member)
      by_cases marked : dirty.contains shard = true
      · obtain ⟨dir', report', saved, spreads, files⟩ :=
          ih others { dir with files := dir.files.insert (names.file shard) (shardSnapshot db shard) }
            { report with shardsWritten := report.shardsWritten + 1 }
        refine ⟨dir', report', ?_, (Spreads.insert dir mine _).trans spreads, fun s play => ?_⟩
        · simpa [saveShards, marked, writeShard_sound] using saved
        · rw [files s play]
          by_cases same : s = shard
          · subst same
            simp [marked]
          · have apart : names.file s ≠ names.file shard :=
              fun equal => same (names.apart s shard play mine equal)
            simp [OrderedMap.get_insert, apart, same]
      · obtain ⟨dir', report', saved, spreads, files⟩ :=
          ih others dir { report with shardsSkipped := report.shardsSkipped + 1 }
        refine ⟨dir', report', ?_, spreads, fun s play => ?_⟩
        · simpa [saveShards, marked] using saved
        · rw [files s play]
          by_cases same : s = shard
          · subst same
            simp [marked]
          · simp [same]

theorem removeStale_sound (names : ShardFiles) (start : Dir) (now : DateTime) (present : Names) {shards : List String}
    (used : ∀ s ∈ shards, names.used s) (dir : Dir) :
    Spreads names dir (shards.foldl (removeStale (.sound names start now) present) dir) ∧
      ∀ s, names.used s → (shards.foldl (removeStale (.sound names start now) present) dir).files.get (names.file s) =
        if s ∈ shards ∧ present.contains s = false then none else dir.files.get (names.file s) := by
  induction shards generalizing dir with
  | nil => exact ⟨.refl dir, fun s _ => by simp⟩
  | cons shard rest ih =>
      have mine := used shard List.mem_cons_self
      obtain ⟨spreads, files⟩ := ih (fun s member => used s (List.mem_cons_of_mem _ member)) (removeStale (.sound names start now) present dir shard)
      cases there : present.contains shard with
      | true =>
          have kept : removeStale (.sound names start now) present dir shard = dir := by
            simp [removeStale, there]
          rw [kept] at spreads files
          rw [List.foldl_cons, kept]
          refine ⟨spreads, fun s play => ?_⟩
          rw [files s play]
          by_cases same : s = shard
          · subst same
            simp [there]
          · simp [same]
      | false =>
          have removed : removeStale (.sound names start now) present dir shard =
              { dir with files := dir.files.erase (names.file shard) } := by
            simp [removeStale, there, World.sound]
          rw [removed] at spreads files
          rw [List.foldl_cons, removed]
          refine ⟨(Spreads.erase dir _).trans spreads, fun s play => ?_⟩
          rw [files s play]
          by_cases same : s = shard
          · subst same
            simp [there]
          · have apart : names.file s ≠ names.file shard :=
              fun equal => same (names.apart s shard play mine equal)
            simp [OrderedMap.get_erase, apart, same]

/-- A save in which every file operation succeeds rewrites the dirty shards. -/
theorem save_rewrites {names : ShardFiles} {dir : Dir} {db : Database}
    (memory : ∀ name, db.namespaces.contains name = true → names.used (shardOf name))
    (marks : ∀ s, db.dirty.contains s = true → names.used s) (now : DateTime) {order : List String}
    (walk : order.Perm (presentShards db).keys) :
    ∃ dir' report, save db (.sound names dir now) false order = ({ db with dirty := ∅ }, dir', some report) ∧
      Spreads names dir dir' ∧ Rewritten names db (fun s => db.dirty.contains s = true) dir dir' := by
  have mem : ∀ s, s ∈ order ↔ (presentShards db).contains s = true := by
    intro s
    rw [walk.mem_iff, OrderedMap.contains_iff, OrderedMap.mem_keys]
  have marked : ∀ s, s ∈ db.dirty.keys ↔ db.dirty.contains s = true := by
    intro s
    rw [OrderedMap.contains_iff, OrderedMap.mem_keys]
  have play : ∀ s ∈ order, names.used s := by
    intro s member
    obtain ⟨name, present, rfl⟩ := (contains_presentShards db s).mp ((mem s).mp member)
    exact memory name present
  obtain ⟨dir₁, report, saved, spreads₁, files₁⟩ :=
    saveShards_sound names { db with dirty := ∅ } dir now db.dirty play dir ⟨0, 0⟩
  obtain ⟨spreads₂, files₂⟩ := removeStale_sound names dir now (presentShards db)
    (fun s member => marks s ((marked s).mp member)) dir₁
  refine ⟨_, report, ?_, spreads₁.trans spreads₂, ?_, ?_⟩
  · simp only [save]
    have opened : (World.sound names dir now).dir = dir := rfl
    rw [opened, saved]
  · intro s play clean
    rw [files₂ s play, files₁ s play, if_neg (by simp [marked, clean]), if_neg (by simp [clean])]
  · intro s play dirty
    rw [files₂ s play, files₁ s play]
    cases there : (presentShards db).contains s with
    | true =>
        left
        rw [if_neg (by simp), if_pos ⟨(mem s).mpr there, dirty⟩]
        rfl
    | false =>
        right
        rw [if_pos ⟨(marked s).mpr dirty, rfl⟩]
        refine ⟨rfl, fun name mine => ?_⟩
        cases held : db.namespaces.get name with
        | none => rfl
        | some ns =>
            have present := (contains_presentShards db s).mpr ⟨name, OrderedMap.contains_iff.mpr ⟨ns, held⟩, mine⟩
            rw [there] at present
            cases present

/-- A dirty shard is in memory. -/
theorem Consistent.here_of_dirty {names : ShardFiles} {dir : Dir} {exempt : String → Prop} {db : Database}
    (consistent : Consistent names dir exempt db) {shard : String} (marked : db.dirty.contains shard = true) :
    db.evicted shard = false := by
  cases away : db.evicted shard with
  | false => rfl
  | true =>
      obtain ⟨meta_, found, gone⟩ := evicted_iff.mp away
      rw [(consistent.gone shard meta_ found gone).1] at marked
      cases marked

/-- After a save nothing is marked, and what is held is as before. -/
theorem Consistent.saved {names : ShardFiles} {dir dir' : Dir} {exempt : String → Prop} {db : Database}
    (consistent : Consistent names dir exempt db)
    (rewritten : Rewritten names db (fun s => db.dirty.contains s = true) dir dir') :
    Consistent names dir' exempt { db with dirty := ∅ } ∧
      held names dir' { db with dirty := ∅ } = held names dir db := by
  refine consistent.rewritten rewritten (fun s marked => consistent.here_of_dirty marked) ∅ (fun s never => ?_)
    fun s marked => .inr marked
  simp [OrderedMap.contains] at never

/-- Once nothing is marked, the files say all that is held. -/
theorem Consistent.held_onDisk {names : ShardFiles} {dir : Dir} {db : Database}
    (consistent : Consistent names dir (fun _ => False) { db with dirty := ∅ }) (tidy : Tidy names dir)
    (name : String) :
    (held names dir { db with dirty := ∅ } name).map onDisk =
      ((fileOf names dir (shardOf name)).get name).map fun vals => onDisk (readBack db.node vals) := by
  cases away : Database.evicted { db with dirty := ∅ } (shardOf name) with
  | false =>
      by_cases used : names.used (shardOf name)
      · have clean := consistent.clean (shardOf name) used id (by simp [OrderedMap.contains]) away name rfl
        refine Eq.trans ?_ clean
        simp only [held, away]
        cases db.namespaces.get name <;> rfl
      · -- A name outside the shards in play is nowhere at all.
        have absent : db.namespaces.get name = none := by
          cases found : db.namespaces.get name with
          | none => rfl
          | some ns => exact absurd (consistent.used_of_present (OrderedMap.contains_iff.mpr ⟨ns, found⟩)) used
        have noFile : (fileOf names dir (shardOf name)).get name = none := by
          cases found : (fileOf names dir (shardOf name)).get name with
          | none => rfl
          | some vals => exact absurd (fileOf_used tidy consistent.ownFiles found) used
        simp [held, absent, away, noFile]
  | true =>
      obtain ⟨meta_, found, gone⟩ := evicted_iff.mp away
      have absent := (consistent.gone _ meta_ found gone).2.1 name rfl
      simp only [held, absent, away, if_true, Option.map_map]
      rfl

end Saving

/-! ## Loading -/

section Loading

variable {names : ShardFiles}

theorem checkVersion_of_loadFiles {l : List (String × Snapshot)} {acc acc' : Stored}
    (loaded : loadFiles l acc = .ok acc') : ∀ e ∈ l, checkVersion e.2.version = .ok () := by
  induction l generalizing acc with
  | nil => simp
  | cons e rest ih =>
      simp only [loadFiles] at loaded
      cases version : checkVersion e.2.version with
      | error err =>
          rw [version] at loaded
          cases loaded
      | ok u =>
          rw [version] at loaded
          intro e' member
          rcases List.mem_cons.mp member with rfl | later
          · exact version
          · exact ih loaded e' later

/-- Files that each hold one shard do not get in each other's way. -/
theorem loadFiles_get (names : ShardFiles) {l : List (String × Snapshot)} (apart : (l.map Prod.fst).Nodup)
    (versions : ∀ e ∈ l, checkVersion e.2.version = .ok ())
    (own : ∀ e ∈ l, ∀ name, e.1 ≠ names.file (shardOf name) → e.2.namespaces.get name = none) (acc : Stored) :
    ∃ acc', loadFiles l acc = .ok acc' ∧ ∀ name, acc'.get name =
      ((OrderedMap.lookup (names.file (shardOf name)) l).bind (·.namespaces.get name)).or (acc.get name) := by
  induction l generalizing acc with
  | nil => exact ⟨acc, rfl, fun name => by simp [OrderedMap.lookup]⟩
  | cons e rest ih =>
      rw [List.map_cons, List.nodup_cons] at apart
      obtain ⟨acc', loaded, get⟩ := ih apart.2 (fun e' member => versions e' (List.mem_cons_of_mem _ member))
        (fun e' member => own e' (List.mem_cons_of_mem _ member)) (extend acc e.2.namespaces)
      refine ⟨acc', ?_, fun name => ?_⟩
      · simp only [loadFiles, versions e List.mem_cons_self]
        exact loaded
      · rw [get, get_extend]
        by_cases same : names.file (shardOf name) = e.1
        · have later : OrderedMap.lookup e.1 rest = none := by
            cases found : OrderedMap.lookup e.1 rest with
            | none => rfl
            | some snap =>
                exact absurd (List.mem_map.mpr ⟨_, OrderedMap.mem_of_lookup found, rfl⟩) apart.1
          simp [OrderedMap.lookup, same, later]
        · simp [OrderedMap.lookup, same, own e List.mem_cons_self name (Ne.symm same)]

/-- A directory of shard files is read back file by file, over what a single-file snapshot
holds. -/
theorem load_over {dir : Dir}
    (shard : ∀ f, dir.files.contains f = true → ∃ s, names.used s ∧ f = names.file s) (own : OwnFiles names dir)
    (versions : ∀ f snap, dir.files.get f = some snap → checkVersion snap.version = .ok ())
    (old : ∀ snap, dir.legacy = some snap → checkVersion snap.version = .ok ()) :
    ∃ data, load dir = .ok data ∧ ∀ name, (data.elim ∅ (·.namespaces)).get name =
      ((fileOf names dir (shardOf name)).get name).or (dir.legacy.bind (·.namespaces.get name)) := by
  have kept : ∀ e ∈ dir.files.entries, ∀ name, e.1 ≠ names.file (shardOf name) →
      e.2.namespaces.get name = none := by
    intro e member name other
    have found : dir.files.get e.1 = some e.2 := OrderedMap.mem_entries.mp member
    obtain ⟨s, used, isFile⟩ := shard e.1 (OrderedMap.contains_iff.mpr ⟨_, found⟩)
    cases inFile : e.2.namespaces.get name with
    | none => rfl
    | some vals =>
        rw [isFile] at found
        exact absurd (by rw [isFile, own s e.2 name vals used found inFile]) other
  obtain ⟨stored, loaded, get⟩ := loadFiles_get names dir.files.keys_nodup
    (fun e member => versions e.1 e.2 (OrderedMap.mem_entries.mp member)) kept
    (dir.legacy.elim ∅ fun old => extend ∅ old.namespaces)
  have files : ∀ name, stored.get name =
      ((fileOf names dir (shardOf name)).get name).or (dir.legacy.bind (·.namespaces.get name)) := by
    intro name
    have inFile : (OrderedMap.lookup (names.file (shardOf name)) dir.files.entries).bind (·.namespaces.get name) =
        (fileOf names dir (shardOf name)).get name := by
      change ((dir.files.get (names.file (shardOf name))).bind _) = _
      rw [fileOf]
      cases dir.files.get (names.file (shardOf name)) <;> rfl
    rw [get, inFile]
    cases dir.legacy with
    | none => simp
    | some snap => simp [get_extend]
  cases legacy : dir.legacy with
  | none =>
      rw [legacy] at loaded files
      have read : load dir = .ok (if dir.files.entries.isEmpty then none else some ⟨snapshotVersion, stored⟩) := by
        simp only [load, legacy]
        change (loadFiles dir.files.entries ∅ >>= _) = _
        rw [show loadFiles dir.files.entries ∅ = .ok stored from loaded]
        simp only [Option.isNone_none, Bool.true_and]
        split <;> rfl
      refine ⟨_, read, fun name => ?_⟩
      rw [← files]
      split_ifs with empty
      · have none : dir.files.get (names.file (shardOf name)) = none := by
          rw [OrderedMap.get, List.isEmpty_iff.mp empty]
          rfl
        rw [files, fileOf, none]
        rfl
      · rfl
  | some snap =>
      rw [legacy] at loaded files
      have read : load dir = .ok (some ⟨snapshotVersion, stored⟩) := by
        simp only [load, legacy, old snap legacy]
        change (loadFiles dir.files.entries (extend ∅ snap.namespaces) >>= _) = _
        rw [show loadFiles dir.files.entries (extend ∅ snap.namespaces) = .ok stored from loaded]
        rfl
      exact ⟨_, read, files⟩

/-- A tidy directory is read back file by file. -/
theorem load_get {dir : Dir} (tidy : Tidy names dir) (own : OwnFiles names dir)
    (versions : ∀ f snap, dir.files.get f = some snap → checkVersion snap.version = .ok ()) :
    ∃ data, load dir = .ok data ∧
      ∀ name, (data.elim ∅ (·.namespaces)).get name = (fileOf names dir (shardOf name)).get name := by
  obtain ⟨data, loaded, get⟩ := load_over tidy.shard own versions (by simp [tidy.legacy])
  refine ⟨data, loaded, fun name => ?_⟩
  rw [get, tidy.legacy, Option.bind_none, Option.or_none]

/-- A load that succeeds has walked the files, starting from the single-file snapshot. -/
theorem load_run {dir : Dir} {data : Option Snapshot} (loaded : load dir = .ok data) :
    loadFiles dir.files.entries (dir.legacy.elim ∅ fun old => extend ∅ old.namespaces) =
      .ok (data.elim ∅ (·.namespaces)) := by
  simp only [load] at loaded
  cases legacy : dir.legacy with
  | none =>
      rw [legacy] at loaded
      change (loadFiles dir.files.entries ∅ >>= _) = _ at loaded
      rw [Option.elim_none]
      cases read : loadFiles dir.files.entries ∅ with
      | error e =>
          rw [read] at loaded
          cases loaded
      | ok stored =>
          rw [read] at loaded
          change (if _ then _ else _) = _ at loaded
          split_ifs at loaded with empty
          · obtain rfl := Except.ok.inj loaded
            have none : dir.files.entries = [] := by simpa using empty
            rw [none] at read
            exact read.symm
          · obtain rfl := Except.ok.inj loaded
            rfl
  | some old =>
      rw [legacy] at loaded
      rw [Option.elim_some]
      cases version : checkVersion old.version with
      | error e =>
          simp only [version] at loaded
          cases loaded
      | ok u =>
          simp only [version] at loaded
          change (loadFiles dir.files.entries (extend ∅ old.namespaces) >>= _) = _ at loaded
          cases read : loadFiles dir.files.entries (extend ∅ old.namespaces) with
          | error e =>
              rw [read] at loaded
              cases loaded
          | ok stored =>
              rw [read] at loaded
              obtain rfl := Except.ok.inj loaded
              rfl

theorem load_versions {dir : Dir} {data : Option Snapshot} (loaded : load dir = .ok data) (f : String)
    (snap : Snapshot) (found : dir.files.get f = some snap) : checkVersion snap.version = .ok () :=
  checkVersion_of_loadFiles (load_run loaded) (f, snap) (OrderedMap.mem_entries.mpr found)

theorem load_legacy {dir : Dir} {data : Option Snapshot} (loaded : load dir = .ok data) (old : Snapshot)
    (legacy : dir.legacy = some old) : checkVersion old.version = .ok () := by
  simp only [load, legacy] at loaded
  cases version : checkVersion old.version with
  | ok u => rfl
  | error e =>
      simp only [version] at loaded
      cases loaded

/-- The catalogue a snapshot is entered in: every shard in memory, with its namespaces. -/
theorem catalogue_spec (at_ : Int) (l : List String) (shards : OrderedMap String ShardMeta)
    (resident : ∀ s meta_, shards.get s = some meta_ → meta_.resident = true) :
    (∀ s meta_, (l.foldl (Database.catalogue · · at_) shards).get s = some meta_ → meta_.resident = true ∧
        ∀ name, meta_.namespaces.contains name =
          ((((shards.get s).getD .default).namespaces.contains name) || decide (name ∈ l ∧ shardOf name = s))) ∧
      ∀ s, ((l.foldl (Database.catalogue · · at_) shards).get s).isSome =
        ((shards.get s).isSome || decide (∃ name ∈ l, shardOf name = s)) := by
  induction l generalizing shards with
  | nil =>
      refine ⟨fun s meta_ found => ⟨resident s meta_ found, fun name => ?_⟩, fun s => by simp⟩
      have found' : shards.get s = some meta_ := found
      simp [found']
  | cons first rest ih =>
      have next : ∀ s meta_, (Database.catalogue shards first at_).get s = some meta_ → meta_.resident = true := by
        intro s meta_ found
        simp only [Database.catalogue, OrderedMap.get_insert] at found
        split_ifs at found
        · obtain rfl := Option.some.inj found
          rfl
        · exact resident s meta_ found
      obtain ⟨listed, known⟩ := ih (Database.catalogue shards first at_) next
      refine ⟨fun s meta_ found => ?_, fun s => ?_⟩
      · obtain ⟨here, names⟩ := listed s meta_ found
        refine ⟨here, fun name => ?_⟩
        rw [names]
        by_cases mine : s = shardOf first
        · subst mine
          by_cases same : name = first
          · simp [Database.catalogue, OrderedMap.contains, same]
          · simp [Database.catalogue, OrderedMap.contains, OrderedMap.get_insert, same]
        · by_cases same : name = first
          · simp [Database.catalogue, OrderedMap.get_insert, mine, same, Ne.symm mine]
          · simp [Database.catalogue, OrderedMap.get_insert, mine, same]
      · rw [List.foldl_cons, known]
        by_cases mine : s = shardOf first
        · simp [Database.catalogue, mine]
        · simp [Database.catalogue, OrderedMap.get_insert, mine, Ne.symm mine]

/-! ## Starting -/

/-- A restart that succeeds has loaded the directory. -/
theorem load_of_restart {dir : Dir} {policy : DatabasePolicy} {stores : StoragePolicy} {node : String}
    {now : DateTime} {db : Database} (started : restart dir policy stores node now = .ok db) :
    ∃ data, load dir = .ok data ∧
      db = data.elim (.withNode policy stores node) (.fromSnapshotAs · policy stores node now) := by
  simp only [restart] at started
  cases loaded : load dir with
  | error e =>
      rw [loaded] at started
      cases started
  | ok data =>
      rw [loaded] at started
      refine ⟨data, rfl, ?_⟩
      cases data with
      | none =>
          cases started
          rfl
      | some snap =>
          cases started
          rfl

theorem started_get (data : Option Snapshot) (policy : DatabasePolicy) (stores : StoragePolicy) (node : String)
    (now : DateTime) (name : String) :
    (data.elim (Database.withNode policy stores node)
        (.fromSnapshotAs · policy stores node now)).namespaces.get name =
      ((data.elim ∅ (·.namespaces)).get name).map fun vals => .fromValues vals node := by
  cases data with
  | none => rfl
  | some snap => exact OrderedMap.get_mapValues _ _ _

/-- After a restart from shard files memory is what the files say. -/
theorem restart_get {dir : Dir} (tidy : Tidy names dir) (own : OwnFiles names dir)
    (versions : ∀ f snap, dir.files.get f = some snap → checkVersion snap.version = .ok ())
    (policy : DatabasePolicy) (stores : StoragePolicy) (node : String) (now : DateTime) :
    ∃ db, restart dir policy stores node now = .ok db ∧
      ∀ name, db.namespaces.get name =
        ((fileOf names dir (shardOf name)).get name).map fun vals => .fromValues vals node := by
  obtain ⟨data, loaded, get⟩ := load_get tidy own versions
  refine ⟨_, ?_, fun name => (started_get data policy stores node now name).trans (by rw [get])⟩
  simp only [restart, loaded]
  cases data <;> rfl

theorem started_shards (data : Option Snapshot) (policy : DatabasePolicy) (stores : StoragePolicy)
    (node : String) (now : DateTime) :
    (data.elim (Database.withNode policy stores node) (.fromSnapshotAs · policy stores node now)).shards =
      (data.elim (∅ : Stored) (·.namespaces)).keys.foldl (Database.catalogue · · now.timestamp) ∅ := by
  cases data <;> rfl

/-- A server that has started from its directory has everything in memory, as its files say
for the shards whose namespaces were all read from their own file. -/
theorem started_consistent {dir : Dir} {exempt : String → Prop} {data : Option Snapshot}
    (loaded : load dir = .ok data) (own : OwnFiles names dir)
    (inPlay : ∀ name vals, (data.elim ∅ (·.namespaces)).get name = some vals → names.used (shardOf name))
    (faithful : ∀ name, ¬ exempt (shardOf name) →
      (data.elim ∅ (·.namespaces)).get name = (fileOf names dir (shardOf name)).get name)
    (policy : DatabasePolicy) (stores : StoragePolicy) (node : String) (now : DateTime) (tiers : TierPolicy) :
    Consistent names dir exempt ((data.elim (Database.withNode policy stores node)
      (.fromSnapshotAs · policy stores node now)).attachStore tiers) := by
  have node_ : (data.elim (Database.withNode policy stores node)
      (.fromSnapshotAs · policy stores node now)).node = node := by cases data <;> rfl
  have dirty : (data.elim (Database.withNode policy stores node)
      (.fromSnapshotAs · policy stores node now)).dirty = ∅ := by cases data <;> rfl
  have get := started_get data policy stores node now
  have shards := started_shards data policy stores node now
  generalize data.elim (Database.withNode policy stores node) (.fromSnapshotAs · policy stores node now) = db
    at node_ dirty get shards ⊢
  obtain ⟨listed, known⟩ := catalogue_spec now.timestamp (data.elim (∅ : Stored) (·.namespaces)).keys ∅
    (by simp)
  rw [← shards] at listed known
  have resident : ∀ s meta_, db.shards.get s = some meta_ → meta_.resident = true :=
    fun s meta_ found => (listed s meta_ found).1
  have present : ∀ name, db.namespaces.contains name =
      decide (name ∈ (data.elim (∅ : Stored) (·.namespaces)).keys) := by
    intro name
    rw [Bool.eq_iff_iff, decide_eq_true_iff, OrderedMap.mem_keys, OrderedMap.contains, get]
    cases (data.elim ∅ (·.namespaces)).get name <;> simp
  refine ⟨rfl, fun shard snap used found => ⟨load_versions loaded _ snap found, fun name vals =>
    own shard snap name vals used found⟩, ?_, ?_, ?_, ?_, ?_, ?_, ?_⟩
  · intro shard _ notExempt _ _ name mine
    subst mine
    have inFile : (data.elim ∅ (·.namespaces)).get name = (fileOf names dir (shardOf name)).get name :=
      faithful name notExempt
    change (db.namespaces.get name).map _ = ((fileOf names dir (shardOf name)).get name).map _
    rw [get, Option.map_map, ← inFile]
    change _ = ((data.elim ∅ (·.namespaces)).get name).map fun vals => onDisk (readBack db.node vals)
    rw [node_]
    rfl
  · intro shard meta_ found away
    rw [resident shard meta_ found] at away
    cases away
  · intro shard meta_ found here name
    have names := (listed shard meta_ found).2 name
    change meta_.namespaces.contains name = (db.namespaces.contains name && _)
    rw [names, present]
    simp [ShardMeta.default, OrderedMap.contains]
  · intro name here
    change db.namespaces.contains name = true at here
    rw [present] at here
    have entered := known (shardOf name)
    have some : decide (∃ n ∈ (data.elim (∅ : Stored) (·.namespaces)).keys, shardOf n = shardOf name) = true :=
      decide_eq_true ⟨name, of_decide_eq_true here, rfl⟩
    rw [some, Bool.or_true, Option.isSome_iff_exists] at entered
    obtain ⟨meta_, found⟩ := entered
    exact ⟨meta_, found, resident _ meta_ found⟩
  · change db.evicted internalShard = false
    cases away : db.evicted internalShard with
    | false => rfl
    | true =>
        obtain ⟨meta_, found, gone⟩ := evicted_iff.mp away
        rw [resident _ meta_ found] at gone
        cases gone
  · intro shard meta_ found
    have entered := known shard
    rw [show db.shards.get shard = some meta_ from found, Option.isSome_some, OrderedMap.get_empty,
      Option.isSome_none, Bool.false_or] at entered
    obtain ⟨name, member, rfl⟩ := of_decide_eq_true entered.symm
    obtain ⟨vals, inData⟩ := OrderedMap.mem_keys.mp member
    exact inPlay name vals inData
  · intro shard marked
    rw [show (db.attachStore tiers).dirty = db.dirty from rfl, dirty] at marked
    simp [OrderedMap.contains] at marked

end Loading

end SightingDB
