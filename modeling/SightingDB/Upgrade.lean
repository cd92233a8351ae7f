import SightingDB.FaultyReads

/-!
Reading what an older build wrote. It kept one total and one set of hourly buckets for a
value; a load, a restore and a page-in each fold them into this server's own entry, and a
file written since holds only the new form.
-/
namespace SightingDB

namespace Attribute

/-! ## One value -/

/-- A value as a version 1 snapshot holds it. Numbers are `u64`, times are whole seconds. -/
structure Old (a : Attribute) : Prop where
  counts : a.counts = ∅
  stats : a.stats = ∅
  fits : a.legacyCount < u64Size
  hits : ∀ e ∈ a.legacyStats.entries, e.2 < u64Size

/-- What a reader of the old value is told of the new one. -/
structure Upgraded (a b : Attribute) : Prop where
  count : b.count = a.legacyCount
  buckets : b.mergedStats = a.legacyStats
  tags : b.tags = a.tags
  ttl : b.ttl = a.ttl
  firstSeen : b.firstSeen.timestamp = a.firstSeen.timestamp
  lastSeen : b.lastSeen.timestamp = a.lastSeen.timestamp

/-- Buckets added one by one to none are those buckets. -/
theorem addTo_empty {m : Buckets} (hits : ∀ e ∈ m.entries, e.2 < u64Size) :
    m.entries.foldl (fun acc e => addTo acc e.1 e.2) ∅ = m := by
  refine OrderedMap.ext_get fun k => ?_
  have fold := OrderedMap.get_foldl_insert (fun _ (old : Option Nat) v => (old.getD 0 + v) % u64Size)
    m.entries m.keys_nodup ∅ k
  refine (fold.trans ?_)
  change (m.get k).elim _ _ = _
  cases found : m.get k with
  | none => simp
  | some v =>
      have small := hits (k, v) (OrderedMap.mem_entries.mpr found)
      simp [Nat.mod_eq_of_lt small]

/-- There is nothing left to fold in. -/
theorem migrate_migrate (a : Attribute) (node node' : String) : (a.migrate node).migrate node' = a.migrate node := by
  have blank : (∅ : Buckets).entries = [] := rfl
  have settled : (a.migrate node).legacyCount = 0 ∧ (a.migrate node).legacyStats.entries = [] := by
    simp only [migrate]
    split_ifs with counted hits hits <;> simp_all
  conv_lhs => rw [migrate]
  simp [settled.1, settled.2]

theorem migrate_ignores (a : Attribute) (node : String) :
    (a.migrate node).tags = a.tags ∧ (a.migrate node).ttl = a.ttl ∧
      (a.migrate node).firstSeen = a.firstSeen ∧ (a.migrate node).lastSeen = a.lastSeen := by
  simp only [migrate]
  split_ifs <;> exact ⟨rfl, rfl, rfl, rfl⟩

theorem Old.counts_migrate {a : Attribute} (old : a.Old) (node : String) :
    (a.migrate node).counts = if 0 < a.legacyCount then (∅ : Counts).insert node a.legacyCount else ∅ := by
  have total : addTo a.counts node a.legacyCount = (∅ : Counts).insert node a.legacyCount := by
    rw [addTo, old.counts, OrderedMap.get_empty, Option.getD_none, Nat.zero_add, Nat.mod_eq_of_lt old.fits]
  simp only [migrate]
  split_ifs <;> first | exact total | exact old.counts

theorem Old.stats_migrate {a : Attribute} (old : a.Old) (node : String) :
    (a.migrate node).stats = if a.legacyStats.entries ≠ [] then
      (∅ : OrderedMap String Buckets).insert node a.legacyStats else ∅ := by
  have buckets : a.legacyStats.entries.foldl (fun acc e => addTo acc e.1 e.2) ((a.stats.get node).getD ∅) =
      a.legacyStats := by
    rw [old.stats, OrderedMap.get_empty, Option.getD_none, addTo_empty old.hits]
  simp only [migrate]
  split_ifs <;> simp_all [old.stats]

/-- What is in memory or in a file of this build, to the second, tells the same as the value
the older build wrote. -/
theorem Old.upgraded {a b : Attribute} (old : a.Old) {node : String} (same : b.stored = (a.migrate node).stored) :
    Upgraded a b := by
  obtain ⟨tags, ttl, first, last⟩ := migrate_ignores a node
  have counts : b.stored.counts = (a.migrate node).counts := by rw [same]; rfl
  have stats : b.stored.stats = (a.migrate node).stats := by rw [same]; rfl
  have tags' : b.stored.tags = (a.migrate node).tags := by rw [same]; rfl
  have ttl' : b.stored.ttl = (a.migrate node).ttl := by rw [same]; rfl
  have first' : b.firstSeen.truncate = (a.migrate node).firstSeen.truncate := by
    change b.stored.firstSeen = _
    rw [same]
    rfl
  have last' : b.lastSeen.truncate = (a.migrate node).lastSeen.truncate := by
    change b.stored.lastSeen = _
    rw [same]
    rfl
  refine ⟨?_, ?_, tags'.trans tags, ttl'.trans ttl, first ▸ DateTime.truncate_eq_iff.mp first',
    last ▸ DateTime.truncate_eq_iff.mp last'⟩
  · change b.stored.counts.total % u64Size = _
    rw [counts, old.counts_migrate]
    split_ifs with some_
    · rw [show (∅ : Counts) = OrderedMap.empty from rfl, OrderedMap.total_single, Nat.mod_eq_of_lt old.fits]
    · rw [OrderedMap.total_empty, Nat.zero_mod]
      omega
  · change b.stored.mergedStats = _
    rw [mergedStats, stats, old.stats_migrate]
    split_ifs with some_
    · change (a.legacyStats.entries.foldl (fun merged b => addTo merged b.1 b.2) ∅) = _
      exact addTo_empty old.hits
    · refine OrderedMap.ext_get fun k => ?_
      rw [OrderedMap.get, OrderedMap.get, not_not.mp some_]
      rfl

end Attribute

/-! ## A server that upgrades -/

/-- What a server does that no client asks for, and the reads that bring a shard back. A save is
of what changed or of everything, in the order the shards happen to be walked. -/
inductive Upkeep
  | save (all : Bool) (order : List String)
  | evictIdle (at_ : Int)
  | read (query : Query)
  | restart
  deriving DecidableEq

/-- How a server is set up: what does not change when it is started again. -/
structure Setup where
  names : ShardFiles
  policy : DatabasePolicy
  stores : StoragePolicy
  node : String
  tiers : TierPolicy

namespace Setup

variable (setup : Setup)

/-- A server started from a directory. -/
def start (dir : Dir) (now : DateTime) : Option Machine :=
  match restart dir setup.policy setup.stores setup.node now with
  | .ok db => some ⟨db.attachStore setup.tiers, dir⟩
  | .error _ => none

def step (m : Machine) (now : DateTime) : Upkeep → Option Machine
  | .save all order =>
      if order.Perm (presentShards m.db).keys then
        let (db, dir, _) := SightingDB.save m.db (.sound setup.names m.dir now) all order
        some ⟨db, dir⟩
      else none
  | .evictIdle at_ =>
      let (db, dir, _) := m.db.evictIdle (.sound setup.names m.dir now) at_
      some ⟨db, dir⟩
  | .read query => some ⟨(query.apply m.db (.sound setup.names m.dir now)).1, m.dir⟩
  | .restart => setup.start m.dir now

def run (m : Machine) : List (DateTime × Upkeep) → Option Machine
  | [] => some m
  | (now, act) :: rest => (setup.step m now act).bind fun m => run m rest

/-- A pass of the evictor drops no shard of which a namespace is in the single-file snapshot
alone. -/
def Fit (old : Stored) (m : Machine) : Upkeep → Prop
  | .save _ order => order.Perm (presentShards m.db).keys
  | .evictIdle at_ => ∀ shard meta_, m.db.shards.get shard = some meta_ → m.db.tiers.isIdle at_ shard meta_ = true →
      ∀ name, shardOf name = shard → old.contains name = true →
        (fileOf setup.names m.dir shard).contains name = true
  | _ => True

def FitAll (old : Stored) (m : Machine) : List (DateTime × Upkeep) → Prop
  | [] => True
  | (now, act) :: rest => setup.Fit old m act ∧ ∀ m', setup.step m now act = some m' → FitAll old m' rest

end Setup

/-- A shard of which some namespace has no place in its file yet. -/
def Unfiled (names : ShardFiles) (old : Stored) (dir : Dir) (shard : String) : Prop :=
  ∃ name, shardOf name = shard ∧ old.contains name = true ∧ (fileOf names dir shard).contains name = false

/-- The invariant of upkeep: memory and files, and what a restart would read, all say what was
read first. -/
structure Keeps (setup : Setup) (old : Stored) (m : Machine) : Prop where
  consistent : Consistent setup.names m.dir (Unfiled setup.names old m.dir) m.db
  clean : m.db.dirty = ∅
  node : m.db.node = setup.node
  dir : ShardDir setup.names m.dir
  version : ∀ snap, m.dir.legacy = some snap → checkVersion snap.version = .ok ()
  held : ∀ name, (held setup.names m.dir m.db name).map onDisk =
    (old.get name).map fun vals => onDisk (readBack setup.node vals)
  stored : ∀ name, (((fileOf setup.names m.dir (shardOf name)).get name).or
      (m.dir.legacy.bind (·.namespaces.get name))).map (fun vals => onDisk (readBack setup.node vals)) =
    (old.get name).map fun vals => onDisk (readBack setup.node vals)

section

variable {setup : Setup} {old : Stored} {m : Machine}

/-- A server that starts from a directory that says what was read first. -/
theorem Keeps.started {dir : Dir} (shards : ShardDir setup.names dir)
    (versions : ∀ f snap, dir.files.get f = some snap → checkVersion snap.version = .ok ())
    (version : ∀ snap, dir.legacy = some snap → checkVersion snap.version = .ok ())
    (stored : ∀ name, (((fileOf setup.names dir (shardOf name)).get name).or
        (dir.legacy.bind (·.namespaces.get name))).map (fun vals => onDisk (readBack setup.node vals)) =
      (old.get name).map fun vals => onDisk (readBack setup.node vals)) (now : DateTime) :
    ∃ m, setup.start dir now = some m ∧ Keeps setup old m := by
  obtain ⟨data, loaded, get⟩ := load_over shards.shard shards.own versions version
  obtain ⟨db, started⟩ : ∃ db, restart dir setup.policy setup.stores setup.node now = .ok db := by
    simp only [restart, loaded]
    cases data <;> exact ⟨_, rfl⟩
  have past := started_over shards started
  obtain ⟨placed, here, dirty⟩ := start_placed shards started setup.tiers
  have alive (name : String) : SightingDB.held setup.names dir (db.attachStore setup.tiers) name =
      (((fileOf setup.names dir (shardOf name)).get name).or (dir.legacy.bind (·.namespaces.get name))).map
        (readBack setup.node) := by
    have memory : (db.attachStore setup.tiers).namespaces.get name = db.namespaces.get name := rfl
    have resident : (db.attachStore setup.tiers).evicted (shardOf name) = false := here _
    simp only [SightingDB.held, memory, past name, resident]
    cases ((fileOf setup.names dir (shardOf name)).get name).or (dir.legacy.bind (·.namespaces.get name)) <;> rfl
  refine ⟨⟨db.attachStore setup.tiers, dir⟩, by simp [Setup.start, started], ?_⟩
  obtain ⟨data', loaded', rfl⟩ := load_of_restart started
  obtain rfl : data = data' := Except.ok.inj (loaded.symm.trans loaded')
  refine ⟨started_consistent loaded shards.own ?_ ?_ _ _ _ now _, dirty, by cases data <;> rfl, shards, version, ?_, stored⟩
  · intro name vals found
    have present := past name
    rw [← get, found, Option.map_some] at present
    exact (placed.memory name (OrderedMap.contains_iff.mpr ⟨_, present⟩)).1
  · intro name filed
    rw [get]
    cases inFile : (fileOf setup.names dir (shardOf name)).get name with
    | some vals => rfl
    | none =>
        have absent : old.get name = none := by
          cases known : old.get name with
          | none => rfl
          | some vals =>
              exact absurd ⟨name, rfl, OrderedMap.contains_iff.mpr ⟨vals, known⟩, OrderedMap.not_contains_iff.mpr inFile⟩
                filed
        have both := stored name
        rw [inFile, absent, Option.map_none, Option.map_eq_none_iff] at both
        exact both
  · intro name
    rw [alive, Option.map_map, ← stored]
    rfl

theorem Keeps.read (keeps : Keeps setup old m) (now : DateTime) (query : Query) :
    Keeps setup old ⟨(query.apply m.db (.sound setup.names m.dir now)).1, m.dir⟩ := by
  obtain ⟨looked, -⟩ := query.reads keeps.consistent now
  exact ⟨looked.consistent, looked.dirty.trans keeps.clean, looked.node.trans keeps.node, keeps.dir, keeps.version,
    fun name => by rw [looked.held]; exact keeps.held name, keeps.stored⟩

/-- Where nothing is dirty, eviction writes nothing. -/
theorem evictAll_clean (w : World) (shards : List String) (acc : Database × Dir × EvictReport) (clean : acc.1.dirty = ∅) :
    (shards.foldl (Database.evictShard w) acc).1.dirty = ∅ ∧ (shards.foldl (Database.evictShard w) acc).2.1 = acc.2.1 := by
  induction shards generalizing acc with
  | nil => exact ⟨clean, rfl⟩
  | cons shard rest ih =>
      have none_ : OrderedMap.contains (∅ : Names) shard = false := by simp [OrderedMap.contains]
      have one : (Database.evictShard w acc shard).1.dirty = ∅ ∧ (Database.evictShard w acc shard).2.1 = acc.2.1 := by
        simp only [Database.evictShard, clean, none_, Bool.false_eq_true, if_false]
        exact ⟨OrderedMap.erase_absent _ (OrderedMap.not_contains_iff.mp none_), trivial⟩
      obtain ⟨later, dir⟩ := ih _ one.1
      exact ⟨later, dir.trans one.2⟩

theorem Keeps.evict (keeps : Keeps setup old m) {at_ : Int} (fit : setup.Fit old m (.evictIdle at_)) (now : DateTime) :
    Keeps setup old ⟨(m.db.evictIdle (.sound setup.names m.dir now) at_).1,
      (m.db.evictIdle (.sound setup.names m.dir now) at_).2.1⟩ := by
  have store := keeps.consistent.store
  have evicts : Evicts setup.names (Unfiled setup.names old m.dir) m.db m.dir
      (m.db.evictIdle (.sound setup.names m.dir now) at_).1 (m.db.evictIdle (.sound setup.names m.dir now) at_).2.1 := by
    simp only [Database.evictIdle, store, Bool.not_true, Bool.false_eq_true, if_false]
    refine evictAll_evicts (OrderedMap.keys_nodup _) m.dir now (m.db, m.dir, ⟨0, 0, 0⟩) keeps.consistent fun s member => ?_
    obtain ⟨meta_, kept⟩ := OrderedMap.mem_keys.mp member
    rw [OrderedMap.get_filter, Option.filter_eq_some_iff] at kept
    obtain ⟨found, idle⟩ := kept
    refine ⟨⟨meta_, found, ?_⟩, ?_, ?_⟩
    · simp only [TierPolicy.isIdle, Bool.and_eq_true] at idle
      exact idle.1
    · rintro ⟨name, mine, known, missing⟩
      rw [fit s meta_ found idle name mine known] at missing
      cases missing
    · rintro rfl
      simp [TierPolicy.isIdle] at idle
  have still : (m.db.evictIdle (.sound setup.names m.dir now) at_).1.dirty = ∅ ∧
      (m.db.evictIdle (.sound setup.names m.dir now) at_).2.1 = m.dir := by
    simp only [Database.evictIdle, store, Bool.not_true, Bool.false_eq_true, if_false]
    exact evictAll_clean _ _ (m.db, m.dir, ⟨0, 0, 0⟩) keeps.clean
  rw [still.2] at evicts ⊢
  exact ⟨evicts.consistent, still.1, evicts.node.trans keeps.node, keeps.dir, keeps.version,
    fun name => (evicts.alike name).trans (keeps.held name), keeps.stored⟩

/-- A save of everything is one in which every shard present is dirty. -/
theorem saveShards_all (w : World) (marked marked' : Names) {order : List String}
    (there : ∀ s ∈ order, marked'.contains s = true) (acc : Database × Dir × SaveReport) :
    saveShards w true marked order acc = saveShards w false marked' order acc := by
  induction order generalizing acc with
  | nil => rfl
  | cons shard rest ih =>
      have later := ih fun s member => there s (List.mem_cons_of_mem _ member)
      simp only [saveShards, there shard List.mem_cons_self, Bool.not_true, Bool.false_and, Bool.false_eq_true, if_false,
        Bool.and_false]
      cases writeShard acc.1 w acc.2.1 shard with
      | none => rfl
      | some dir => exact later _

/-- Nothing being dirty, a save writes all the shards that are present, or none. -/
theorem saveShards_clean {db : Database} (clean : db.dirty = ∅) (w : World) (all : Bool) {order : List String}
    (walk : order.Perm (presentShards db).keys) (acc : Database × Dir × SaveReport) :
    ∃ written : Names, saveShards w all db.dirty order acc = saveShards w false written order acc ∧
      ∀ s, written.contains s = true → s ∈ order := by
  cases all with
  | true =>
      refine ⟨presentShards db, saveShards_all _ _ _ (fun s member => ?_) _, fun s present => ?_⟩
      · exact OrderedMap.contains_iff.mpr (OrderedMap.mem_keys.mp (walk.mem_iff.mp member))
      · exact walk.mem_iff.mpr (OrderedMap.mem_keys.mpr (OrderedMap.contains_iff.mp present))
  | false =>
      refine ⟨∅, by rw [clean], fun s never => ?_⟩
      simp [OrderedMap.contains] at never

/-- The shards that a save walks are in memory. -/
theorem Keeps.walked (keeps : Keeps setup old m) {order : List String} (walk : order.Perm (presentShards m.db).keys)
    {s : String} (member : s ∈ order) : m.db.evicted s = false ∧ setup.names.used s := by
  have listed := OrderedMap.contains_iff.mpr (OrderedMap.mem_keys.mp (walk.mem_iff.mp member))
  obtain ⟨name, inMemory, rfl⟩ := (contains_presentShards m.db s).mp listed
  obtain ⟨meta_, found, resident⟩ := keeps.consistent.known name inMemory
  exact ⟨not_evicted_of_resident found resident, keeps.consistent.inPlay _ meta_ found⟩

section

variable {dir' : Dir} {shards : String → Prop} {name : String}

/-- What a shard that was written has in its file is what it has in memory. -/
theorem Keeps.filed (rewritten : Rewritten setup.names m.db shards m.dir dir') (used : setup.names.used (shardOf name))
    (taken : shards (shardOf name)) :
    ((fileOf setup.names dir' (shardOf name)).get name).map (fun vals => onDisk (readBack setup.node vals)) =
      (m.db.namespaces.get name).map fun ns => onDisk ns.values := by
  rw [rewritten.fileOf_new used taken rfl, Option.map_map]
  cases m.db.namespaces.get name <;> simp [onDisk_readBack]

/-- Files written from memory say what was read first, wherever they are. -/
theorem Keeps.stored_rewritten (keeps : Keeps setup old m) (rewritten : Rewritten setup.names m.db shards m.dir dir')
    (present : ∀ s, shards s → m.db.evicted s = false) (shardDir : ShardDir setup.names dir')
    (legacy : dir'.legacy = m.dir.legacy) (name : String) :
    (((fileOf setup.names dir' (shardOf name)).get name).or (dir'.legacy.bind (·.namespaces.get name))).map
        (fun vals => onDisk (readBack setup.node vals)) =
      (old.get name).map fun vals => onDisk (readBack setup.node vals) := by
  have before := keeps.stored name
  rw [legacy]
  by_cases used : setup.names.used (shardOf name)
  · by_cases taken : shards (shardOf name)
    · have now_ := Keeps.filed rewritten used taken
      have alive := keeps.held name
      have resident := present _ taken
      cases inMemory : m.db.namespaces.get name with
      | some ns =>
          rw [inMemory, Option.map_some, Option.map_eq_some_iff] at now_
          obtain ⟨vals, inFile, written_⟩ := now_
          rw [inFile, Option.some_or, Option.map_some, written_, ← alive, SightingDB.held, inMemory]
          rfl
      | none =>
          rw [inMemory, Option.map_none, Option.map_eq_none_iff] at now_
          simp only [SightingDB.held, inMemory, resident, Bool.false_eq_true, if_false, Option.map_none] at alive
          rw [← alive, Option.map_eq_none_iff] at before ⊢
          rw [now_, Option.none_or]
          exact (Option.or_eq_none_iff.mp before).2
    · rw [rewritten.fileOf_same used taken]
      exact before
  · have nowhere {dir : Dir} (shardDir : ShardDir setup.names dir) :
        (fileOf setup.names dir (shardOf name)).get name = none := by
      cases inFile : (fileOf setup.names dir (shardOf name)).get name with
      | none => rfl
      | some vals => exact absurd (shardDir.used_of_filed inFile) used
    rw [nowhere shardDir]
    rwa [nowhere keeps.dir] at before

end

theorem Keeps.save (keeps : Keeps setup old m) {all : Bool} {order : List String}
    (walk : order.Perm (presentShards m.db).keys) (now : DateTime) :
    Keeps setup old ⟨(SightingDB.save m.db (.sound setup.names m.dir now) all order).1,
      (SightingDB.save m.db (.sound setup.names m.dir now) all order).2.1⟩ := by
  obtain ⟨written, asWritten, here⟩ := saveShards_clean keeps.clean (.sound setup.names m.dir now) all walk
    ({ m.db with dirty := ∅ }, m.dir, ⟨0, 0⟩)
  obtain ⟨dir', report, saved, spreads, files⟩ := saveShards_sound setup.names { m.db with dirty := ∅ } m.dir now
    written (fun s member => (keeps.walked walk member).2) m.dir ⟨0, 0⟩
  have whole : SightingDB.save m.db (.sound setup.names m.dir now) all order =
      ({ m.db with dirty := ∅ }, dir', some report) := by
    simp only [SightingDB.save]
    rw [show (World.sound setup.names m.dir now).dir = m.dir from rfl, asWritten, saved]
    simp only [keeps.clean]
    rfl
  have rewritten : Rewritten setup.names m.db (fun s => written.contains s = true) m.dir dir' := by
    refine ⟨fun s used kept => by rw [files s used, if_neg (by simp [kept])], fun s used taken => .inl ?_⟩
    rw [files s used, if_pos ⟨here s taken, taken⟩]
    rfl
  have present (s : String) (taken : written.contains s = true) : m.db.evicted s = false :=
    (keeps.walked walk (here s taken)).1
  obtain ⟨consistent, same⟩ := keeps.consistent.rewritten rewritten present ∅
    (fun s never => by simp [OrderedMap.contains] at never)
    (fun s marked => by
      rw [keeps.clean] at marked
      simp [OrderedMap.contains] at marked)
  have shards : ShardDir setup.names dir' :=
    ⟨fun f there => (spreads.shard f there).elim (keeps.dir.shard f) id, consistent.ownFiles,
      fun snap name vals legacy => keeps.dir.legacy snap name vals (spreads.legacy.symm.trans legacy)⟩
  rw [whole]
  refine ⟨⟨consistent.store, consistent.own, ?_, consistent.gone, consistent.listed, consistent.known, consistent.hot,
    consistent.inPlay, consistent.marks⟩, rfl, keeps.node, shards,
    fun snap legacy => keeps.version snap (spreads.legacy.symm.trans legacy),
    fun name => by rw [same]; exact keeps.held name,
    keeps.stored_rewritten rewritten present shards spreads.legacy⟩
  intro s used complete _ resident name mine
  subst mine
  by_cases taken : written.contains (shardOf name) = true
  · rw [show ({ m.db with dirty := ∅ } : Database).node = setup.node from keeps.node]
    exact (Keeps.filed rewritten used taken).symm
  · have sameFile := rewritten.fileOf_same used taken
    rw [sameFile]
    refine keeps.consistent.clean _ used ?_ (by rw [keeps.clean]; simp [OrderedMap.contains]) resident name rfl
    rintro ⟨other, mine, known, missing⟩
    exact complete ⟨other, mine, known, by rw [sameFile]; exact missing⟩

theorem Keeps.restart (keeps : Keeps setup old m) (now : DateTime) :
    ∃ m', setup.start m.dir now = some m' ∧ Keeps setup old m' := by
  refine Keeps.started keeps.dir (fun f snap found => ?_) keeps.version keeps.stored now
  obtain ⟨s, used, rfl⟩ := keeps.dir.shard f (OrderedMap.contains_iff.mpr ⟨snap, found⟩)
  exact (keeps.consistent.own s snap used found).1

/-- Each step of upkeep can be made and keeps what there is. -/
theorem Keeps.step (keeps : Keeps setup old m) {act : Upkeep} (fit : setup.Fit old m act) (now : DateTime) :
    ∃ m', setup.step m now act = some m' ∧ Keeps setup old m' := by
  cases act with
  | save all order => exact ⟨_, if_pos fit, keeps.save fit now⟩
  | evictIdle at_ => exact ⟨_, rfl, keeps.evict fit now⟩
  | read query => exact ⟨_, rfl, keeps.read now query⟩
  | restart => exact keeps.restart now

theorem Keeps.run {steps : List (DateTime × Upkeep)} (keeps : Keeps setup old m) (fit : setup.FitAll old m steps) :
    ∃ m', setup.run m steps = some m' ∧ Keeps setup old m' := by
  induction steps generalizing m with
  | nil => exact ⟨m, rfl, keeps⟩
  | cons e rest ih =>
      obtain ⟨mid, stepped, next⟩ := keeps.step fit.1 e.1
      obtain ⟨m', ran, last⟩ := ih next (fit.2 mid stepped)
      exact ⟨m', by simp only [Setup.run, stepped]; exact ran, last⟩

/-- What is asked of a namespace read first, at any time. -/
theorem Keeps.reads (keeps : Keeps setup old m) (now : DateTime) {name v : String} {vals : Values} {a : Attribute}
    (known : old.get name = some vals) (entry : vals.get v = some a) (wrote : a.Old) :
    ∃ ns b, (m.db.namespace_ (.sound setup.names m.dir now) name).2 = some ns ∧ ns.values.get v = some b ∧
      a.Upgraded b := by
  obtain ⟨-, -, found⟩ := namespace_spec keeps.consistent now name
  have same := keeps.held name
  rw [known, Option.map_some, ← found] at same
  cases answer : (m.db.namespace_ (.sound setup.names m.dir now) name).2 with
  | none =>
      rw [answer] at same
      cases same
  | some ns =>
      rw [answer] at same
      have cell := congrArg (OrderedMap.get · v) (Option.some.inj same)
      simp only [onDisk, readBack, OrderedMap.get_mapValues, entry, Option.map_some] at cell
      obtain ⟨b, inNamespace, stored⟩ := Option.map_eq_some_iff.mp cell
      exact ⟨ns, b, rfl, inNamespace, wrote.upgraded stored⟩

end

/-! ## Versions that are refused -/

/-- A version this build does not read. -/
def Refused (version : Nat) : Prop := version = 0 ∨ snapshotVersion < version

theorem checkVersion_ok_iff {version : Nat} : checkVersion version = .ok () ↔ ¬ Refused version := by
  simp only [checkVersion, Refused]
  split_ifs with newer none_
  · simp [newer]
  · simp [none_]
  · simp [newer, none_]

theorem load_refused {dir : Dir} {snap : Snapshot} (refused : Refused snap.version)
    (there : dir.legacy = some snap ∨ ∃ f, dir.files.get f = some snap) : ∃ e, load dir = .error e := by
  cases loaded : load dir with
  | error e => exact ⟨e, rfl⟩
  | ok data =>
      rcases there with legacy | ⟨f, found⟩
      · exact absurd refused (checkVersion_ok_iff.mp (load_legacy loaded snap legacy))
      · exact absurd refused (checkVersion_ok_iff.mp (load_versions loaded f snap found))

theorem pageIn_refused {db : Database} {w : World} {shard : String} {snap : Snapshot} (refused : Refused snap.version)
    (file : w.dir.files.get (w.names.file shard) = some snap) (store : db.store = true)
    (away : db.evicted shard = true) : db.pageIn w shard = none := by
  obtain ⟨meta_, found, out⟩ := evicted_iff.mp away
  have bad : (checkVersion snap.version).toOption = none := by
    cases checked : checkVersion snap.version with
    | error e => rfl
    | ok u => exact absurd refused (checkVersion_ok_iff.mp checked)
  simp [Database.pageIn, store, found, out, readShardFile, file, bad]

/-- A restore from what an older build wrote, the upkeep that follows, and what is refused. -/
theorem upgrading_keeps (data : Snapshot) :
    (∀ (policy : DatabasePolicy) (stores : StoragePolicy) (node : String) (now : DateTime)
      (name v : String) (vals : Values) (a : Attribute),
      data.namespaces.get name = some vals → vals.get v = some a → a.Old →
      ∃ ns b, (Database.fromSnapshotAs data policy stores node now).namespaces.get name = some ns ∧
        ns.values.get v = some b ∧ a.Upgraded b ∧ ∀ node', b.migrate node' = b) ∧
    (∀ (setup : Setup) (dir : Dir) (booted : DateTime), ShardDir setup.names dir →
      load dir = .ok (some data) →
      (∀ name vals v a, data.namespaces.get name = some vals → vals.get v = some a → a.Old) →
      ∃ m, setup.start dir booted = some m ∧ ∀ steps, setup.FitAll data.namespaces m steps →
        ∃ m', setup.run m steps = some m' ∧
          ∀ now name v vals a, data.namespaces.get name = some vals → vals.get v = some a →
            ∃ ns b, (m'.db.namespace_ (.sound setup.names m'.dir now) name).2 = some ns ∧
              ns.values.get v = some b ∧ a.Upgraded b) ∧
    (Refused data.version →
      (∀ dir, (dir.legacy = some data ∨ ∃ f, dir.files.get f = some data) → ∃ e, load dir = .error e) ∧
      ∀ (db : Database) (w : World) (shard : String), w.dir.files.get (w.names.file shard) = some data →
        db.store = true → db.evicted shard = true → db.pageIn w shard = none) := by
  refine ⟨?_, ?_, fun refused => ⟨fun dir => load_refused refused, fun db w shard => pageIn_refused refused⟩⟩
  · intro policy stores node now name v vals a found entry wrote
    refine ⟨.fromValues vals node, a.migrate node, ?_, ?_, wrote.upgraded rfl, a.migrate_migrate node⟩
    · simp [Database.fromSnapshotAs, OrderedMap.get_mapValues, found]
    · rw [fromValues_values, readBack, OrderedMap.get_mapValues, entry, Option.map_some]
  · intro setup dir booted shards loaded wrote
    obtain ⟨data', loaded', get⟩ := load_over shards.shard shards.own (load_versions loaded) (load_legacy loaded)
    obtain rfl : some data = data' := Except.ok.inj (loaded.symm.trans loaded')
    obtain ⟨m, started, keeps⟩ := @Keeps.started setup data.namespaces dir shards (load_versions loaded)
      (load_legacy loaded) (fun name => by rw [← get]; rfl) booted
    refine ⟨m, started, fun steps fit => ?_⟩
    obtain ⟨m', ran, last⟩ := keeps.run fit
    exact ⟨m', ran, fun now name v vals a known entry => last.reads now known entry (wrote name vals v a known entry)⟩

/-! ## One value, in the one file the older build kept -/

def oldValue : Attribute :=
  { Attribute.new "v" with legacyCount := 7, legacyStats := OrderedMap.empty.insert 3600 7 }

def oldDir : Dir := ⟨some ⟨1, OrderedMap.empty.insert "a/x" (OrderedMap.empty.insert "v" oldValue)⟩, ∅⟩

/-- Nothing may sit idle here. -/
def eagerSetup : Setup := ⟨.sample, ⟨0, 0⟩, .storeEverything, "local", ⟨.cold, ∅, 0⟩⟩

theorem oldValue_old : oldValue.Old where
  counts := rfl
  stats := rfl
  fits := by decide
  hits := by decide

theorem oldDir_shards : ShardDir eagerSetup.names oldDir where
  shard f present := by
    cases present
  own shard snap name vals _ found := by
    cases found
  legacy snap name vals legacy found := by
    obtain rfl := Option.some.inj legacy
    rw [OrderedMap.get_insert] at found
    split_ifs at found with same
    · subst same
      exact .inr (by decide)
    · cases found

/-- Everything is saved in the new form, dropped, read back, and read once more by the next
start. -/
def carried : List (DateTime × Upkeep) :=
  [(.unixEpoch, .save true ["a"]), (.unixEpoch, .evictIdle 0), (.unixEpoch, .read (.count "a/x" "v")),
    (.unixEpoch, .restart)]

theorem oldDir_values {name v : String} {vals : Values} {a : Attribute}
    (found : (OrderedMap.empty.insert "a/x" (OrderedMap.empty.insert "v" oldValue) : Stored).get name = some vals)
    (entry : vals.get v = some a) : name = "a/x" ∧ v = "v" ∧ a = oldValue := by
  rw [OrderedMap.get_insert] at found
  split_ifs at found with same
  · obtain rfl := Option.some.inj found
    rw [OrderedMap.get_insert] at entry
    split_ifs at entry with same'
    · exact ⟨same, same', (Option.some.inj entry).symm⟩
    · cases entry
  · cases found

theorem carried_fit {m : Machine} (started : eagerSetup.start oldDir .unixEpoch = some m) :
    eagerSetup.FitAll (OrderedMap.empty.insert "a/x" (OrderedMap.empty.insert "v" oldValue)) m carried := by
  obtain rfl : _ = m := Option.some.inj started
  refine ⟨List.Perm.refl ["a"], fun saved wrote => ⟨?_, fun _ _ => ⟨trivial, fun _ _ => ⟨trivial, fun _ _ => trivial⟩⟩⟩⟩
  obtain rfl : _ = saved := Option.some.inj wrote
  intro shard meta_ _ _ name mine known
  obtain ⟨vals, known⟩ := OrderedMap.contains_iff.mp known
  rw [OrderedMap.get_insert] at known
  split_ifs at known with same
  · subst same mine
    decide
  · cases known

theorem upgrading_keeps_carried : ∃ m m', eagerSetup.start oldDir .unixEpoch = some m ∧
    eagerSetup.run m carried = some m' ∧ ∃ ns b,
      (m'.db.namespace_ (.sound .sample m'.dir .unixEpoch) "a/x").2 = some ns ∧ ns.values.get "v" = some b ∧
        oldValue.Upgraded b := by
  obtain ⟨m, started, runs⟩ := (upgrading_keeps _).2.1 eagerSetup oldDir .unixEpoch oldDir_shards rfl (by
    intro name vals v a found entry
    obtain ⟨-, -, rfl⟩ := oldDir_values found entry
    exact oldValue_old)
  obtain ⟨m', ran, found⟩ := runs carried (carried_fit started)
  exact ⟨m, m', started, ran, found .unixEpoch "a/x" "v" _ oldValue rfl rfl⟩

/-- A save of what changed writes nothing after an upgrade, and what is then dropped has no
file to be read back from. -/
theorem upgraded_and_lost : ∃ m m', eagerSetup.start oldDir .unixEpoch = some m ∧
    eagerSetup.run m [(.unixEpoch, .save false ["a"]), (.unixEpoch, .evictIdle 0)] = some m' ∧
    (m.db.count (.sound .sample m.dir .unixEpoch) "a/x" "v").2 = 7 ∧
    (m'.db.count (.sound .sample m'.dir .unixEpoch) "a/x" "v").2 = 0 := by
  refine ⟨_, _, rfl, rfl, ?_, ?_⟩
  · decide
  · decide

end SightingDB
