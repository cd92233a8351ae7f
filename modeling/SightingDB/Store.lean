import SightingDB.Persistence

/-!
A database and its directory together. A namespace is held in memory, or in the file of
its shard when the shard has been evicted; what the two have to agree on is stated here
once, and every operation is shown to keep to it.
-/
namespace SightingDB

/-- The values of one namespace. -/
abbrev Values := OrderedMap String Attribute

/-- Values as a file holds them. -/
def onDisk (vals : Values) : Values := vals.mapValues fun _ a => a.stored

/-- Values as they are read back. -/
def readBack (node : String) (vals : Values) : Values := vals.mapValues fun _ a => a.migrate node

theorem fromValues_values (vals : Values) (node : String) :
    (Namespace.fromValues vals node).values = readBack node vals := rfl

section

variable (names : ShardFiles) (dir : Dir)

/-- What the file of a shard holds; nothing, when there is no file. -/
def fileOf (shard : String) : Stored := (dir.files.get (names.file shard)).elim ∅ (·.namespaces)

/-- What the database holds under a name, resident or evicted. -/
def held (db : Database) (name : String) : Option Values :=
  match db.namespaces.get name with
  | some ns => some ns.values
  | none =>
      if db.evicted (shardOf name) then ((fileOf names dir (shardOf name)).get name).map (readBack db.node)
      else none

/-- The file of a shard says what memory does. -/
def Clean (db : Database) (shard : String) : Prop :=
  ∀ name, shardOf name = shard →
    (db.namespaces.get name).map (fun ns => onDisk ns.values) =
      ((fileOf names dir shard).get name).map fun vals => onDisk (readBack db.node vals)

/-- Memory, catalogue, dirty set and files fit together, for the shards in play. A shard in
memory is dirty, clean or exempt; an evicted one is all in its file. -/
structure Consistent (exempt : String → Prop) (db : Database) : Prop where
  store : db.store = true
  own : ∀ shard snap, names.used shard → dir.files.get (names.file shard) = some snap →
    checkVersion snap.version = .ok () ∧ ∀ name vals, snap.namespaces.get name = some vals →
      shardOf name = shard
  clean : ∀ shard, names.used shard → ¬ exempt shard → db.dirty.contains shard = false →
    db.evicted shard = false → Clean names dir db shard
  gone : ∀ shard meta_, db.shards.get shard = some meta_ → meta_.resident = false →
    db.dirty.contains shard = false ∧ (∀ name, shardOf name = shard → db.namespaces.get name = none) ∧
      ∀ name, meta_.namespaces.contains name = ((fileOf names dir shard).get name).isSome
  listed : ∀ shard meta_, db.shards.get shard = some meta_ → meta_.resident = true →
    ∀ name, meta_.namespaces.contains name = (db.namespaces.contains name && shardOf name = shard)
  known : ∀ name, db.namespaces.contains name = true →
    ∃ meta_, db.shards.get (shardOf name) = some meta_ ∧ meta_.resident = true
  hot : db.evicted internalShard = false
  inPlay : ∀ shard meta_, db.shards.get shard = some meta_ → names.used shard
  marks : ∀ shard, db.dirty.contains shard = true → names.used shard

end

section Looking

variable {names : ShardFiles} {dir : Dir} {db : Database} {exempt : String → Prop} {now : DateTime}

theorem fileOf_own (consistent : Consistent names dir exempt db) {shard name : String} {vals : Values}
    (used : names.used shard) (found : (fileOf names dir shard).get name = some vals) :
    shardOf name = shard := by
  simp only [fileOf] at found
  cases file : dir.files.get (names.file shard) with
  | none => simp [file] at found
  | some snap => exact (consistent.own shard snap used file).2 name vals (by simpa [file] using found)

theorem readShardFile_eq (consistent : Consistent names dir exempt db) {shard : String}
    (used : names.used shard) :
    readShardFile names dir (fun _ => true) shard = some (fileOf names dir shard) := by
  simp only [readShardFile, fileOf]
  cases file : dir.files.get (names.file shard) with
  | none => rfl
  | some snap => simp [(consistent.own shard snap used file).1, Except.toOption]

theorem evicted_iff {shard : String} : db.evicted shard = true ↔
    ∃ meta_, db.shards.get shard = some meta_ ∧ meta_.resident = false := by
  simp only [Database.evicted]
  cases db.shards.get shard <;> simp

theorem not_evicted_of_resident {shard : String} {meta_ : ShardMeta}
    (found : db.shards.get shard = some meta_) (resident : meta_.resident = true) :
    db.evicted shard = false := by
  simp [Database.evicted, found, resident]

/-- A change within one shard: what the catalogue and memory say of it afterwards. -/
structure ChangesShard (names : ShardFiles) (dir : Dir) (exempt : String → Prop) (db db' : Database) (shard : String)
    (meta_ : ShardMeta) : Prop where
  store : db'.store = db.store
  dirty : db'.dirty = db.dirty
  node : db'.node = db.node
  used : names.used shard
  entry : db'.shards.get shard = some meta_
  others : ∀ k, k ≠ shard → db'.shards.get k = db.shards.get k
  outside : ∀ name, shardOf name ≠ shard → db'.namespaces.get name = db.namespaces.get name
  clean : meta_.resident = true → ¬ exempt shard → db.dirty.contains shard = false → Clean names dir db' shard
  gone : meta_.resident = false → db.dirty.contains shard = false ∧
    (∀ name, shardOf name = shard → db'.namespaces.get name = none) ∧
      ∀ name, meta_.namespaces.contains name = ((fileOf names dir shard).get name).isSome
  listed : meta_.resident = true → ∀ name, meta_.namespaces.contains name =
    (db'.namespaces.contains name && shardOf name = shard)
  hot : shard = internalShard → meta_.resident = true

theorem ChangesShard.evicted {db' : Database} {shard : String} {meta_ : ShardMeta}
    (changes : ChangesShard names dir exempt db db' shard meta_) (k : String) :
    db'.evicted k = if k = shard then !meta_.resident else db.evicted k := by
  by_cases same : k = shard
  · subst same
    simp [Database.evicted, changes.entry]
  · simp [Database.evicted, changes.others k same, same]

/-- A change within one shard keeps everything in its place if it does so in that shard. -/
theorem Consistent.changes {exempt' : String → Prop} {db' : Database} {shard : String} {meta_ : ShardMeta}
    (consistent : Consistent names dir exempt db) (changes : ChangesShard names dir exempt' db db' shard meta_)
    (more : ∀ k, k ≠ shard → exempt k → exempt' k) : Consistent names dir exempt' db' where
  store := changes.store.trans consistent.store
  own := consistent.own
  clean k used notExempt clean here := by
    rw [changes.dirty] at clean
    rw [changes.evicted] at here
    by_cases same : k = shard
    · subst same
      exact changes.clean (by simpa using here) notExempt clean
    · rw [if_neg same] at here
      intro name mine
      rw [changes.outside name (mine ▸ same), changes.node]
      exact consistent.clean k used (fun free => notExempt (more k same free)) clean here name mine
  gone k meta' found away := by
    rw [changes.dirty]
    by_cases same : k = shard
    · subst same
      obtain rfl := Option.some.inj (changes.entry.symm.trans found)
      exact changes.gone away
    · obtain ⟨clean, absent, catalogue⟩ := consistent.gone k meta' ((changes.others k same).symm.trans found) away
      refine ⟨clean, fun name mine => ?_, catalogue⟩
      rw [changes.outside name (mine ▸ same)]
      exact absent name mine
  listed k meta' found resident name := by
    by_cases same : k = shard
    · subst same
      obtain rfl := Option.some.inj (changes.entry.symm.trans found)
      exact changes.listed resident name
    · rw [consistent.listed k meta' ((changes.others k same).symm.trans found) resident name]
      by_cases mine : shardOf name = k
      · simp only [OrderedMap.contains, changes.outside name (mine ▸ same)]
      · simp [mine]
  known name present := by
    by_cases mine : shardOf name = shard
    · refine ⟨meta_, mine ▸ changes.entry, ?_⟩
      cases resident : meta_.resident with
      | true => rfl
      | false =>
          rw [OrderedMap.contains, (changes.gone resident).2.1 name mine] at present
          cases present
    · rw [changes.others _ mine]
      rw [OrderedMap.contains, changes.outside name mine] at present
      exact consistent.known name present
  hot := by
    rw [changes.evicted]
    split_ifs with same
    · simp [changes.hot same.symm]
    · exact consistent.hot
  inPlay k meta' found := by
    by_cases same : k = shard
    · rw [same]
      exact changes.used
    · exact consistent.inPlay k meta' ((changes.others k same).symm.trans found)
  marks k marked := by
    rw [changes.dirty] at marked
    exact consistent.marks k marked

@[simp] theorem evicted_touch (w : World) (shard k : String) :
    (db.touch w shard).evicted k = db.evicted k := by
  simp only [Database.evicted, Database.touch_shards]
  cases db.shards.get k with
  | none => rfl
  | some meta_ => simp only [Option.map_some]; split_ifs <;> rfl

theorem held_touch (w : World) (shard name : String) :
    held names dir (db.touch w shard) name = held names dir db name := by
  simp [held]

theorem Consistent.touch (consistent : Consistent names dir exempt db) (w : World) (shard : String) :
    Consistent names dir exempt (db.touch w shard) where
  store := by simp [consistent.store]
  own := consistent.own
  clean k used notExempt clean resident := by
    rw [Database.touch_dirty] at clean
    rw [evicted_touch] at resident
    simpa [Clean] using consistent.clean k used notExempt clean resident
  gone k meta_ found away := by
    rw [Database.touch_shards, Option.map_eq_some_iff] at found
    obtain ⟨old, before, rfl⟩ := found
    split_ifs at away ⊢
    all_goals simpa using consistent.gone k old before away
  listed k meta_ found resident := by
    rw [Database.touch_shards, Option.map_eq_some_iff] at found
    obtain ⟨old, before, rfl⟩ := found
    split_ifs at resident ⊢
    all_goals simpa using consistent.listed k old before resident
  known name present := by
    rw [Database.touch_namespaces] at present
    obtain ⟨meta_, found, resident⟩ := consistent.known name present
    rw [Database.touch_shards, found, Option.map_some]
    refine ⟨_, rfl, ?_⟩
    split_ifs <;> exact resident
  hot := by simp [consistent.hot]
  inPlay k meta_ found := by
    rw [Database.touch_shards, Option.map_eq_some_iff] at found
    obtain ⟨old, before, _⟩ := found
    exact consistent.inPlay k old before
  marks := by simpa using consistent.marks

/-- What an operation may do that only looks: bring shards back, and nothing else. -/
structure Looks (names : ShardFiles) (dir : Dir) (exempt : String → Prop) (db db' : Database) : Prop where
  consistent : Consistent names dir exempt db'
  node : db'.node = db.node
  policy : db'.policy = db.policy
  dirty : db'.dirty = db.dirty
  held : held names dir db' = held names dir db
  stays : ∀ shard, db.evicted shard = false → db'.evicted shard = false

theorem Looks.refl (consistent : Consistent names dir exempt db) : Looks names dir exempt db db :=
  ⟨consistent, rfl, rfl, rfl, rfl, fun _ here => here⟩

theorem Looks.trans {db' db'' : Database} (first : Looks names dir exempt db db')
    (second : Looks names dir exempt db' db'') : Looks names dir exempt db db'' :=
  ⟨second.consistent, second.node.trans first.node, second.policy.trans first.policy,
    second.dirty.trans first.dirty, second.held.trans first.held,
    fun shard here => second.stays shard (first.stays shard here)⟩

theorem Looks.touch (consistent : Consistent names dir exempt db) (w : World) (shard : String) :
    Looks names dir exempt db (db.touch w shard) where
  consistent := consistent.touch w shard
  node := by simp
  policy := by rw [Database.touch_ignores]
  dirty := by simp
  held := funext (held_touch w shard)
  stays := by simp

/-- The database after an evicted shard is read back. -/
def Database.pagedIn (db : Database) (names : ShardFiles) (dir : Dir) (now : DateTime) (shard : String)
    (meta_ : ShardMeta) : Database :=
  let data := fileOf names dir shard
  { db with
    namespaces := extend db.namespaces (data.mapValues fun _ values => .fromValues values db.node)
    shards := db.shards.insert shard
      ⟨data.keys.foldl (fun set name => set.insert name ()) meta_.namespaces, true, now.timestamp⟩ }

theorem pageIn_eq (consistent : Consistent names dir exempt db) {shard : String} {meta_ : ShardMeta}
    (found : db.shards.get shard = some meta_) (away : meta_.resident = false) :
    db.pageIn (.sound names dir now) shard = some (db.pagedIn names dir now shard meta_) := by
  have readable : readShardFile names dir (World.sound names dir now).readable shard =
      some (fileOf names dir shard) := readShardFile_eq consistent (consistent.inPlay shard meta_ found)
  have store := consistent.store
  simp only [Database.pageIn, found, World.sound] at readable ⊢
  simp [readable, away, store, Database.pagedIn]

section PagedIn

variable {shard : String} {meta_ : ShardMeta}

theorem pagedIn_get (consistent : Consistent names dir exempt db)
    (found : db.shards.get shard = some meta_) (away : meta_.resident = false) (now : DateTime) (name : String) :
    (db.pagedIn names dir now shard meta_).namespaces.get name =
      if shardOf name = shard then ((fileOf names dir shard).get name).map fun v => .fromValues v db.node
      else db.namespaces.get name := by
  simp only [Database.pagedIn, get_extend, OrderedMap.get_mapValues]
  split_ifs with mine
  · rw [(consistent.gone shard meta_ found away).2.1 name mine, Option.or_none]
  · have absent : (fileOf names dir shard).get name = none := by
      cases inFile : (fileOf names dir shard).get name with
      | none => rfl
      | some vals => exact absurd (fileOf_own consistent (consistent.inPlay _ meta_ found) inFile) mine
    rw [absent, Option.map_none, Option.none_or]

theorem pagedIn_evicted (k : String) :
    (db.pagedIn names dir now shard meta_).evicted k = (decide (k ≠ shard) && db.evicted k) := by
  simp only [Database.evicted, Database.pagedIn, OrderedMap.get_insert]
  by_cases same : k = shard <;> simp [same]

/-- The file's namespaces are the shard's, and the catalogue lists them. -/
theorem pagedIn_changes (consistent : Consistent names dir exempt db)
    (found : db.shards.get shard = some meta_) (away : meta_.resident = false) (now : DateTime) :
    ChangesShard names dir exempt db (db.pagedIn names dir now shard meta_) shard
      ⟨(fileOf names dir shard).keys.foldl (fun set name => set.insert name ()) meta_.namespaces, true, now.timestamp⟩ where
  store := rfl
  dirty := rfl
  node := rfl
  used := consistent.inPlay shard meta_ found
  entry := OrderedMap.get_insert_self _ _ _
  others k other := by simp [Database.pagedIn, OrderedMap.get_insert, other]
  outside name other := by rw [pagedIn_get consistent found away now name, if_neg other]
  clean _ _ _ name mine := by
    rw [pagedIn_get consistent found away now name, if_pos mine, Option.map_map]
    rfl
  gone away' := by cases away'
  listed _ name := by
    obtain ⟨_, _, catalogue⟩ := consistent.gone shard meta_ found away
    rw [OrderedMap.contains_foldl_insert, catalogue, OrderedMap.contains, pagedIn_get consistent found away now name]
    have file : (decide (name ∈ (fileOf names dir shard).keys) : Bool) = ((fileOf names dir shard).get name).isSome := by
      rw [Bool.eq_iff_iff, decide_eq_true_iff, OrderedMap.mem_keys, Option.isSome_iff_exists]
    rw [file, Bool.or_self]
    by_cases mine : shardOf name = shard
    · simp [mine]
    · cases inFile : (fileOf names dir shard).get name with
      | none => simp [mine]
      | some vals => exact absurd (fileOf_own consistent (consistent.inPlay _ meta_ found) inFile) mine
  hot _ := rfl

theorem Looks.pagedIn (consistent : Consistent names dir exempt db)
    (found : db.shards.get shard = some meta_) (away : meta_.resident = false) (now : DateTime) :
    Looks names dir exempt db (db.pagedIn names dir now shard meta_) := by
  have get := pagedIn_get consistent found away now
  have absent := (consistent.gone shard meta_ found away).2.1
  have wasEvicted : db.evicted shard = true := evicted_iff.mpr ⟨meta_, found, away⟩
  refine ⟨consistent.changes (pagedIn_changes consistent found away now) fun _ _ => id, rfl, rfl, rfl, ?_, ?_⟩
  · funext name
    simp only [SightingDB.held, get, pagedIn_evicted]
    by_cases mine : shardOf name = shard
    · rw [if_pos mine, absent name mine, mine, wasEvicted]
      cases (fileOf names dir shard).get name <;> simp [fromValues_values]
    · rw [if_neg mine]
      simp [mine, Database.pagedIn]
  · intro k here
    rw [pagedIn_evicted, here, Bool.and_false]

end PagedIn

/-- Fetching a namespace finds what is held, and brings it into memory. -/
theorem namespace_spec (consistent : Consistent names dir exempt db) (now : DateTime) (name : String) :
    Looks names dir exempt db (db.namespace_ (.sound names dir now) name).1 ∧
      (db.namespace_ (.sound names dir now) name).2 =
        (db.namespace_ (.sound names dir now) name).1.namespaces.get name ∧
      ((db.namespace_ (.sound names dir now) name).2.map (·.values) = held names dir db name) := by
  have touched := Looks.touch consistent (.sound names dir now) (shardOf name)
  simp only [Database.namespace_, Database.touch_namespaces]
  cases resident : db.namespaces.get name with
  | some ns => exact ⟨touched, by simp [resident], by simp [held, resident]⟩
  | none =>
      have catalogued : (db.touch (.sound names dir now) (shardOf name)).catalogued (shardOf name) name =
          (db.evicted (shardOf name) && ((fileOf names dir (shardOf name)).get name).isSome) := by
        simp only [Database.catalogued, Database.touch_shards]
        cases found : db.shards.get (shardOf name) with
        | none => simp [Database.evicted, found]
        | some meta_ =>
            by_cases away : meta_.resident = false
            · simp [Database.evicted, found, away, (consistent.gone _ meta_ found away).2.2 name]
            · simp [Database.evicted, found, away]
      simp only [catalogued]
      cases away : db.evicted (shardOf name) with
      | false => exact ⟨touched, by simp [resident], by simp [held, resident, away]⟩
      | true =>
          cases inFile : (fileOf names dir (shardOf name)).get name with
          | none => exact ⟨touched, by simp [resident], by simp [held, resident, away, inFile]⟩
          | some vals =>
              have away' : (db.touch (.sound names dir now) (shardOf name)).evicted (shardOf name) = true := by
                rw [evicted_touch, away]
              obtain ⟨meta_, found, notHere⟩ := evicted_iff.mp away'
              have paged := Looks.pagedIn touched.consistent found notHere now
              have get := pagedIn_get touched.consistent found notHere now name
              rw [if_pos rfl, inFile, Option.map_some] at get
              simp only [Bool.true_and, Option.isSome_some, Bool.not_true, Bool.false_eq_true, if_false,
                pageIn_eq touched.consistent found notHere, get, true_and]
              refine ⟨touched.trans paged, ?_⟩
              simp [held, resident, away, inFile, fromValues_values]

/-- Counting is looking. -/
theorem count_looks (consistent : Consistent names dir exempt db) (now : DateTime) (path value : String) :
    Looks names dir exempt db (db.count (.sound names dir now) path value).1 := by
  have fetched := (namespace_spec consistent now path).1
  simp only [Database.count]
  revert fetched
  rcases db.namespace_ (.sound names dir now) path with ⟨db', _ | ns⟩
  · exact id
  · exact id

end Looking

/-! ## Changing one namespace -/

section Changing

variable {names : ShardFiles} {dir : Dir} {db : Database} {exempt : String → Prop} {now : DateTime}

theorem Consistent.weaken {exempt' : String → Prop} (consistent : Consistent names dir exempt db)
    (more : ∀ shard, exempt shard → exempt' shard) : Consistent names dir exempt' db :=
  { consistent with
    clean := fun shard used notExempt => consistent.clean shard used fun e => notExempt (more shard e) }

/-- Marking a shard takes it out of the exempt ones. -/
theorem Consistent.markDirty {name : String}
    (consistent : Consistent names dir (fun shard => exempt shard ∨ shard = shardOf name) db)
    (resident : db.evicted (shardOf name) = false) (used : names.used (shardOf name)) :
    Consistent names dir exempt (db.markDirty name) := by
  have dirty : ∀ shard, (db.markDirty name).dirty.contains shard = (decide (shard = shardOf name) ||
      db.dirty.contains shard) := by
    intro shard
    by_cases same : shard = shardOf name
    · simp [Database.markDirty, Database.markShardDirty, OrderedMap.contains, same]
    · simp [Database.markDirty, Database.markShardDirty, OrderedMap.contains, OrderedMap.get_insert, same]
  refine ⟨consistent.store, consistent.own, ?_, ?_, consistent.listed, consistent.known, consistent.hot,
    consistent.inPlay, ?_⟩
  · intro shard used notExempt clean here
    rw [dirty] at clean
    have other : shard ≠ shardOf name := by
      rintro rfl
      simp at clean
    refine consistent.clean shard used (not_or.mpr ⟨notExempt, other⟩) (by simpa [other] using clean) here
  · intro shard meta_ found away
    obtain ⟨clean, rest⟩ := consistent.gone shard meta_ found away
    have other : shard ≠ shardOf name := by
      rintro rfl
      have wasEvicted : db.evicted (shardOf name) = true := evicted_iff.mpr ⟨meta_, found, away⟩
      rw [wasEvicted] at resident
      cases resident
    refine ⟨?_, rest⟩
    rw [dirty]
    simp [other, clean]
  · intro shard marked
    rw [dirty] at marked
    by_cases same : shard = shardOf name
    · rw [same]
      exact used
    · exact consistent.marks shard (by simpa [same] using marked)

theorem Consistent.evicted_of_present (consistent : Consistent names dir exempt db) {name : String}
    (present : db.namespaces.contains name = true) : db.evicted (shardOf name) = false := by
  obtain ⟨meta_, found, resident⟩ := consistent.known name present
  exact not_evicted_of_resident found resident

theorem Consistent.used_of_present (consistent : Consistent names dir exempt db) {name : String}
    (present : db.namespaces.contains name = true) : names.used (shardOf name) := by
  obtain ⟨meta_, found, _⟩ := consistent.known name present
  exact consistent.inPlay _ meta_ found

/-- Writing through a handle makes the shard's file out of date, at worst. -/
theorem Consistent.put (consistent : Consistent names dir exempt db) {name : String}
    (present : db.namespaces.contains name = true) (ns : Namespace) :
    Consistent names dir (fun shard => exempt shard ∨ shard = shardOf name) (db.put name ns) := by
  have contains : ∀ k, (db.put name ns).namespaces.contains k = db.namespaces.contains k := by
    intro k
    by_cases same : k = name
    · subst same
      simp only [Database.put, OrderedMap.contains, OrderedMap.get_insert_self]
      exact present.symm
    · simp [Database.put, OrderedMap.contains, OrderedMap.get_insert, same]
  refine ⟨consistent.store, consistent.own, ?_, ?_, ?_, ?_, consistent.hot, consistent.inPlay,
    consistent.marks⟩
  · intro shard used notExempt clean here k mine
    rw [not_or] at notExempt
    have other : k ≠ name := by
      rintro rfl
      exact notExempt.2 mine.symm
    simpa [Database.put, OrderedMap.get_insert, other] using
      consistent.clean shard used notExempt.1 clean here k mine
  · intro shard meta_ found away
    obtain ⟨clean, absent, catalogue⟩ := consistent.gone shard meta_ found away
    refine ⟨clean, fun k mine => ?_, catalogue⟩
    have gone : (db.put name ns).namespaces.contains k = false := by
      rw [contains, OrderedMap.not_contains_iff]
      exact absent k mine
    exact OrderedMap.not_contains_iff.mp gone
  · intro shard meta_ found resident k
    rw [contains]
    exact consistent.listed shard meta_ found resident k
  · intro k here
    rw [contains] at here
    exact consistent.known k here

theorem held_put (name : String) (ns : Namespace) (k : String) :
    held names dir (db.put name ns) k = if k = name then some ns.values else held names dir db k := by
  by_cases same : k = name
  · simp [held, Database.put, same]
  · have get : (db.put name ns).namespaces.get k = db.namespaces.get k := by
      simp [Database.put, OrderedMap.get_insert, same]
    simp only [held, get, if_neg same]
    rfl

/-- A namespace registered in a shard that is in memory or unknown. -/
theorem Consistent.register (consistent : Consistent names dir exempt db) {name : String}
    (used : names.used (shardOf name)) (here : db.evicted (shardOf name) = false) (at_ : Int)
    (ns : Namespace) :
    Consistent names dir (fun shard => exempt shard ∨ shard = shardOf name)
      { db with
        namespaces := db.namespaces.insert name ns
        shards := Database.catalogue db.shards name at_ } := by
  have listing : ∀ k, ((db.shards.get (shardOf name)).getD .default).namespaces.contains k =
      (db.namespaces.contains k && decide (shardOf k = shardOf name)) := by
    intro k
    cases found : db.shards.get (shardOf name) with
    | some meta_ =>
        have resident : meta_.resident = true := by simpa [Database.evicted, found] using here
        exact consistent.listed _ meta_ found resident k
    | none =>
        cases present : db.namespaces.contains k with
        | false => simp [ShardMeta.default, OrderedMap.contains]
        | true =>
            obtain ⟨meta_, known, _⟩ := consistent.known k present
            have other : shardOf k ≠ shardOf name := by
              intro same
              rw [same, found] at known
              cases known
            simp [ShardMeta.default, OrderedMap.contains, other]
  refine @Consistent.changes names dir db exempt _ _ (shardOf name) _ consistent
    ⟨rfl, rfl, rfl, used, OrderedMap.get_insert_self _ _ _, ?_, ?_, ?_, ?_, ?_, fun _ => rfl⟩ fun _ _ => .inl
  · intro k other
    simp [Database.catalogue, OrderedMap.get_insert, other]
  · intro k other
    have apart : k ≠ name := fun same => other (congrArg shardOf same)
    simp [OrderedMap.get_insert, apart]
  · exact fun _ notExempt => absurd (.inr rfl) notExempt
  · intro away
    cases away
  · intro _ k
    have inserted := listing k
    simp only [OrderedMap.contains, OrderedMap.get_insert] at inserted ⊢
    by_cases same : k = name
    · simp [same]
    · simpa [same] using inserted

/-- What opening a namespace gives: its values as they are held, made when they are not. -/
structure Opens (names : ShardFiles) (dir : Dir) (exempt : String → Prop) (db : Database) (name : String)
    (db' : Database) (ns : Namespace) : Prop where
  consistent : Consistent names dir (fun shard => exempt shard ∨ shard = shardOf name) db'
  existing : (held names dir db name).isSome = true → Consistent names dir exempt db'
  handle : db'.namespaces.get name = some ns
  values : ns.values = (held names dir db name).getD ∅
  held : ∀ k, held names dir db' k = if k = name then some ns.values else held names dir db k
  node : db'.node = db.node
  policy : db'.policy = db.policy
  dirty : db'.dirty = db.dirty
  stays : ∀ shard, db.evicted shard = false → db'.evicted shard = false

theorem held_absent {name : String}
    (nothing : held names dir db name = none) : db.namespaces.get name = none := by
  cases found : db.namespaces.get name with
  | none => rfl
  | some ns => simp [held, found] at nothing

theorem namespaceOrCreate_spec (consistent : Consistent names dir exempt db) (now : DateTime)
    {name : String} (used : names.used (shardOf name)) :
    Opens names dir exempt db name (db.namespaceOrCreate (.sound names dir now) name).1
      (db.namespaceOrCreate (.sound names dir now) name).2 := by
  obtain ⟨looked, result, values⟩ := namespace_spec consistent now name
  simp only [Database.namespaceOrCreate]
  revert looked result values
  rcases db.namespace_ (.sound names dir now) name with ⟨db₁, _ | ns⟩
  · intro looked result values
    have nothing : held names dir db name = none := values.symm
    dsimp only at looked result ⊢
    -- The rest of an evicted shard comes back before the catalogue says it is in memory.
    have loaded : ∃ db₂, (if db₁.evicted (shardOf name) then (db₁.pageIn (.sound names dir now)
        (shardOf name)).getD db₁ else db₁) = db₂ ∧ Looks names dir exempt db db₂ ∧
        db₂.evicted (shardOf name) = false := by
      cases away : db₁.evicted (shardOf name) with
      | false => exact ⟨db₁, rfl, looked, away⟩
      | true =>
          obtain ⟨meta_, found, notHere⟩ := evicted_iff.mp away
          refine ⟨_, rfl, ?_, ?_⟩
          · rw [if_pos rfl, pageIn_eq looked.consistent found notHere]
            exact looked.trans (Looks.pagedIn looked.consistent found notHere now)
          · rw [if_pos rfl, pageIn_eq looked.consistent found notHere, Option.getD_some, pagedIn_evicted]
            simp
    obtain ⟨db₂, same, looked₂, here⟩ := loaded
    rw [same]
    have absent : db₂.namespaces.get name = none :=
      held_absent ((congrFun looked₂.held name).trans nothing)
    rw [absent, Option.getD_none]
    have residents : ∀ k, Database.evicted { db₂ with
        namespaces := db₂.namespaces.insert name Namespace.empty
        shards := Database.catalogue db₂.shards name (World.sound names dir now).now.timestamp } k =
          (decide (k ≠ shardOf name) && db₂.evicted k) := by
      intro k
      by_cases same : k = shardOf name
      · simp [Database.evicted, Database.catalogue, same]
      · simp [Database.evicted, Database.catalogue, OrderedMap.get_insert, same]
    refine ⟨looked₂.consistent.register used here _ _, ?_, OrderedMap.get_insert_self _ _ _, ?_, ?_,
      looked₂.node, looked₂.policy, looked₂.dirty, ?_⟩
    · intro some
      rw [nothing] at some
      cases some
    · rw [nothing]
      rfl
    · intro k
      by_cases same : k = name
      · simp [SightingDB.held, same]
      · rw [if_neg same, ← looked₂.held]
        have get : (db₂.namespaces.insert name Namespace.empty).get k = db₂.namespaces.get k := by
          simp [OrderedMap.get_insert, same]
        simp only [SightingDB.held, get]
        cases db₂.namespaces.get k with
        | some ns => rfl
        | none =>
            rw [residents]
            by_cases sameShard : shardOf k = shardOf name
            · simp [sameShard, here]
            · simp [sameShard]
    · intro k stayed
      rw [residents, looked₂.stays k stayed, Bool.and_false]
  · intro looked result values
    dsimp only at looked result values ⊢
    have found : held names dir db name = some ns.values := values.symm
    refine ⟨looked.consistent.weaken fun _ e => .inl e, fun _ => looked.consistent, result.symm, ?_, ?_,
      looked.node, looked.policy, looked.dirty, looked.stays⟩
    · rw [found]
      rfl
    · intro k
      rw [looked.held]
      split_ifs with same
      · rw [same, found]
      · rfl

end Changing

end SightingDB
