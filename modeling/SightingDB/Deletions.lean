import SightingDB.FaultyReads

/-!
What a server has deleted or swept, and what a later load finds of it. A deletion marks its
shard, so the next save takes the namespace out of the shard's file; the single-file
snapshot of an older version is read by every load and written by no save.
-/
namespace SightingDB

/-- An item that is not in memory, will not be paged in, and is in its shard's file only as
long as that has still to be rewritten. -/
structure Forgotten (names : ShardFiles) (item : Item) (m : Machine) : Prop where
  placed : Placed names m
  memory : item.inMemory m.db = false
  file : item.inStored (fileOf names m.dir (shardOf item.name)) = true →
    m.db.dirty.contains (shardOf item.name) = true
  away : m.db.evicted (shardOf item.name) = true →
    item.inStored (fileOf names m.dir (shardOf item.name)) = false

section Forgotten

variable {names : ShardFiles} {dir : Dir} {db db' : Database} {t : Moment} {adds drops : Item → Prop} {blind : Prop}
  {item : Item}

/-- A move that may not bring the item in leaves it out. -/
theorem Forgotten.absent (forgotten : Forgotten names item ⟨db, dir⟩)
    (move : Move (t.world names dir) adds drops blind db db') (avoids : ¬ adds item) : item.inMemory db' = false := by
  have out : ∀ ns, db.namespaces.get item.name = some ns → item.within ns.values = false := by
    intro ns held
    have absent := forgotten.memory
    rwa [Item.inMemory, held] at absent
  have absent : db'.namespaces.get item.name = db.namespaces.get item.name → item.inMemory db' = false := by
    intro same
    rw [Item.inMemory, same]
    exact forgotten.memory
  cases move with
  | touch shard => exact absent (by simp)
  | @pageIn _ shard away paged =>
      rcases pageIn_cases paged with rfl | ⟨data, read, namespaces, _⟩
      · exact forgotten.memory
      · obtain rfl : data = fileOf names dir shard := fileOf_of_read read
        rw [Item.inMemory, namespaces, get_extend, OrderedMap.get_mapValues]
        cases inFile : (fileOf names dir shard).get item.name with
        | none => exact forgotten.memory
        | some vals =>
            have mine := forgotten.placed.dir.fileOf_own (forgotten.placed.used_of_evicted away) inFile
            subst mine
            have lacking := forgotten.away away
            rw [Item.inStored, inFile] at lacking
            simpa [fromValues_values, item.within_readBack] using lacking
  | @register name allowed here =>
      by_cases mine : item.name = name
      · subst mine
        rcases Option.eq_none_or_eq_some (db.namespaces.get item.name) with held | ⟨ns, held⟩
        · cases item with
          | namespace_ name => exact absurd allowed avoids
          | value name v => simp [Item.inMemory, held, Item.within, Namespace.empty, OrderedMap.contains]
        · exact absent (by simp [held])
      · exact absent (by simp [OrderedMap.get_insert, mine])
  | @put name ns ns' held gains loses =>
      by_cases mine : item.name = name
      · subst mine
        have lacking := out ns held
        cases item with
        | namespace_ name => cases lacking
        | value name v =>
            cases has : ns'.values.contains v with
            | false => simp [Item.inMemory, Item.name, Database.put, Item.within, has]
            | true =>
                rcases gains v has with before | brought
                · exact absurd (before.symm.trans lacking) (by decide)
                · exact absurd brought avoids
      · exact absent (by simp [Database.put, OrderedMap.get_insert, mine])
  | mark held => exact absent rfl
  | @erase name allowed =>
      by_cases mine : item.name = name
      · simp [Item.inMemory, mine]
      · exact absent (by simp [OrderedMap.get_erase, mine])
  | uncatalogue name => exact absent (by simp)

theorem Forgotten.moves (forgotten : Forgotten names item ⟨db, dir⟩)
    (moves : Moves (t.world names dir) adds drops blind db db') (avoids : ¬ adds item)
    (play : ∀ item, adds item → names.used (shardOf item.name)) : Forgotten names item ⟨db', dir⟩ := by
  induction moves with
  | refl => exact forgotten
  | tail _ move ih =>
      exact ⟨ih.placed.move move play, ih.absent move avoids, fun filed => move.dirty (ih.file filed),
        fun gone => ih.away (move.evicted gone)⟩

theorem Forgotten.evict {shard : String} (forgotten : Forgotten names item ⟨db, dir⟩)
    (listed : ∃ meta_, db.shards.get shard = some meta_) (other : shard ≠ internalShard) :
    Forgotten names item ⟨evictedDb db shard, evictedDir names db dir shard⟩ ∧
      (item.inStored (fileOf names dir (shardOf item.name)) = false →
        item.inStored (fileOf names (evictedDir names db dir shard) (shardOf item.name)) = false) := by
  have placed := forgotten.placed.evict listed other
  have evicted := evicted_evictedDb listed (shardOf item.name)
  obtain ⟨meta_, found⟩ := listed
  have used := forgotten.placed.catalogue shard meta_ found
  -- What was just written from memory lacks the item, and what was not marked lacked it.
  have lacks : shardOf item.name = shard →
      item.inStored (fileOf names (evictedDir names db dir shard) (shardOf item.name)) = false := by
    intro mine
    rw [fileOf_evictedDir used (mine ▸ used)]
    split_ifs with both
    · rw [← both.1, item.inStored_shardSnapshot]
      exact forgotten.memory
    · cases filed : item.inStored (fileOf names dir (shardOf item.name)) with
      | false => rfl
      | true => exact absurd ⟨mine, mine ▸ forgotten.file filed⟩ both
  have kept : shardOf item.name ≠ shard →
      item.inStored (fileOf names (evictedDir names db dir shard) (shardOf item.name)) = true →
      item.inStored (fileOf names dir (shardOf item.name)) = true := by
    intro apart filed
    obtain ⟨vals, inFile, _⟩ := Item.inStored_iff.mp filed
    rwa [fileOf_evictedDir used (placed.dir.used_of_filed inFile), if_neg fun both => apart both.1] at filed
  have clean : item.inStored (fileOf names dir (shardOf item.name)) = false →
      item.inStored (fileOf names (evictedDir names db dir shard) (shardOf item.name)) = false := by
    intro before
    by_cases mine : shardOf item.name = shard
    · exact lacks mine
    · cases filed : item.inStored (fileOf names (evictedDir names db dir shard) (shardOf item.name)) with
      | false => rfl
      | true => exact (kept mine filed).symm.trans before
  refine ⟨⟨placed, ?_, fun filed => ?_, fun gone => ?_⟩, clean⟩
  · rw [Item.inMemory, get_evictedDb]
    split_ifs
    · rfl
    · exact forgotten.memory
  · by_cases mine : shardOf item.name = shard
    · rw [lacks mine] at filed
      cases filed
    · change (db.dirty.erase shard).contains _ = true
      simpa [OrderedMap.contains, OrderedMap.get_erase, mine] using forgotten.file (kept mine filed)
  · by_cases mine : shardOf item.name = shard
    · exact lacks mine
    · rw [evicted] at gone
      exact clean (forgotten.away (by simpa [mine] using gone))

/-- A save takes the item out of the file. -/
theorem Forgotten.save {m m' : Machine} {now : DateTime} {order : List String} (forgotten : Forgotten names item m)
    (stepped : m.step names now (.save order) = some m') :
    Forgotten names item m' ∧ item.inStored (fileOf names m'.dir (shardOf item.name)) = false := by
  obtain ⟨placed, same, _, rewritten⟩ := forgotten.placed.save stepped
  have lacks : item.inStored (fileOf names m'.dir (shardOf item.name)) = false := by
    cases filed : item.inStored (fileOf names m'.dir (shardOf item.name)) with
    | false => rfl
    | true =>
        obtain ⟨vals, inFile, _⟩ := Item.inStored_iff.mp filed
        have used := placed.dir.used_of_filed inFile
        by_cases marked : m.db.dirty.contains (shardOf item.name) = true
        · rw [item.inStored_rewritten rewritten used marked, forgotten.memory] at filed
          exact filed.symm
        · rw [rewritten.fileOf_same used marked] at filed
          exact absurd (forgotten.file filed) marked
  refine ⟨⟨placed, ?_, fun filed => ?_, fun _ => lacks⟩, lacks⟩
  · rw [same]
    exact forgotten.memory
  · rw [lacks] at filed
    cases filed

end Forgotten

/-! ## Runs -/

namespace Machine

variable {names : ShardFiles} {item : Item}

theorem stepAmid_forgotten {m m' : Machine} {t : Moment} {act : Act} (forgotten : Forgotten names item m)
    (play : act.InPlay names) (avoids : ¬ act.adds item) (stepped : m.stepAmid names t act = some m') :
    Forgotten names item m' ∧ (item.inStored (fileOf names m.dir (shardOf item.name)) = false →
      item.inStored (fileOf names m'.dir (shardOf item.name)) = false) := by
  rcases stepAmid_cases stepped with ⟨order, rfl, saved⟩ | ⟨at_, rfl, evicted⟩ | ⟨same, moves⟩
  · exact (forgotten.save saved).imp_right fun lacks _ => lacks
  · refine @evictIdle_induction names (fun m' => Forgotten names item m' ∧
      (item.inStored (fileOf names m.dir (shardOf item.name)) = false →
        item.inStored (fileOf names m'.dir (shardOf item.name)) = false)) t.now at_ ?_ m m' evicted ⟨forgotten, id⟩
    rintro db dir s listed other ⟨forgotten', kept⟩
    exact (forgotten'.evict listed other).imp_right fun clean before => clean (kept before)
  · obtain ⟨db', dir'⟩ := m'
    obtain rfl : dir' = m.dir := same
    exact ⟨forgotten.moves moves avoids play, id⟩

/-- No step touches the single-file snapshot. -/
theorem stepAmid_placed {m m' : Machine} {t : Moment} {act : Act} (placed : Placed names m) (play : act.InPlay names)
    (stepped : m.stepAmid names t act = some m') : Placed names m' ∧ m'.dir.legacy = m.dir.legacy := by
  rcases stepAmid_cases stepped with ⟨order, rfl, saved⟩ | ⟨at_, rfl, evicted⟩ | ⟨same, moves⟩
  · obtain ⟨placed', _, legacy, _⟩ := placed.save saved
    exact ⟨placed', legacy⟩
  · refine @evictIdle_induction names (fun m' => Placed names m' ∧ m'.dir.legacy = m.dir.legacy) t.now at_ ?_ m m'
      evicted ⟨placed, rfl⟩
    rintro db dir s listed other ⟨placed', legacy⟩
    refine ⟨placed'.evict listed other, Eq.trans ?_ legacy⟩
    simp only [evictedDir]
    split_ifs <;> rfl
  · obtain ⟨db', dir'⟩ := m'
    obtain rfl : dir' = m.dir := same
    exact ⟨placed.moves moves play, rfl⟩

theorem runAmid_placed {m m' : Machine} {acts : List (Moment × Act)} (placed : Placed names m)
    (play : ∀ e ∈ acts, e.2.InPlay names) (ran : m.runAmid names acts = some m') :
    Placed names m' ∧ m'.dir.legacy = m.dir.legacy := by
  induction acts generalizing m with
  | nil =>
      obtain rfl := Option.some.inj ran
      exact ⟨placed, rfl⟩
  | cons e rest ih =>
      obtain ⟨mid, stepped, ranRest⟩ := Option.bind_eq_some_iff.mp ran
      obtain ⟨placed', same⟩ := stepAmid_placed placed (play e List.mem_cons_self) stepped
      obtain ⟨placed'', same'⟩ := ih placed' (fun e' member => play e' (List.mem_cons_of_mem _ member)) ranRest
      exact ⟨placed'', same'.trans same⟩

/-- A forgotten item that is not brought in again stays forgotten, and out of the files from
the first save on. -/
theorem runAmid_forgotten {m m' : Machine} {acts : List (Moment × Act)} (forgotten : Forgotten names item m)
    (play : ∀ e ∈ acts, e.2.InPlay names) (avoids : ∀ e ∈ acts, ¬ e.2.adds item)
    (ran : m.runAmid names acts = some m') : Forgotten names item m' ∧
      (item.inStored (fileOf names m.dir (shardOf item.name)) = false ∨ (∃ e ∈ acts, ∃ order, e.2 = .save order) →
        item.inStored (fileOf names m'.dir (shardOf item.name)) = false) := by
  induction acts generalizing m with
  | nil =>
      obtain rfl := Option.some.inj ran
      refine ⟨forgotten, fun clean => clean.elim id ?_⟩
      rintro ⟨e, member, _⟩
      cases member
  | cons e rest ih =>
      obtain ⟨mid, stepped, ranRest⟩ := Option.bind_eq_some_iff.mp ran
      obtain ⟨forgotten', kept⟩ := stepAmid_forgotten forgotten (play e List.mem_cons_self) (avoids e List.mem_cons_self)
        stepped
      obtain ⟨forgotten'', kept'⟩ := ih forgotten' (fun e' member => play e' (List.mem_cons_of_mem _ member))
        (fun e' member => avoids e' (List.mem_cons_of_mem _ member)) ranRest
      refine ⟨forgotten'', ?_⟩
      rintro (clean | ⟨e', member, order, save⟩)
      · exact kept' (.inl (kept clean))
      · rcases List.mem_cons.mp member with rfl | later
        · obtain ⟨t, act⟩ := e'
          obtain rfl : act = .save order := save
          exact kept' (.inl (forgotten.save stepped).2)
        · exact kept' (.inr ⟨e', later, order, save⟩)

end Machine

/-! ## What forgets -/

section Removing

variable {names : ShardFiles} {dir : Dir} {db : Database} {t : Moment}

/-- A deletion that finds its namespace forgets it. -/
theorem delete_forgets {name : String} (placed : Placed names ⟨db, dir⟩)
    (found : (db.delete (t.world names dir) name).2 = true) :
    Forgotten names (.namespace_ name) ⟨(db.delete (t.world names dir) name).1, dir⟩ := by
  obtain ⟨moved, handle⟩ := @namespace_moves (t.world names dir) (fun _ => False) anything False db name
  simp only [Database.delete] at found ⊢
  cases fetched : db.namespace_ (t.world names dir) name with
  | mk db₁ result =>
      rw [fetched] at moved handle found
      cases result with
      | none => cases found
      | some ns =>
          dsimp only at moved handle ⊢
          have held : db₁.namespaces.contains name = true := OrderedMap.contains_iff.mpr ⟨ns, handle.symm⟩
          have placed₁ := placed.moves moved fun _ => False.elim
          have erased := @erase_moves (t.world names dir) (fun _ => False) anything False db₁ name held fun _ _ => trivial
          have forgotten : Forgotten names (.namespace_ name)
              ⟨(({ db₁ with namespaces := db₁.namespaces.erase name } : Database).markDirty name).uncatalogue name, dir⟩ := by
            refine ⟨placed₁.moves erased fun _ => False.elim, ?_, fun _ => ?_, fun away => ?_⟩
            · simp [Item.inMemory, Item.name, Database.markDirty, Database.markShardDirty]
            · simp [Item.name, Database.markDirty, Database.markShardDirty, OrderedMap.contains]
            · exact absurd ((erased.evicted away).symm.trans (placed₁.memory name held).2) (by decide)
          split
          · exact forgotten.moves (@releaseAll_moves _ (fun _ => False) anything False _ (fun _ => trivial) ns.valueNames)
              id fun _ => False.elim
          · exact forgotten

theorem delete_finds {name : String} (held : (db.namespaces.get name).isSome = true) (w : World) :
    (db.delete w name).2 = true := by
  obtain ⟨moved, handle⟩ := @namespace_moves w keepsAll keepsAll False db name
  have still := moved.still id held
  rw [← handle] at still
  simp only [Database.delete]
  split
  · rename_i fetched
    rw [fetched] at still
    cases still
  · rfl

/-- A value that a namespace's turn takes out has its shard marked. -/
theorem sweepOne_marks {name value : String} (other : name ≠ allNamespace) (hot : db.evicted internalShard = false)
    {w : World} {now : DateTime} {turn : String} (here : (Item.value name value).inMemory db = true) :
    (Item.value name value).inMemory (db.sweepOne w now turn).1 = true ∨
      (db.sweepOne w now turn).1.dirty.contains (shardOf name) = true := by
  simp only [Database.sweepOne]
  split
  · exact .inl here
  · rename_i ns found
    split
    · exact .inl here
    · have step : ∀ db₁ : Database, db₁.evicted internalShard = false →
          ((Item.value name value).inMemory db₁ = true ∨ db₁.dirty.contains (shardOf name) = true) →
          (Item.value name value).inMemory (if countsTowardsConsensus turn then
            (ns.removeExpired now).2.foldl (fun db value => db.releaseConsensus w value) db₁ else db₁) = true ∨
          (if countsTowardsConsensus turn then (ns.removeExpired now).2.foldl
            (fun db value => db.releaseConsensus w value) db₁ else db₁).dirty.contains (shardOf name) = true := by
        intro db₁ hot₁ before
        split
        · refine before.imp (fun inMemory => ?_) fun marked => ?_
          · rw [Item.inMemory] at inMemory ⊢
            rwa [Item.name, releaseAll_others w _ hot₁ other]
          · exact (@releaseAll_moves w (fun _ => False) anything False db₁ (fun _ => trivial) _).dirty marked
        · exact before
      refine step _ ?_ ?_
      · split <;> exact hot
      · by_cases same : name = turn
        · subst same
          rcases (ns.removeExpired_contains now value).mp (by simpa [Item.inMemory, Item.name, Item.within, found] using here) with
            kept | gone
          · refine .inl ?_
            split <;> simpa [Item.inMemory, Item.name, Item.within, Database.put, Database.markDirty,
              Database.markShardDirty] using kept
          · refine .inr ?_
            rw [if_neg (by simp [List.ne_nil_of_mem gone])]
            simp [Database.markDirty, Database.markShardDirty, OrderedMap.contains]
        · refine .inl ?_
          split <;> simpa [Item.inMemory, Item.name, Database.put, Database.markDirty, Database.markShardDirty,
            OrderedMap.get_insert, same] using here

/-- Only a namespace without values is reclaimed. -/
theorem pruneOne_keeps {name value turn : String} (here : (Item.value name value).inMemory db = true) :
    (Item.value name value).inMemory (db.pruneOne turn).1 = true := by
  simp only [Database.pruneOne]
  split
  · exact here
  · split
    · exact here
    · rename_i ns found
      split
      · rename_i empty
        by_cases same : name = turn
        · subst same
          simp [Item.inMemory, Item.name, found, Item.within, OrderedMap.contains, Namespace.get_of_isEmpty empty] at here
        · simpa [Item.inMemory, Item.name, OrderedMap.get_erase, same] using here
      · exact here

/-- A sweep forgets the values it takes out. -/
theorem sweep_forgets {name value : String} (other : name ≠ allNamespace) (placed : Placed names ⟨db, dir⟩)
    {now : DateTime} {order : List String} (here : (Item.value name value).inMemory db = true)
    (gone : (Item.value name value).inMemory (db.sweep (t.world names dir) now order).1 = false) :
    Forgotten names (.value name value) ⟨(db.sweep (t.world names dir) now order).1, dir⟩ := by
  have moved := @sweep_moves (t.world names dir) (fun _ => False) False db now order
  have resident : db.evicted (shardOf name) = false := by
    obtain ⟨ns, held, _⟩ := Item.inMemory_iff.mp here
    exact (placed.memory name (OrderedMap.contains_iff.mpr ⟨ns, held⟩)).2
  have marked := @Database.sweep_induction (fun db' => db'.evicted internalShard = false ∧
      ((Item.value name value).inMemory db' = true ∨ db'.dirty.contains (shardOf name) = true))
    (t.world names dir) now ?_ ?_ db ⟨placed.hot, .inl here⟩ order
  · refine ⟨placed.moves moved fun _ => False.elim, gone, fun _ => ?_, fun away => ?_⟩
    · exact marked.2.resolve_left fun still => absurd (still.symm.trans gone) (by decide)
    · exact absurd ((moved.evicted away).symm.trans resident) (by decide)
  · rintro db₁ turn ⟨hot, before⟩
    have turned := @sweepOne_moves (t.world names dir) (fun _ => False) False db₁ now turn
    exact ⟨turned.here hot, before.elim (sweepOne_marks other hot) fun marked => .inr (turned.dirty marked)⟩
  · rintro db₁ turn ⟨hot, before⟩
    have turned := @pruneOne_moves (t.world names dir) (fun _ => False) False db₁ turn
    exact ⟨turned.here hot, before.imp pruneOne_keeps turned.dirty⟩

end Removing

/-! ## What a later load finds -/

/-- Whether the single-file snapshot of the directory holds the item. -/
def Item.inLegacy (item : Item) (dir : Dir) : Bool := dir.legacy.any fun old => item.inStored old.namespaces

/-- A load of the directory succeeds and does not find the item. -/
def Item.LoadedOut (item : Item) (dir : Dir) : Prop :=
  ∃ data, load dir = .ok data ∧ item.inStored (data.elim ∅ (·.namespaces)) = false

section Loads

variable {names : ShardFiles} {m : Machine} {item : Item}

theorem Placed.load (placed : Placed names m) : ∃ data, SightingDB.load m.dir = .ok data ∧
    ∀ name, (data.elim ∅ (·.namespaces)).get name =
      ((fileOf names m.dir (shardOf name)).get name).or (m.dir.legacy.bind (·.namespaces.get name)) :=
  load_over placed.dir.shard placed.dir.own placed.versions placed.old

theorem Placed.loadedOut (placed : Placed names m)
    (clean : item.inStored (fileOf names m.dir (shardOf item.name)) = false) (legacy : item.inLegacy m.dir = false) :
    item.LoadedOut m.dir := by
  obtain ⟨data, loaded, get⟩ := placed.load
  refine ⟨data, loaded, ?_⟩
  rw [Item.inStored] at clean ⊢
  rw [get]
  cases inFile : (fileOf names m.dir (shardOf item.name)).get item.name with
  | some vals =>
      rw [inFile] at clean
      exact clean
  | none =>
      rw [Option.none_or]
      cases old : m.dir.legacy with
      | none => rfl
      | some snap =>
          rw [Item.inLegacy, old] at legacy
          exact legacy

/-- A namespace in the single-file snapshot is found by every load. -/
theorem Placed.loaded_of_legacy {name : String} (placed : Placed names m)
    (legacy : (Item.namespace_ name).inLegacy m.dir = true) : ¬ (Item.namespace_ name).LoadedOut m.dir := by
  rintro ⟨data, loaded, out⟩
  obtain ⟨data', loaded', get⟩ := placed.load
  obtain rfl : data = data' := Except.ok.inj (loaded.symm.trans loaded')
  have found := get name
  cases old : m.dir.legacy with
  | none => simp [Item.inLegacy, old] at legacy
  | some snap =>
      rw [Item.inLegacy, old, Option.any_some] at legacy
      obtain ⟨vals, inOld, _⟩ := Item.inStored_iff.mp legacy
      rw [old, Option.bind_some, show snap.namespaces.get name = some vals from inOld] at found
      cases inFile : (fileOf names m.dir (shardOf name)).get name <;>
        simp [Item.inStored, Item.name, Item.within, found, inFile] at out

end Loads

namespace Machine

/-- What `removes` takes out stays out: no run from the machine, in which nothing brings the
item in again and a save follows, leaves a directory in which a load finds it. -/
def StaysOut (names : ShardFiles) (start : Machine) (item : Item) (removes : Machine → Moment → Act → Machine → Prop) :
    Prop :=
  ∀ before after t act m m₁ m', start.runAmid names before = some m → m.stepAmid names t act = some m₁ →
    removes m t act m₁ → m₁.runAmid names after = some m' → (∀ e ∈ before ++ after, e.2.InPlay names) →
    (∀ e ∈ after, ¬ e.2.adds item) → (∃ e ∈ after, ∃ order, e.2 = .save order) → item.LoadedOut m'.dir

/-- A deletion that found its namespace. -/
def Deletes (names : ShardFiles) (name : String) (m : Machine) (t : Moment) (act : Act) (_ : Machine) : Prop :=
  act = .request (.delete name) ∧ (m.db.delete (t.world names m.dir) name).2 = true

/-- A sweep that took the item out. -/
def SweepsOut (item : Item) (m : Machine) (_ : Moment) (act : Act) (m' : Machine) : Prop :=
  (∃ at_ order, act = .sweep at_ order) ∧ item.inMemory m.db = true ∧ item.inMemory m'.db = false

variable {names : ShardFiles} {item : Item}

theorem staysOut_of_forgets {start : Machine} {removes : Machine → Moment → Act → Machine → Prop}
    (placed : Placed names start) (legacy : item.inLegacy start.dir = false)
    (forgets : ∀ m t act m₁, Placed names m → m.stepAmid names t act = some m₁ → removes m t act m₁ →
      Forgotten names item m₁ ∧ m₁.dir = m.dir) : start.StaysOut names item removes := by
  intro before after t act m m₁ m' ran stepped removed ran' play avoids saved
  obtain ⟨placed', same⟩ := runAmid_placed placed (fun e member => play e (List.mem_append_left _ member)) ran
  obtain ⟨forgotten, dir⟩ := forgets m t act m₁ placed' stepped removed
  have play' : ∀ e ∈ after, e.2.InPlay names := fun e member => play e (List.mem_append_right _ member)
  obtain ⟨_, same'⟩ := runAmid_placed forgotten.placed play' ran'
  obtain ⟨forgotten', clean⟩ := runAmid_forgotten forgotten play' avoids ran'
  refine forgotten'.placed.loadedOut (clean (.inr saved)) ?_
  rw [Item.inLegacy, same', dir, same]
  exact legacy

/-- A namespace in the single-file snapshot is there after a start. -/
theorem start_of_legacy {dir : Dir} {policy : DatabasePolicy} {stores : StoragePolicy} {node : String}
    {booted : DateTime} {db : Database} {name : String} (shards : ShardDir names dir)
    (started : restart dir policy stores node booted = .ok db) (legacy : (Item.namespace_ name).inLegacy dir = true) :
    (db.namespaces.get name).isSome = true := by
  rw [started_over shards started]
  cases old : dir.legacy with
  | none => simp [Item.inLegacy, old] at legacy
  | some snap =>
      rw [Item.inLegacy, old, Option.any_some] at legacy
      obtain ⟨vals, inOld, _⟩ := Item.inStored_iff.mp legacy
      simp [show snap.namespaces.get name = some vals from inOld]

/-- Deleting it and saving does not help. -/
theorem found_after_deletion {start : Machine} {name : String} (placed : Placed names start)
    (held : (start.db.namespaces.get name).isSome = true) (legacy : (Item.namespace_ name).inLegacy start.dir = true) :
    ¬ start.StaysOut names (.namespace_ name) (Deletes names name) := by
  intro stays
  have removed := delete_finds held (clear.world names start.dir)
  have forgotten := delete_forgets (t := clear) placed removed
  generalize gone : (start.db.delete (clear.world names start.dir) name).1 = db₁ at forgotten
  obtain ⟨m', saved⟩ : ∃ m', Machine.stepAmid names ⟨db₁, start.dir⟩ clear (.save (presentShards db₁).keys) = some m' := by
    simp only [stepAmid, step]
    exact ⟨_, if_pos (.refl _)⟩
  obtain ⟨placed', same⟩ := stepAmid_placed forgotten.placed (fun _ => False.elim) saved
  refine placed'.loaded_of_legacy (by rw [Item.inLegacy, same]; exact legacy)
    (stays [] [(clear, .save (presentShards db₁).keys)] clear (.request (.delete name)) start ⟨db₁, start.dir⟩ m' rfl
      (by rw [← gone]; rfl) ⟨rfl, removed⟩ ?_ ?_ ?_ ?_)
  · simp only [runAmid, saved]
    rfl
  · intro e member
    obtain rfl := List.mem_singleton.mp member
    exact fun _ => False.elim
  · intro e member
    obtain rfl := List.mem_singleton.mp member
    exact id
  · exact ⟨_, List.mem_singleton_self _, _, rfl⟩

/-- Deleted means deleted exactly where no single-file snapshot holds the namespace, and a
swept value stays out wherever the snapshot does not hold it. -/
theorem deleted_stays_deleted (names : ShardFiles) (dir : Dir) (policy : DatabasePolicy) (stores : StoragePolicy)
    (node : String) (booted : DateTime) (tiers : TierPolicy) (shards : ShardDir names dir) {db : Database}
    (started : restart dir policy stores node booted = .ok db) (name : String) :
    (StaysOut names ⟨db.attachStore tiers, dir⟩ (.namespace_ name) (Deletes names name) ↔
      (Item.namespace_ name).inLegacy dir = false) ∧
    ∀ value, name ≠ allNamespace → (Item.value name value).inLegacy dir = false →
      StaysOut names ⟨db.attachStore tiers, dir⟩ (.value name value) (SweepsOut (.value name value)) := by
  obtain ⟨placed, here, clean⟩ := start_placed shards started tiers
  refine ⟨⟨fun stays => ?_, fun lacks => ?_⟩, fun value other lacks => ?_⟩
  · by_contra legacy
    have legacy : (Item.namespace_ name).inLegacy dir = true := by simpa using legacy
    have held := start_of_legacy shards started legacy
    exact found_after_deletion placed held legacy stays
  · refine staysOut_of_forgets placed lacks ?_
    rintro m t act m₁ placed' stepped ⟨rfl, found⟩
    obtain rfl := Option.some.inj stepped
    exact ⟨delete_forgets placed' found, rfl⟩
  · refine staysOut_of_forgets placed lacks ?_
    rintro m t act m₁ placed' stepped ⟨⟨at_, order, rfl⟩, present, gone⟩
    simp only [stepAmid, Act.apply] at stepped
    split_ifs at stepped
    · obtain rfl := Option.some.inj stepped
      exact ⟨sweep_forgets other placed' present gone, rfl⟩
    · cases stepped

/-- A directory with a single-file snapshot only. -/
def heirloom (name : String) : Dir := ⟨some ⟨snapshotVersion, OrderedMap.empty.insert name ∅⟩, ∅⟩

/-- The server started on it. -/
def inherited : Machine :=
  ⟨(Database.fromSnapshotAs ⟨snapshotVersion, OrderedMap.empty.insert "a/x" ∅⟩ ⟨0, 0⟩ .storeEverything "local"
    .unixEpoch).attachStore ⟨.hot, ∅, 0⟩, heirloom "a/x"⟩

theorem deleted_stays_deleted_heirloom : restart (heirloom "a/x") ⟨0, 0⟩ .storeEverything "local" .unixEpoch =
      .ok (.fromSnapshotAs ⟨snapshotVersion, OrderedMap.empty.insert "a/x" ∅⟩ ⟨0, 0⟩ .storeEverything "local" .unixEpoch) ∧
    inherited.StaysOut .sample (.namespace_ "a/y") (Deletes .sample "a/y") ∧
    ¬ inherited.StaysOut .sample (.namespace_ "a/x") (Deletes .sample "a/x") := by
  have shards : ShardDir .sample (heirloom "a/x") := by
    refine ⟨by simp [heirloom, OrderedMap.contains], fun _ _ _ _ _ found => by simp [heirloom] at found, ?_⟩
    intro old name vals legacy found
    obtain rfl := Option.some.inj legacy
    by_cases own : name = "a/x"
    · subst own
      exact .inr (by decide)
    · rw [OrderedMap.get_insert, if_neg own] at found
      cases found
  have both := deleted_stays_deleted .sample (heirloom "a/x") ⟨0, 0⟩ .storeEverything "local" .unixEpoch ⟨.hot, ∅, 0⟩
    shards rfl
  exact ⟨rfl, (both "a/y").1.mpr (by decide), fun stays => absurd ((both "a/x").1.mp stays) (by decide)⟩

/-- The namespace is deleted, the deletion saved, and a load of the directory finds it. -/
theorem deletion_undone : ∃ m data,
    (inherited.db.delete (clear.world .sample inherited.dir) "a/x").2 = true ∧
    inherited.runAmid .sample [(clear, .request (.delete "a/x")), (clear, .save [])] = some m ∧
    m.db.namespaces.get "a/x" = none ∧ load m.dir = .ok (some data) ∧ data.namespaces.contains "a/x" = true :=
  ⟨_, _, by decide, rfl, by decide, rfl, by decide⟩

end Machine

end SightingDB
