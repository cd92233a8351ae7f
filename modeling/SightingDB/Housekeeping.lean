import SightingDB.Restart

/-!
What a sweep is to clients. An expired value is invisible at once and taken out when the
sweeper comes by, so a database that is swept and one that is not differ by values past
their lifetime only. Reads do not see the difference, except in what `_all` counts, which
a sweep gives back; a write that goes to such a value would.
-/
namespace SightingDB

/-! ## What no operation changes -/

namespace Database

/-- What a server is configured with. -/
def settings (db : Database) : DatabasePolicy × StoragePolicy := (db.policy, db.stores)

section Settings

variable (db : Database) (w : World)

@[simp] theorem settings_touch (shard : String) : (db.touch w shard).settings = db.settings := by
  rw [touch_ignores]
  rfl

@[simp] theorem settings_put (name : String) (ns : Namespace) : (db.put name ns).settings = db.settings := rfl

@[simp] theorem settings_markDirty (name : String) : (db.markDirty name).settings = db.settings := rfl

@[simp] theorem settings_uncatalogue (name : String) : (db.uncatalogue name).settings = db.settings := by
  simp only [uncatalogue]
  split <;> rfl

theorem settings_pageIn {db db' : Database} {w : World} {shard : String}
    (paged : db.pageIn w shard = some db') : db'.settings = db.settings := by
  simp only [pageIn] at paged
  split_ifs at paged
  · rw [Option.some.inj paged]
  · rw [Option.some.inj paged]
  · split at paged
    · cases paged
    · rw [← Option.some.inj paged]
      rfl

@[simp] theorem settings_namespace_ (name : String) : (db.namespace_ w name).1.settings = db.settings := by
  simp only [namespace_]
  split
  · exact settings_touch db w _
  · split
    · exact settings_touch db w _
    · split
      · exact settings_touch db w _
      · rename_i paged
        exact (settings_pageIn paged).trans (settings_touch db w _)

@[simp] theorem settings_namespaceOrCreate (name : String) :
    (db.namespaceOrCreate w name).1.settings = db.settings := by
  have fetched := settings_namespace_ db w name
  simp only [namespaceOrCreate]
  split
  · rename_i same
    rw [same] at fetched
    exact fetched
  · rename_i db₁ same
    rw [same] at fetched
    dsimp only at fetched ⊢
    change Database.settings (if db₁.evicted (shardOf name) then (db₁.pageIn w (shardOf name)).getD db₁ else db₁) = _
    split
    · cases paged : db₁.pageIn w (shardOf name) with
      | none => exact fetched
      | some db₂ => exact (settings_pageIn paged).trans fetched
    · exact fetched

@[simp] theorem settings_count (path value : String) : (db.count w path value).1.settings = db.settings := by
  have fetched := settings_namespace_ db w path
  simp only [count]
  split <;> (rename_i same; rw [same] at fetched; exact fetched)

@[simp] theorem settings_view (path value : String) (consensus : Nat) (withStats : Bool) :
    (db.view w path value consensus withStats).1.settings = db.settings := by
  have fetched := settings_namespace_ db w path
  simp only [view]
  split <;> (rename_i same; rw [same] at fetched; exact fetched)

@[simp] theorem settings_logged (path value : String) : (db.logged w path value).settings = db.settings := by
  simp [logged]

@[simp] theorem settings_recordIn (origin path value : String) (when : DateTime) (ttl : Option Nat)
    (tags : String) : (db.recordIn w origin path value when ttl tags).1.settings = db.settings := by
  simp [recordIn]

@[simp] theorem settings_writePlain (path value : String) (when : DateTime) (ttl : Option Nat) :
    (db.writePlain w path value when ttl).settings = db.settings := by
  simp [writePlain]

@[simp] theorem settings_recordWrite (origin path value : String) (when : DateTime) (opts : WriteOpts)
    (tags : String) : (db.recordWrite w origin path value when opts tags).1.settings = db.settings := by
  simp only [recordWrite]
  split <;> simp

@[simp] theorem settings_merge (path value : String) (incoming : Merge) :
    (db.merge w path value incoming).1.settings = db.settings := by
  have created := settings_namespaceOrCreate db w path
  have counted : ∀ counts : Bool, ∀ ns, (if counts then ((db.namespaceOrCreate w path).1.put path ns).write w
      allNamespace value w.now .default else (db.namespaceOrCreate w path).1.put path ns).settings = db.settings := by
    intro counts ns
    cases counts <;> simp [write, created]
  simp only [merge]
  split
  · rw [settings_markDirty, counted]
  · exact counted _ _

@[simp] theorem settings_setTags (path value tags : String) :
    (db.setTags w path value tags).1.settings = db.settings := by
  have fetched := settings_namespace_ db w path
  simp only [setTags]
  split
  · rename_i same
    rw [same] at fetched
    exact fetched
  · rename_i same
    rw [same] at fetched
    dsimp only
    split
    · exact fetched
    · exact fetched

@[simp] theorem settings_createNamespace (name : String) :
    (db.createNamespace w name).1.settings = db.settings := by
  simp only [createNamespace]
  split
  · rfl
  · simp

@[simp] theorem settings_releaseConsensus (value : String) :
    (db.releaseConsensus w value).settings = db.settings := by
  have fetched := settings_namespace_ db w allNamespace
  simp only [releaseConsensus]
  split <;> (rename_i same; rw [same] at fetched; exact fetched)

@[simp] theorem settings_releaseAll (values : List String) :
    (values.foldl (fun db value => db.releaseConsensus w value) db).settings = db.settings := by
  induction values generalizing db with
  | nil => rfl
  | cons value rest ih => rw [List.foldl_cons, ih, settings_releaseConsensus]

@[simp] theorem settings_delete (name : String) : (db.delete w name).1.settings = db.settings := by
  have fetched := settings_namespace_ db w name
  simp only [delete]
  split
  · rename_i same
    rw [same] at fetched
    exact fetched
  · rename_i db₁ ns same
    rw [same] at fetched
    dsimp only at fetched ⊢
    have erased : ((({ db₁ with namespaces := db₁.namespaces.erase name } : Database).markDirty name).uncatalogue
        name).settings = db.settings := by
      rw [settings_uncatalogue]
      exact fetched
    split
    · rw [settings_releaseAll, erased]
    · exact erased

@[simp] theorem settings_sweepOne (now : DateTime) (name : String) :
    (db.sweepOne w now name).1.settings = db.settings := by
  simp only [sweepOne]
  split
  · rfl
  · split
    · rfl
    · dsimp only
      split
      · rw [settings_releaseAll]
        split <;> rfl
      · split <;> rfl

@[simp] theorem settings_pruneOne (name : String) : (db.pruneOne name).1.settings = db.settings := by
  simp only [pruneOne]
  split
  · rfl
  · split
    · rfl
    · split
      · rw [settings_uncatalogue]
        rfl
      · rfl

@[simp] theorem settings_sweep (now : DateTime) (order : List String) :
    (db.sweep w now order).1.settings = db.settings := by
  refine @sweep_induction (fun db' => db'.settings = db.settings) w now ?_ ?_ db rfl order
  · intro db' name same
    rw [settings_sweepOne, same]
  · intro db' name same
    rw [settings_pruneOne, same]

end Settings

end Database

/-! ## Cells -/

/-- The cell of one value in one namespace, expired or not. -/
def storedCell (m : OrderedMap String Namespace) (name value : String) : Option Attribute :=
  (m.get name).bind fun ns => ns.values.get value

/-- A value kept past its lifetime. -/
def lapsed (m : OrderedMap String Namespace) (now : DateTime) (name value : String) : Bool :=
  (storedCell m name value).any fun a => a.isExpired now

/-- In how many namespaces that count towards consensus a value is kept past its lifetime. -/
def lateHolders (m : OrderedMap String Namespace) (now : DateTime) (value : String) : Nat :=
  m.countP fun name ns => countsTowardsConsensus name && (ns.values.get value).any fun a => a.isExpired now

section Cells

variable {m : OrderedMap String Namespace} {name value : String}

theorem storedCell_insert (ns : Namespace) (name' v : String) :
    storedCell (m.insert name ns) name' v =
      if name' = name then ns.values.get v else storedCell m name' v := by
  by_cases same : name' = name <;> simp [storedCell, OrderedMap.get_insert, same]

theorem storedCell_erase (name' v : String) :
    storedCell (m.erase name) name' v = if name' = name then none else storedCell m name' v := by
  by_cases same : name' = name <;> simp [storedCell, OrderedMap.get_erase, same]

theorem storedCell_getD (v : String) :
    ((m.get name).getD .empty).values.get v = storedCell m name v := by
  cases found : m.get name <;> simp [storedCell, found, Namespace.empty]

theorem lapsed_iff {now : DateTime} :
    lapsed m now name value = true ↔ ∃ a, storedCell m name value = some a ∧ a.isExpired now = true := by
  cases held : storedCell m name value <;> simp [lapsed, held]

theorem Attribute.isExpired_mono {a : Attribute} {now later : DateTime}
    (order : now.timestamp ≤ later.timestamp) (expired : a.isExpired now = true) :
    a.isExpired later = true := by
  simp only [Attribute.isExpired] at expired ⊢
  cases deadline : a.expiresAt with
  | none => simp [deadline] at expired
  | some d =>
      simp only [deadline, decide_eq_true_eq] at expired ⊢
      omega

end Cells

/-- `m'` is `m` without some of what had expired; `_all` is another matter. -/
def Thins (now : DateTime) (m m' : OrderedMap String Namespace) : Prop :=
  ∀ name, name ≠ allNamespace → ∀ v, storedCell m' name v = storedCell m name v ∨
    storedCell m' name v = none ∧ lapsed m now name v = true

section Thins

variable {now later : DateTime} {m m' m'' : OrderedMap String Namespace}

theorem Thins.refl (now : DateTime) (m : OrderedMap String Namespace) : Thins now m m :=
  fun _ _ _ => .inl rfl

theorem Thins.trans (first : Thins now m m') (second : Thins now m' m'') : Thins now m m'' := by
  intro name other v
  rcases second name other v with same | ⟨gone, late⟩
  · rw [same]
    exact first name other v
  · rcases first name other v with same' | ⟨gone', late'⟩
    · refine .inr ⟨gone, ?_⟩
      rw [lapsed, same'] at late
      exact late
    · exact .inr ⟨gone, late'⟩

theorem Thins.mono (thins : Thins now m m') (order : now.timestamp ≤ later.timestamp) :
    Thins later m m' := by
  intro name other v
  rcases thins name other v with same | ⟨gone, late⟩
  · exact .inl same
  · refine .inr ⟨gone, ?_⟩
    obtain ⟨a, held, expired⟩ := lapsed_iff.mp late
    exact lapsed_iff.mpr ⟨a, held, Attribute.isExpired_mono order expired⟩

/-- The same cells outside `_all`. -/
theorem Thins.of_cells (same : ∀ name, name ≠ allNamespace → ∀ v, storedCell m' name v = storedCell m name v) :
    Thins now m m' :=
  fun name other v => .inl (same name other v)

/-- A value that is not kept past its lifetime is where it was. -/
theorem Thins.cell (thins : Thins now m m') {name : String} (other : name ≠ allNamespace) {v : String}
    (live : lapsed m now name v = false) : storedCell m' name v = storedCell m name v := by
  rcases thins name other v with same | ⟨_, late⟩
  · exact same
  · rw [live] at late
    cases late

/-- What is thinned out counts for less, by no more than what had expired. -/
theorem Thins.tallied (thins : Thins now m m') (v : String) :
    tallied m' v ≤ tallied m v ∧ tallied m v ≤ tallied m' v + lateHolders m now v := by
  have holds : ∀ (m : OrderedMap String Namespace) (name : String),
      ((m.get name).elim false fun ns => countsTowardsConsensus name && ns.values.contains v) =
        (countsTowardsConsensus name && (storedCell m name v).isSome) := by
    intro m name
    cases found : m.get name <;> simp [storedCell, found, OrderedMap.contains]
  have late : ∀ name, ((m.get name).elim false fun ns =>
      countsTowardsConsensus name && (ns.values.get v).any fun a => a.isExpired now) =
        (countsTowardsConsensus name && lapsed m now name v) := by
    intro name
    cases found : m.get name <;> simp [lapsed, storedCell, found]
  have other : ∀ {name}, countsTowardsConsensus name = true → name ≠ allNamespace := by
    rintro _ counts rfl
    exact absurd counts (by decide)
  constructor
  · have fewer : SightingDB.tallied m' v ≤ SightingDB.tallied m v +
        (∅ : OrderedMap String Namespace).countP fun _ _ => false := by
      refine OrderedMap.countP_le_add_of_get fun name => ?_
      rw [holds, holds, Bool.and_eq_true, Bool.and_eq_true]
      rintro ⟨counts, held⟩
      rcases thins name (other counts) v with same | ⟨gone, _⟩
      · exact .inl ⟨counts, same ▸ held⟩
      · rw [gone] at held
        cases held
    exact fewer
  · refine OrderedMap.countP_le_add_of_get fun name => ?_
    rw [holds, holds, late, Bool.and_eq_true, Bool.and_eq_true, Bool.and_eq_true]
    rintro ⟨counts, held⟩
    rcases thins name (other counts) v with same | ⟨_, late⟩
    · exact .inl ⟨counts, same ▸ held⟩
    · exact .inr ⟨counts, late⟩

end Thins

namespace Database

variable {db : Database} {node : String} {m : OrderedMap String Namespace}

/-- A cell after a sighting in it. -/
def sightedCell (db : Database) (origin : String) (when : DateTime) (ttl : Option Nat) (tags value : String)
    (cell : Option Attribute) : Attribute :=
  (cell.getD (.new value)).sighted origin when ttl db.policy.statsRetention tags

/-- A write as a client sees it: one cell changes outside `_all`. -/
theorem recordWrite_cells (keeps : db.Keeps node m) (w : World) (origin path value : String)
    (when : DateTime) (opts : WriteOpts) (tags : String) :
    (∃ m', (db.recordWrite w origin path value when opts tags).1.Keeps node m' ∧
      ∀ name, name ≠ allNamespace → ∀ v, storedCell m' name v =
        if name = path ∧ v = value then
          some (db.sightedCell origin when (db.ttlOf path opts) tags value (storedCell m path value))
        else storedCell m name v) ∧
      (db.recordWrite w origin path value when opts tags).2 =
        ⟨(db.sightedCell origin when (db.ttlOf path opts) tags value (storedCell m path value)).count,
          (storedCell m path value).isNone⟩ := by
  obtain ⟨created, handle⟩ := keeps.namespaceOrCreate w path
  have retention : (db.namespaceOrCreate w path).1.policy.statsRetention = db.policy.statsRetention :=
    congrArg (fun settings => settings.1.statsRetention) (db.settings_namespaceOrCreate w path)
  have stored := created.put path (((m.get path).getD .empty).record origin value when (db.ttlOf path opts)
    db.policy.statsRetention tags).1
  rw [OrderedMap.insert_insert] at stored
  have cells : ∀ name v, storedCell (m.insert path (((m.get path).getD .empty).record origin value when
      (db.ttlOf path opts) db.policy.statsRetention tags).1) name v =
        if name = path ∧ v = value then
          some (db.sightedCell origin when (db.ttlOf path opts) tags value (storedCell m path value))
        else storedCell m name v := by
    intro name v
    rw [storedCell_insert, Namespace.record_values, OrderedMap.get_insert, storedCell_getD, Namespace.cell,
      storedCell_getD]
    by_cases here : name = path
    · subst here
      by_cases same : v = value <;> simp [same, sightedCell]
    · simp [here]
  have answer : (db.recordIn w origin path value when (db.ttlOf path opts) tags).2 =
      ⟨(db.sightedCell origin when (db.ttlOf path opts) tags value (storedCell m path value)).count,
        (storedCell m path value).isNone⟩ := by
    simp only [recordIn, handle, retention, Namespace.record, storedCell_getD]
    cases storedCell m path value <;> rfl
  have kept : (db.recordIn w origin path value when (db.ttlOf path opts) tags).1.Keeps node (m.insert path
      (((m.get path).getD .empty).record origin value when (db.ttlOf path opts) db.policy.statsRetention tags).1) := by
    simpa only [recordIn, handle, retention] using stored
  refine ⟨?_, answer⟩
  simp only [recordWrite]
  split
  · obtain ⟨_, plain⟩ := kept.writePlain w allNamespace value when
      ((db.recordIn w origin path value when (db.ttlOf path opts) tags).1.ttlOf allNamespace .default)
    refine ⟨_, plain.logged w path value, fun name hne v => ?_⟩
    rw [storedCell_insert, if_neg hne, cells]
  · exact ⟨_, kept.logged w path value, fun name _ v => cells name v⟩

theorem merge_cells (keeps : db.Keeps node m) (w : World) (path value : String) (incoming : Merge) :
    ∃ m', (db.merge w path value incoming).1.Keeps node m' ∧
      ∀ name, name ≠ allNamespace → ∀ v, storedCell m' name v =
        if name = path ∧ v = value then
          some (((storedCell m path value).getD (.new value)).merge incoming node).1
        else storedCell m name v := by
  obtain ⟨created, handle⟩ := keeps.namespaceOrCreate w path
  have stored := created.put path (((m.get path).getD .empty).merge node value incoming).1
  rw [OrderedMap.insert_insert] at stored
  have cells : ∀ name v, storedCell (m.insert path (((m.get path).getD .empty).merge node value incoming).1) name v =
        if name = path ∧ v = value then
          some (((storedCell m path value).getD (.new value)).merge incoming node).1
        else storedCell m name v := by
    intro name v
    rw [storedCell_insert, Namespace.merge_values, OrderedMap.get_insert, storedCell_getD, Namespace.cell,
      storedCell_getD]
    by_cases here : name = path
    · subst here
      by_cases same : v = value <;> simp [same]
    · simp [here]
  have counted : ∃ m', (if (((m.get path).getD .empty).merge node value incoming).2.2 && countsTowardsConsensus path then
      ((db.namespaceOrCreate w path).1.put path (((m.get path).getD .empty).merge node value incoming).1).write w
        allNamespace value w.now .default
      else (db.namespaceOrCreate w path).1.put path
        (((m.get path).getD .empty).merge node value incoming).1).Keeps node m' ∧
      ∀ name, name ≠ allNamespace → ∀ v, storedCell m' name v =
        if name = path ∧ v = value then
          some (((storedCell m path value).getD (.new value)).merge incoming node).1
        else storedCell m name v := by
    split
    · obtain ⟨_, tallied⟩ := stored.write w allNamespace value w.now
      refine ⟨_, tallied, fun name hne v => ?_⟩
      rw [storedCell_insert, if_neg hne, cells]
    · exact ⟨_, stored, fun name _ v => cells name v⟩
  obtain ⟨m', keeps', cells'⟩ := counted
  refine ⟨m', ?_, cells'⟩
  simp only [Database.merge, handle, created.node]
  split
  · exact keeps'.markDirty path
  · exact keeps'

theorem setTags_cells (keeps : db.Keeps node m) (w : World) (path value tags : String) :
    ∃ m', (db.setTags w path value tags).1.Keeps node m' ∧
      ∀ name v, storedCell m' name v =
        if name = path ∧ v = value then
          (storedCell m path value).map fun a =>
            if a.isExpired w.now then a else a.setTags tags w.now.timestampMillis
        else storedCell m name v := by
  have touched := keeps.touch (w := w) (shardOf path)
  simp only [Database.setTags, keeps.namespace_]
  cases found : m.get path with
  | none =>
      refine ⟨m, touched, fun name v => ?_⟩
      split_ifs with here
      · simp [here, storedCell, found]
      · rfl
  | some ns =>
      have stored := touched.put path (ns.retag value tags w.now).1
      refine ⟨m.insert path (ns.retag value tags w.now).1, ?_, fun name v => ?_⟩
      · dsimp only
        split
        · exact stored.markDirty path
        · exact stored
      · have cell : ∀ v, storedCell m path v = ns.values.get v := fun v => by simp [storedCell, found]
        rw [storedCell_insert, cell]
        by_cases here : name = path
        · subst here
          rw [if_pos rfl, cell]
          cases held : ns.values.get value with
          | none =>
              by_cases same : v = value
              · subst same
                simp [Namespace.retag, held]
              · simp [Namespace.retag, held, same]
          | some a =>
              by_cases expired : a.isExpired w.now
              · by_cases same : v = value
                · subst same
                  simp [Namespace.retag, held, expired]
                · simp [Namespace.retag, held, expired, same]
              · by_cases same : v = value
                · subst same
                  simp [Namespace.retag, held, expired]
                · simp [Namespace.retag, held, expired, OrderedMap.get_insert, same]
        · simp [here]

theorem createNamespace_cells (keeps : db.Keeps node m) (w : World) (path : String) :
    ∃ m', (db.createNamespace w path).1.Keeps node m' ∧ storedCell m' = storedCell m := by
  simp only [createNamespace]
  split
  · exact ⟨m, keeps, rfl⟩
  · refine ⟨_, ((keeps.namespaceOrCreate w path).1).markDirty path, funext fun name => funext fun v => ?_⟩
    rw [storedCell_insert, storedCell_getD]
    split_ifs with here
    · rw [here]
    · rfl

theorem sweepOne_thins (keeps : db.Keeps node m) (w : World) (now : DateTime) (name : String) :
    ∃ m', (db.sweepOne w now name).1.Keeps node m' ∧ Thins now m m' := by
  simp only [sweepOne, keeps.namespaces]
  cases found : m.get name with
  | none => exact ⟨m, keeps, .refl now m⟩
  | some ns =>
      dsimp only
      split
      · exact ⟨m, keeps, .refl now m⟩
      · have stored : (if (ns.removeExpired now).2.isEmpty then db.put name (ns.removeExpired now).1
            else (db.put name (ns.removeExpired now).1).markDirty name).Keeps node
            (m.insert name (ns.removeExpired now).1) := by
          have put := keeps.put name (ns.removeExpired now).1
          split
          · exact put
          · exact put.markDirty name
        have thinned : Thins now m (m.insert name (ns.removeExpired now).1) := by
          intro name' _ v
          rw [storedCell_insert]
          by_cases same : name' = name
          · subst same
            have cell : storedCell m name' v = ns.values.get v := by simp [storedCell, found]
            rw [if_pos rfl, lapsed, cell]
            exact ns.removeExpired_get now v
          · exact .inl (if_neg same)
        split
        · obtain ⟨m', keeps', _, others, _⟩ := stored.giveBackAll w (ns.removeExpired now).2
          refine ⟨m', keeps', thinned.trans (.of_cells fun name' other v => ?_)⟩
          rw [storedCell, others name' other]
          rfl
        · exact ⟨_, stored, thinned⟩

theorem pruneOne_thins (keeps : db.Keeps node m) (now : DateTime) (name : String) :
    ∃ m', (db.pruneOne name).1.Keeps node m' ∧ Thins now m m' := by
  simp only [pruneOne, keeps.namespaces]
  split
  · exact ⟨m, keeps, .refl now m⟩
  · cases found : m.get name with
    | none => exact ⟨m, keeps, .refl now m⟩
    | some ns =>
        dsimp only
        split
        · rename_i empty
          have erased := (keeps.erase name).uncatalogue name
          rw [keeps.namespaces] at erased
          refine ⟨_, erased, .of_cells fun name' _ v => ?_⟩
          rw [storedCell_erase]
          split_ifs with same
          · rw [same, storedCell, found]
            exact (Namespace.get_of_isEmpty empty v).symm
          · rfl
        · exact ⟨m, keeps, .refl now m⟩

theorem sweep_thins (keeps : db.Keeps node m) (w : World) (now : DateTime) (order : List String) :
    ∃ m', (db.sweep w now order).1.Keeps node m' ∧ Thins now m m' := by
  refine @sweep_induction (fun db => ∃ m', db.Keeps node m' ∧ Thins now m m') w now ?_ ?_ db
    ⟨m, keeps, .refl now m⟩ order
  · rintro db name ⟨m', keeps', thins⟩
    obtain ⟨m'', keeps'', thins'⟩ := sweepOne_thins keeps' w now name
    exact ⟨m'', keeps'', thins.trans thins'⟩
  · rintro db name ⟨m', keeps', thins⟩
    obtain ⟨m'', keeps'', thins'⟩ := pruneOne_thins keeps' now name
    exact ⟨m'', keeps'', thins.trans thins'⟩

end Database

/-! ## Two runs of the same requests -/

namespace Consensus

def Op.isSweep : Op → Bool
  | .sweep _ _ => true
  | _ => false

/-- The cell an operation counts a sighting in, or merges into. -/
def Op.target (db : Database) : Op → Option (String × String)
  | .write _ name value _ _ _ =>
      match check db name value with
      | .ok () => some (name, value)
      | .error _ => none
  | .merge name value _ => some (name, value)
  | .read name value _ withShadow =>
      if withShadow && !startsWith name configPrefix then some (shadowPrefix ++ name, value) else none
  | _ => none

/-- Whether an operation goes on with a value that is kept past its lifetime. -/
def Op.revives (db : Database) (w : World) (op : Op) : Bool :=
  (op.target db).any fun cell => lapsed db.namespaces w.now cell.1 cell.2

/-- No operation of the run goes on with such a value. -/
def Calm (db : Database) : List (World × Op) → Prop
  | [] => True
  | e :: rest => e.2.revives db e.1 = false ∧ ∀ db', step db e = some db' → Calm db' rest

/-- What an operation makes of one cell. -/
def Op.effect (db : Database) (w : World) (op : Op) (name v : String) (cell : Option Attribute) :
    Option Attribute :=
  match op with
  | .write origin path value when ttl tags =>
      if op.target db = some (name, v) then
        some (db.sightedCell (origin.getD db.node) (when.getD w.now) (db.ttlOf path ⟨true, ttl⟩) tags value cell)
      else cell
  | .merge _ value incoming =>
      if op.target db = some (name, v) then some ((cell.getD (.new value)).merge incoming db.node).1 else cell
  | .setTags path value tags =>
      if name = path ∧ v = value then
        cell.map fun a => if a.isExpired w.now then a else a.setTags tags w.now.timestampMillis
      else cell
  | .read path value _ _ =>
      if op.target db = some (name, v) then
        some (db.sightedCell db.node w.now (db.ttlOf (shadowPrefix ++ path) .default) "" value cell)
      else cell
  | .create _ => cell
  | .delete path => if name = path then none else cell
  | .sweep _ _ => cell

section Effect

variable {db db' : Database} {node : String} {w : World} {op : Op}

theorem effect_settings (settings : db'.settings = db.settings) (same : db'.node = db.node) :
    op.target db' = op.target db ∧ op.effect db' w = op.effect db w := by
  have policy : db'.policy = db.policy := congrArg Prod.fst settings
  have stores : db'.stores = db.stores := congrArg Prod.snd settings
  have checks : ∀ name value, check db' name value = check db name value := by
    intro name value
    have holds : db'.holds name = db.holds name := congrArg (·.holds name) stores
    rw [check, check, holds]
  have target : op.target db' = op.target db := by
    cases op <;> simp only [Op.target, checks]
  refine ⟨target, ?_⟩
  funext name v cell
  cases op <;> simp only [Op.effect, target, Database.sightedCell, Database.ttlOf, policy, same]

theorem check_cases (db : Database) (name value : String) :
    check db name value = .ok () ∨ ∃ e, check db name value = .error e := by
  cases check db name value with
  | ok u => exact .inl rfl
  | error e => exact .inr ⟨e, rfl⟩

theorem apply_cells (keeps : db.Keeps node db.namespaces) (asks : op.isSweep = false)
    (applied : apply db w op = some db') {name : String} (other : name ≠ allNamespace) (v : String) :
    storedCell db'.namespaces name v = op.effect db w name v (storedCell db.namespaces name v) := by
  cases op with
  | write origin path value when ttl tags =>
      obtain rfl := Option.some.inj applied
      rcases check_cases db path value with accepted | ⟨e, refused⟩
      · obtain ⟨⟨m', keeps', cells⟩, _⟩ := Database.recordWrite_cells keeps w (origin.getD db.node) path value
          (when.getD w.now) ⟨true, ttl⟩ tags
        simp only [Op.effect, Op.target, writeTaggedAs, accepted, Option.some.injEq, Prod.mk.injEq]
        rw [keeps'.namespaces, cells name other]
        by_cases here : name = path ∧ v = value
        · obtain ⟨rfl, rfl⟩ := here
          simp
        · have elsewhere : ¬ (path = name ∧ value = v) := fun same => here ⟨same.1.symm, same.2.symm⟩
          rw [if_neg here, if_neg elsewhere]
      · simp [Op.effect, Op.target, writeTaggedAs, refused]
  | merge path value incoming =>
      simp only [apply] at applied
      split_ifs at applied
      obtain rfl := Option.some.inj applied
      obtain ⟨m', keeps', cells⟩ := Database.merge_cells keeps w path value incoming
      rw [keeps'.namespaces, cells name other]
      simp only [Op.effect, Op.target, Option.some.injEq, Prod.mk.injEq]
      by_cases here : name = path ∧ v = value
      · obtain ⟨rfl, rfl⟩ := here
        simp [keeps.node]
      · have elsewhere : ¬ (path = name ∧ value = v) := fun same => here ⟨same.1.symm, same.2.symm⟩
        rw [if_neg here, if_neg elsewhere]
  | setTags path value tags =>
      obtain rfl := Option.some.inj applied
      obtain ⟨m', keeps', cells⟩ := Database.setTags_cells keeps w path value tags
      rw [keeps'.namespaces, cells name v, Op.effect]
      by_cases here : name = path ∧ v = value
      · obtain ⟨rfl, rfl⟩ := here
        rfl
      · rw [if_neg here, if_neg here]
  | create path =>
      obtain rfl := Option.some.inj applied
      obtain ⟨m', keeps', cells⟩ := Database.createNamespace_cells keeps w path
      rw [keeps'.namespaces, cells]
      rfl
  | delete path =>
      simp only [apply] at applied
      split_ifs at applied with internal
      obtain rfl := Option.some.inj applied
      obtain ⟨m', keeps', _, gone⟩ := Database.delete_settles keeps w
        (external_ne_all (show isInternal path = false by simpa using internal))
      rw [keeps'.namespaces, storedCell, gone name other, Op.effect]
      split_ifs with here
      · rfl
      · rfl
  | read path value withStats withShadow =>
      obtain rfl := Option.some.inj applied
      rcases Bool.eq_false_or_eq_true (startsWith path configPrefix) with config | visible
      · simp [read, config, Op.effect, Op.target]
      · have counted := (keeps.count w allNamespace value).1
        have viewed : ((db.count w allNamespace value).1.view w path value
            (db.count w allNamespace value).2 withStats).1.Keeps node db.namespaces := by
          simp only [Database.view, counted.namespace_]
          cases db.namespaces.get path <;> exact counted.touch _
        cases withShadow with
        | false => simp [read, visible, Op.effect, Op.target, viewed.namespaces]
        | true =>
            have policy := congrArg Prod.fst (((db.count w allNamespace value).1.settings_view w path value
              (db.count w allNamespace value).2 withStats).trans (db.settings_count w allNamespace value))
            simp only [Database.settings] at policy
            obtain ⟨⟨m', keeps', cells⟩, _⟩ := Database.recordWrite_cells viewed w node
              (shadowPrefix ++ path) value w.now .default ""
            simp only [read, visible, Bool.false_eq_true, if_false, if_true, Database.write, viewed.node,
              keeps'.namespaces, cells name other, Op.effect, Op.target, Bool.true_and, Bool.not_false,
              Option.some.injEq, Prod.mk.injEq, Database.sightedCell, Database.ttlOf, policy, keeps.node]
            by_cases here : name = shadowPrefix ++ path ∧ v = value
            · obtain ⟨rfl, rfl⟩ := here
              simp
            · have elsewhere : ¬ (shadowPrefix ++ path = name ∧ value = v) := fun same => here ⟨same.1.symm, same.2.symm⟩
              rw [if_neg here, if_neg elsewhere]
  | sweep now order => cases asks

theorem settings_apply (applied : apply db w op = some db') : db'.settings = db.settings := by
  cases op with
  | write origin path value when ttl tags =>
      obtain rfl := Option.some.inj applied
      simp only [writeTaggedAs]
      split
      · rfl
      · exact db.settings_recordWrite w _ path value _ _ tags
  | merge path value incoming =>
      simp only [apply] at applied
      split_ifs at applied
      obtain rfl := Option.some.inj applied
      exact db.settings_merge w path value incoming
  | setTags path value tags =>
      obtain rfl := Option.some.inj applied
      exact db.settings_setTags w path value tags
  | create path =>
      obtain rfl := Option.some.inj applied
      exact db.settings_createNamespace w path
  | delete path =>
      simp only [apply] at applied
      split_ifs at applied
      obtain rfl := Option.some.inj applied
      exact db.settings_delete w path
  | read path value withStats withShadow =>
      obtain rfl := Option.some.inj applied
      simp only [read]
      split
      · rfl
      · dsimp only
        split
        · simp [Database.write]
        · simp
  | sweep now order =>
      simp only [apply] at applied
      split_ifs at applied
      obtain rfl := Option.some.inj applied
      exact db.settings_sweep w now order

end Effect

/-- A database that was swept beside one that was not. -/
structure Beside (now : DateTime) (node : String) (db db' : Database) : Prop where
  sound : Sound db node
  sound' : Sound db' node
  settings : db'.settings = db.settings
  thins : Thins now db.namespaces db'.namespaces

section Beside

variable {db db' d d' : Database} {node : String} {now later : DateTime} {w : World}

theorem Beside.mono (beside : Beside now node db db') (order : now.timestamp ≤ later.timestamp) :
    Beside later node db db' :=
  ⟨beside.sound, beside.sound', beside.settings, beside.thins.mono order⟩

theorem external_of_check {db : Database} {name value : String} (accepted : check db name value = .ok ()) :
    isInternal name = false := by
  simp only [check] at accepted
  split_ifs at accepted with empty internal
  simpa using internal

/-- A request that goes on with nothing expired leaves the two as close as they were. -/
theorem Beside.ask {op : Op} (beside : Beside w.now node db db') (asks : op.isSweep = false)
    (calm : op.revives db w = false) (stepped : step db (w, op) = some d)
    (stepped' : step db' (w, op) = some d') : Beside w.now node d d' := by
  have applied := (Option.filter_eq_some_iff.mp stepped).1
  have applied' := (Option.filter_eq_some_iff.mp stepped').1
  have same := beside.sound'.keeps.node.trans beside.sound.keeps.node.symm
  obtain ⟨target, effect⟩ := @effect_settings db db' w op beside.settings same
  refine ⟨step_sound beside.sound stepped, step_sound beside.sound' stepped', ?_, fun name other v => ?_⟩
  · rw [settings_apply applied, settings_apply applied', beside.settings]
  · rw [lapsed, apply_cells beside.sound.keeps asks applied other, apply_cells beside.sound'.keeps asks applied' other,
      effect]
    rcases beside.thins name other v with unchanged | ⟨gone, late⟩
    · exact .inl (congrArg _ unchanged)
    · -- The cell is not the one recorded into, so it is left or taken out on both sides.
      have missed : op.target db ≠ some (name, v) := by
        intro hit
        rw [Op.revives, hit, Option.any_some, late] at calm
        cases calm
      obtain ⟨a, held, expired⟩ := lapsed_iff.mp late
      rw [gone, held]
      cases op with
      | write => exact .inr (by simp [Op.effect, missed, expired])
      | merge => exact .inr (by simp [Op.effect, missed, expired])
      | read => exact .inr (by simp [Op.effect, missed, expired])
      | create => exact .inr (by simp [Op.effect, expired])
      | setTags path value tags =>
          refine .inr ?_
          simp only [Op.effect]
          split_ifs <;> simp [expired]
      | delete path =>
          simp only [Op.effect]
          split_ifs
          · exact .inl rfl
          · exact .inr ⟨rfl, by simp [expired]⟩
      | sweep => cases asks

theorem Beside.sweep {at_ : DateTime} {order : List String} (beside : Beside w.now node db db')
    (onTime : at_.timestamp ≤ w.now.timestamp) (stepped : step db' (w, .sweep at_ order) = some d') :
    Beside w.now node db d' := by
  have applied := (Option.filter_eq_some_iff.mp stepped).1
  refine ⟨beside.sound, step_sound beside.sound' stepped, ?_, ?_⟩
  · rw [settings_apply applied, beside.settings]
  · simp only [apply] at applied
    split_ifs at applied
    obtain rfl := Option.some.inj applied
    obtain ⟨m', keeps', thins⟩ := Database.sweep_thins beside.sound'.keeps w at_ order
    rw [keeps'.namespaces]
    exact beside.thins.trans (thins.mono onTime)

/-- The two runs stay side by side, whatever the moments of the sweeps. -/
theorem run_beside {events : List (World × Op)} (start : ∀ e ∈ events, Beside e.1.now node db db')
    (beside : Beside later node db db')
    (unswept : run db (events.filter fun e => !e.2.isSweep) = some d) (swept : run db' events = some d')
    (calm : Calm db (events.filter fun e => !e.2.isSweep))
    (ordered : events.Pairwise fun e f => e.1.now.timestamp ≤ f.1.now.timestamp)
    (onTime : ∀ e ∈ events, ∀ now order, e.2 = .sweep now order → now.timestamp ≤ e.1.now.timestamp)
    (last : ∀ e ∈ events, e.1.now.timestamp ≤ later.timestamp) : Beside later node d d' := by
  induction events generalizing db db' with
  | nil =>
      obtain rfl := Option.some.inj unswept
      obtain rfl := Option.some.inj swept
      exact beside
  | cons e rest ih =>
      obtain ⟨mid', stepped', ranRest'⟩ := Option.bind_eq_some_iff.mp swept
      obtain ⟨after, orderedRest⟩ := List.pairwise_cons.mp ordered
      have here := start e List.mem_cons_self
      have goesOn : ∀ mid, Beside e.1.now node mid mid' →
          run mid (rest.filter fun e => !e.2.isSweep) = some d → Calm mid (rest.filter fun e => !e.2.isSweep) →
          Beside later node d d' := by
        intro mid next ranRest calmRest
        exact ih (fun f member => next.mono (after f member)) (next.mono (last e List.mem_cons_self)) ranRest
          ranRest' calmRest orderedRest (fun f member => onTime f (List.mem_cons_of_mem e member))
          fun f member => last f (List.mem_cons_of_mem e member)
      obtain ⟨w, op⟩ := e
      cases asks : op.isSweep with
      | true =>
          rw [List.filter_cons_of_neg (by simp [asks])] at unswept calm
          cases op with
          | sweep now order => exact goesOn db (here.sweep (onTime _ List.mem_cons_self now order rfl) stepped') unswept calm
          | _ => cases asks
      | false =>
          rw [List.filter_cons_of_pos (by simp [asks])] at unswept calm
          obtain ⟨mid, stepped, ranRest⟩ := Option.bind_eq_some_iff.mp unswept
          exact goesOn mid (here.ask asks calm.1 stepped stepped') ranRest (calm.2 mid stepped)

end Beside

/-! ## Answers -/

/-- A read answered on both sides: the same but for the consensus, which on the swept side
may be lower by up to `late`. -/
def SameView (late : Nat) : Option AttributeView → Option AttributeView → Prop
  | some a, some b => { b with consensus := a.consensus } = a ∧ b.consensus ≤ a.consensus ∧
      a.consensus ≤ b.consensus + late
  | none, none => True
  | _, _ => False

theorem read_answer {db : Database} {node : String} (keeps : db.Keeps node db.namespaces) (w : World)
    {name : String} (visible : startsWith name configPrefix = false) (value : String)
    (withStats withShadow : Bool) :
    (read db w name value withStats withShadow).2.toOption =
      ((storedCell db.namespaces name value).filter fun a => !a.isExpired w.now).map fun a =>
        a.view (db.count w allNamespace value).2 withStats := by
  have counted := (keeps.count w allNamespace value).1
  have found : ((db.count w allNamespace value).1.view w name value (db.count w allNamespace value).2 withStats).2 =
      ((storedCell db.namespaces name value).filter fun a => !a.isExpired w.now).map fun a =>
        a.view (db.count w allNamespace value).2 withStats := by
    simp only [Database.view, counted.namespace_, storedCell]
    cases db.namespaces.get name with
    | none => rfl
    | some ns =>
        simp only [Namespace.view, Option.bind_some]
        cases ns.values.get value with
        | none => rfl
        | some a => by_cases expired : a.isExpired w.now <;> simp [expired, Option.filter]
  simp only [read, visible, Bool.false_eq_true, if_false, found]
  split
  · rename_i view same
    rw [same]
    rfl
  · rename_i same
    rw [same]
    split <;> rfl

section Answers

variable {db db' : Database} {node : String} {w : World}

theorem Beside.write_answer (beside : Beside w.now node db db') {origin : Option String} {name value : String}
    {when : Option DateTime} {ttl : Option Nat} {tags : String}
    (calm : (Op.write origin name value when ttl tags).revives db w = false) :
    (writeTaggedAs db' w origin name value when ttl tags).2 =
      (writeTaggedAs db w origin name value when ttl tags).2 := by
  have policy : db'.policy = db.policy := congrArg Prod.fst beside.settings
  have holds : db'.holds name = db.holds name := congrArg (·.2.holds name) beside.settings
  have checks : check db' name value = check db name value := by
    rw [check, check, holds]
  have same := beside.sound'.keeps.node.trans beside.sound.keeps.node.symm
  rcases check_cases db name value with accepted | ⟨e, refused⟩
  · have live : lapsed db.namespaces w.now name value = false := by
      simpa [Op.revives, Op.target, accepted] using calm
    have cell := beside.thins.cell (external_ne_all (external_of_check accepted)) live
    simp only [writeTaggedAs, checks, accepted,
      (Database.recordWrite_cells beside.sound.keeps w (origin.getD db.node) name value (when.getD w.now)
        ⟨true, ttl⟩ tags).2,
      (Database.recordWrite_cells beside.sound'.keeps w (origin.getD db.node) name value (when.getD w.now)
        ⟨true, ttl⟩ tags).2, cell, same, Database.sightedCell, Database.ttlOf, policy]
  · simp only [writeTaggedAs, checks, refused]

theorem Beside.read_answer (beside : Beside w.now node db db') {name : String} (other : name ≠ allNamespace)
    (value : String) (withStats withShadow : Bool) :
    SameView (lateHolders db.namespaces w.now value) (read db w name value withStats withShadow).2.toOption
      (read db' w name value withStats withShadow).2.toOption := by
  rcases Bool.eq_false_or_eq_true (startsWith name configPrefix) with config | visible
  · simp [read, config, SameView, Except.toOption]
  · have counts := beside.thins.tallied value
    rw [← beside.sound.tally_right.2.1 w value, ← beside.sound'.tally_right.2.1 w value] at counts
    rw [Consensus.read_answer beside.sound.keeps w visible, Consensus.read_answer beside.sound'.keeps w visible]
    have seen : ((storedCell db'.namespaces name value).filter fun a => !a.isExpired w.now) =
        (storedCell db.namespaces name value).filter fun a => !a.isExpired w.now := by
      rcases beside.thins name other value with same | ⟨gone, late⟩
      · rw [same]
      · obtain ⟨a, held, expired⟩ := lapsed_iff.mp late
        rw [gone, held]
        simp [expired, Option.filter]
    rw [seen]
    cases (storedCell db.namespaces name value).filter fun a => !a.isExpired w.now with
    | none => trivial
    | some a => exact ⟨rfl, counts⟩

end Answers

/-- Sweeping is housekeeping: whatever was asked of a server before, and whenever it was
swept meanwhile, the next answer is the one it would have given without. Only the consensus
of a read follows the sweeps, by at most the namespaces that keep the value past its
lifetime. Requests that go on with such a value are left out. -/
theorem sweeping_is_housekeeping (policy : DatabasePolicy) (stores : StoragePolicy) (node : String)
    {history events : List (World × Op)} {start db db' : Database}
    (reached : run (.withNode policy stores node) history = some start)
    (unswept : run start (events.filter fun e => !e.2.isSweep) = some db) (swept : run start events = some db')
    (calm : Calm start (events.filter fun e => !e.2.isSweep))
    (ordered : events.Pairwise fun e f => e.1.now.timestamp ≤ f.1.now.timestamp)
    (onTime : ∀ e ∈ events, ∀ now order, e.2 = .sweep now order → now.timestamp ≤ e.1.now.timestamp)
    (w : World) (last : ∀ e ∈ events, e.1.now.timestamp ≤ w.now.timestamp) :
    (∀ origin name value when ttl tags, (Op.write origin name value when ttl tags).revives db w = false →
      (writeTaggedAs db' w origin name value when ttl tags).2 =
        (writeTaggedAs db w origin name value when ttl tags).2) ∧
      ∀ name, name ≠ allNamespace → ∀ value withStats withShadow,
        SameView (lateHolders db.namespaces w.now value) (read db w name value withStats withShadow).2.toOption
          (read db' w name value withStats withShadow).2.toOption := by
  have sound := run_sound (withNode_sound policy stores node) reached
  have alike : ∀ now, Beside now node start start := fun now => ⟨sound, sound, rfl, .refl now _⟩
  have beside := run_beside (fun e _ => alike e.1.now) (alike w.now) unswept swept calm ordered onTime last
  exact ⟨fun _ _ _ _ _ _ calm => beside.write_answer calm,
    fun _ other value withStats withShadow => beside.read_answer other value withStats withShadow⟩

/-- A hundred seconds after the epoch. -/
def laterWorld : World := .sound .sample ⟨none, ∅⟩ ⟨100000000000, by decide, by decide⟩

/-- One namespace keeps the value for ten seconds, another for good. -/
def seenBriefly : List (World × Op) :=
  [(.sample, .write none "a/x" "v" none (some 10) ""), (.sample, .write none "a/y" "v" none none "")]

/-- A sweep, then a read of the value that is left. -/
def sweptAndRead : List (World × Op) :=
  [(laterWorld, .sweep laterWorld.now ["_all", "a/x", "a/y"]), (laterWorld, .read "a/y" "v" false true)]

theorem sweeping_is_housekeeping_seenBriefly : ∃ start db db',
    run (.withNode ⟨0, 0⟩ .storeEverything "local") seenBriefly = some start ∧
      run start (sweptAndRead.filter fun e => !e.2.isSweep) = some db ∧ run start sweptAndRead = some db' ∧
      (writeTaggedAs db' laterWorld none "a/y" "v" none none "").2 =
        (writeTaggedAs db laterWorld none "a/y" "v" none none "").2 := by
  refine ⟨_, _, _, rfl, rfl, rfl, ?_⟩
  refine (@sweeping_is_housekeeping ⟨0, 0⟩ .storeEverything "local" seenBriefly sweptAndRead _ _ _ rfl rfl rfl
    ⟨rfl, fun _ _ => trivial⟩ ?_ ?_ laterWorld ?_).1 _ _ _ _ _ _ rfl
  · simp [sweptAndRead]
  · rintro e member now order same
    rcases List.mem_cons.mp member with rfl | member
    · obtain ⟨rfl, rfl⟩ := Op.sweep.inj same
      exact le_rfl
    · obtain rfl := List.mem_singleton.mp member
      cases same
  · simp [sweptAndRead]

/-- The sweep gives back the consensus of the namespace that has let the value go. -/
theorem sweep_lowers_consensus : ∃ db db' view view',
    run (.withNode ⟨0, 0⟩ .storeEverything "local") seenBriefly = some db ∧
      run db [(laterWorld, .sweep laterWorld.now ["_all", "a/x", "a/y"])] = some db' ∧
      (read db laterWorld "a/y" "v" false false).2 = .ok view ∧
      (read db' laterWorld "a/y" "v" false false).2 = .ok view' ∧ view.consensus = 2 ∧ view'.consensus = 1 :=
  ⟨_, _, _, _, rfl, rfl, rfl, rfl, rfl, rfl⟩

end Consensus
end SightingDB
