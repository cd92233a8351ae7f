import SightingDB.ExactSweeps

/-!
A count that says it is exact. It is given where the flag of a namespace is down, so none of
its values has a lifetime; it stays the number of values that a reader can see until the
namespace is written to, merged into or deleted, whatever happens elsewhere.
-/
namespace SightingDB

/-- The values of a namespace that a reader can see. -/
def Namespace.visible (ns : Namespace) (now : DateTime) : List String :=
  ns.valueNames.filter fun v => (ns.view v 0 false now).isSome

theorem Namespace.Flagged.visible {ns : Namespace} (flagged : ns.Flagged) (unset : ns.hasTtl = false) (now : DateTime) :
    (ns.visible now).length = ns.len := by
  have all : ns.visible now = ns.valueNames := by
    refine List.filter_eq_self.mpr fun v member => ?_
    obtain ⟨a, found⟩ := OrderedMap.mem_keys.mp member
    have never : a.ttl = 0 := by
      by_contra some_
      have up := flagged v a found (Nat.pos_of_ne_zero some_)
      rw [unset] at up
      cases up
    simp [view, found, Attribute.isExpired_of_ttl never]
  rw [all, valueNames, OrderedMap.keys, List.length_map]
  rfl

theorem Namespace.len_of_contains {ns ns' : Namespace} (same : ∀ v, ns'.values.contains v = ns.values.contains v) :
    ns'.len = ns.len := by
  have perm : ns'.values.keys.Perm ns.values.keys := by
    refine (List.perm_ext_iff_of_nodup (OrderedMap.keys_nodup _) (OrderedMap.keys_nodup _)).mpr fun v => ?_
    rw [OrderedMap.mem_keys, OrderedMap.mem_keys, ← OrderedMap.contains_iff, ← OrderedMap.contains_iff, same]
  have length := perm.length_eq
  rwa [OrderedMap.keys, OrderedMap.keys, List.length_map, List.length_map] at length

/-- An act that neither writes to the namespace, merges into it nor deletes it. -/
def Act.Spares (name : String) : Act → Prop
  | .request (.write _ path _ _ _ _) => path ≠ name
  | .request (.merge path _ _) => path ≠ name
  | .request (.delete name') => name' ≠ name
  | _ => True

/-- A run of such acts, in which the namespace's shard is not put out of memory. -/
def Machine.Spares (names : ShardFiles) (name : String) (m : Machine) : List (Moment × Act) → Prop
  | [] => True
  | (t, act) :: rest => act.Spares name ∧ ∀ m', m.stepAmid names t act = some m' →
      m'.db.evicted (shardOf name) = false ∧ m'.Spares names name rest

/-- The namespace as it is kept: its values are those of `ns`, and its flag is. -/
def Stands (name : String) (ns : Namespace) (db : Database) : Prop :=
  ∃ ns', db.namespaces.get name = some ns' ∧ ns'.hasTtl = ns.hasTtl ∧
    ∀ v, ns'.values.contains v = ns.values.contains v

section Stands

variable {names : ShardFiles} {name : String} {ns : Namespace}

theorem Update.stands {dir : Dir} {t : Moment} {scope : Scope} {db db' : Database} (homed : Machine.Homed names ⟨db, dir⟩)
    (here : db.evicted (shardOf name) = false) (stays : ¬ scope.goes name)
    (retags : ∀ e, scope.does name e → ∃ value tags now, e = .retag value tags now) (stands : Stands name ns db)
    (update : Update (t.world names dir) scope db db') : Stands name ns db' := by
  obtain ⟨ns', found, flag, same⟩ := stands
  cases update with
  | touch shard => exact ⟨ns', by rw [Database.touch_namespaces, found], flag, same⟩
  | @pageIn _ shard away paged =>
      refine ⟨ns', ?_, flag, same⟩
      rcases homed with placed | ⟨_, resident⟩
      · rcases pageIn_cases paged with rfl | ⟨data, read, namespaces, _⟩
        · exact found
        · rw [namespaces, get_extend, OrderedMap.get_mapValues]
          cases inFile : data.get name with
          | none => simpa using found
          | some values =>
              have file : data = fileOf names dir shard := fileOf_of_read read
              rw [file] at inFile
              rw [placed.dir.fileOf_own (placed.used_of_evicted away) inFile, away] at here
              cases here
      · cases (resident shard).symm.trans away
  | @register other _ _ =>
      refine ⟨ns', ?_, flag, same⟩
      rw [OrderedMap.get_insert]
      split_ifs with mine
      · rw [← mine, found]
        rfl
      · exact found
  | @put other ns₁ held e allowed =>
      simp only [Stands, Database.put, OrderedMap.get_insert]
      by_cases mine : name = other
      · obtain rfl : ns' = ns₁ := Option.some.inj (found.symm.trans (mine ▸ held))
        obtain ⟨value, tags, now, rfl⟩ := retags e (mine ▸ allowed)
        refine ⟨(ns'.retag value tags now).1, by rw [if_pos mine]; rfl, (Namespace.retag_hasTtl ..).trans flag, fun v => ?_⟩
        rw [Namespace.retag_contains, same]
      · exact ⟨ns', by rw [if_neg mine, found], flag, same⟩
  | mark _ => exact ⟨ns', found, flag, same⟩
  | @erase other allowed =>
      refine ⟨ns', ?_, flag, same⟩
      rw [OrderedMap.get_erase, if_neg, found]
      exact fun mine => stays (mine ▸ allowed)
  | uncatalogue other => exact ⟨ns', by rw [namespaces_uncatalogue, found], flag, same⟩

theorem Updates.stands {dir : Dir} {t : Moment} {scope : Scope} {adds drops : Item → Prop} {db db' : Database}
    (homed : Machine.Homed names ⟨db, dir⟩) (here : db.evicted (shardOf name) = false)
    (allows : scope.Allows adds drops) (play : ∀ item, adds item → names.used (shardOf item.name))
    (stays : ¬ scope.goes name) (retags : ∀ e, scope.does name e → ∃ value tags now, e = .retag value tags now)
    (stands : Stands name ns db) (updates : Updates (t.world names dir) scope db db') : Stands name ns db' := by
  induction updates with
  | refl => exact stands
  | tail before update ih =>
      have moves := Updates.moves before allows
      exact update.stands (homed.moves moves play) (moves.here here) stays retags ih

/-- A step that spares a namespace without lifetimes leaves its values where they are. -/
theorem Machine.stepAmid_stands {m m' : Machine} {t : Moment} {act : Act} (flagged : m.db.Flagged)
    (homed : m.Homed names) (play : act.InPlay names) (other : name ≠ allNamespace) (spares : act.Spares name)
    (here : m.db.evicted (shardOf name) = false) (here' : m'.db.evicted (shardOf name) = false)
    (unset : ns.hasTtl = false) (stands : Stands name ns m.db) (stepped : m.stepAmid names t act = some m') :
    Stands name ns m'.db := by
  rcases stepAmid_acts stepped with ⟨order, rfl, saved⟩ | ⟨at_, rfl, evicted⟩ | ⟨db, ran, rfl⟩
  · obtain ⟨marks, same⟩ := save_memory saved
    rw [same]
    exact stands
  · refine @evictIdle_induction names (fun m' => m'.db.evicted (shardOf name) = false → Stands name ns m'.db) t.now at_
      ?_ m m' evicted (fun _ => stands) here'
    intro db dir s listed _ before after
    rw [evicted_evictedDb listed, Bool.or_eq_false_iff, decide_eq_false_iff_not] at after
    obtain ⟨ns', found, kept⟩ := before after.2
    exact ⟨ns', by rw [get_evictedDb, if_neg after.1, found], kept⟩
  · have updated : ∀ (act : Act), act.InPlay names → act.apply m.db (t.world names m.dir) = some db →
        ¬ (act.scope m.db (t.world names m.dir)).goes name →
        (∀ e, (act.scope m.db (t.world names m.dir)).does name e → ∃ value tags now, e = .retag value tags now) →
        Stands name ns db := fun act play ran stays retags =>
      (Act.apply_updates ran).stands homed here (act.scope_allows _ _) play stays retags stands
    cases act with
    | request r =>
        cases r with
        | write origin path value when opts tags =>
            exact updated _ play ran id fun e allowed => (allowed.1.elim (Ne.symm spares) other).elim
        | merge path value incoming =>
            exact updated _ play ran id fun e allowed => (allowed.1.elim (Ne.symm spares) other).elim
        | setTags path value tags =>
            exact updated _ play ran id fun e allowed => ⟨value, tags, (t.world names m.dir).now, allowed.2⟩
        | delete name' => exact updated _ play ran (Ne.symm spares) fun e allowed => (other allowed.1).elim
        | read query => exact updated _ play ran id fun e => False.elim
    | setConsensus holders => exact updated _ play ran id fun e allowed => (other allowed.1).elim
    | createNamespace name' => exact updated _ play ran id fun e => False.elim
    | sweep at_ order =>
        simp only [Act.apply] at ran
        split_ifs at ran with perm
        obtain rfl := Option.some.inj ran
        obtain ⟨ns', found, flag, same⟩ := stands
        exact ⟨ns', (sweep_exact homed.hot flagged perm).2 name ns' other found (flag.trans unset), flag, same⟩
    | evictIdle at_ => cases ran
    | save order => cases ran

theorem Machine.runAmid_stands {m m' : Machine} {acts : List (Moment × Act)} (flagged : m.db.Flagged)
    (homed : m.Homed names) (play : ∀ e ∈ acts, e.2.InPlay names) (other : name ≠ allNamespace)
    (spares : m.Spares names name acts) (here : m.db.evicted (shardOf name) = false) (unset : ns.hasTtl = false)
    (stands : Stands name ns m.db) (ran : m.runAmid names acts = some m') : Stands name ns m'.db := by
  induction acts generalizing m with
  | nil =>
      obtain rfl := Option.some.inj ran
      exact stands
  | cons e rest ih =>
      obtain ⟨mid, stepped, ranRest⟩ := Option.bind_eq_some_iff.mp ran
      obtain ⟨spared, later⟩ := spares
      obtain ⟨here', spares'⟩ := later mid stepped
      have played := play e List.mem_cons_self
      exact ih (stepAmid_flagged flagged stepped) (stepAmid_homed homed played stepped)
        (fun e' member => play e' (List.mem_cons_of_mem _ member)) spares' here'
        (stepAmid_stands flagged homed played other spared here here' unset stands stepped) ranRest

end Stands

/-- A count is of a namespace that is in memory afterwards. -/
theorem valueCount_stands {names : ShardFiles} {m : Machine} {t : Moment} {name : String} {db : Database}
    {count : ValueCount} (homed : m.Homed names)
    (counted : m.db.valueCount (t.world names m.dir) name = (db, some count)) :
    Updates (t.world names m.dir) ⟨fun _ => False, fun _ => False, fun _ _ => False, False⟩ m.db db ∧
      Machine.Homed names ⟨db, m.dir⟩ ∧ db.evicted (shardOf name) = false ∧
      ∃ ns, db.namespaces.get name = some ns ∧ count.values = ns.len ∧ count.exact_ = !ns.hasTtl := by
  have updates := @valueCount_updates (t.world names m.dir) ⟨fun _ => False, fun _ => False, fun _ _ => False, False⟩
    m.db name
  rw [counted] at updates
  have moves : Moves (t.world names m.dir) (fun _ => False) (fun _ => False) False m.db db :=
    updates.moves ⟨fun _ => id, fun _ _ => False.elim, fun _ _ => False.elim, fun _ => False.elim⟩
  have homed' := homed.moves moves fun _ => False.elim
  have held : ∃ ns, db.namespaces.get name = some ns ∧ count.values = ns.len ∧ count.exact_ = !ns.hasTtl := by
    simp only [Database.valueCount] at counted
    cases found : (m.db.touch (t.world names m.dir) (shardOf name)).namespaces.get name with
    | some ns =>
        simp only [found, Prod.mk.injEq, Option.some.injEq] at counted
        obtain ⟨rfl, rfl⟩ := counted
        exact ⟨ns, found, rfl, rfl⟩
    | none =>
        obtain ⟨_, handle⟩ := @namespace_updates (t.world names m.dir)
          ⟨fun _ => False, fun _ => False, fun _ _ => False, False⟩
          (m.db.touch (t.world names m.dir) (shardOf name)) name
        simp only [found] at counted
        split at counted
        · simp at counted
        · rename_i db₁ ns fetched
          simp only [Prod.mk.injEq, Option.some.injEq] at counted
          obtain ⟨rfl, rfl⟩ := counted
          rw [fetched] at handle
          exact ⟨ns, handle.symm, rfl, rfl⟩
  obtain ⟨ns, found, kept⟩ := held
  have here : db.evicted (shardOf name) = false :=
    homed'.elim (fun placed => (placed.memory name (OrderedMap.contains_iff.mpr ⟨ns, found⟩)).2) fun inMemory => inMemory.2 _
  exact ⟨updates, homed', here, ns, found, kept⟩

namespace Machine

/-- A sweep, after any run from any start, takes out of each namespace but `_all` and the
configuration exactly the values past their lifetime, and of `_all` those and what it gives
back; it takes out the namespaces it leaves empty by that and no others. And a count that is
said to be exact, of a namespace other than `_all`, stays the number of values to be seen. -/
theorem sweeps_and_counts (names : ShardFiles) (dir : Dir) (policy : DatabasePolicy) (stores : StoragePolicy)
    (node : String) (boot : DateTime) (stored : Bool) (tiers : TierPolicy) {db : Database}
    (started : restart dir policy stores node boot = .ok db) {acts : List (Moment × Act)} {m : Machine}
    (ran : (booted db tiers dir stored).runAmid names acts = some m) :
    (∀ (w : World) (now : DateTime) (order : List String), order.Perm m.db.namespaces.keys →
      SweptExactly m.db now order (m.db.sweep w now order).1 (m.db.sweep w now order).2) ∧
    (ShardDir names dir → (∀ e ∈ acts, e.2.InPlay names) →
      ∀ (t : Moment) (name : String) (counted : Database) (count : ValueCount), name ≠ allNamespace →
        m.db.valueCount (t.world names m.dir) name = (counted, some count) → count.exact_ = true →
      ∀ (later : List (Moment × Act)) (m' : Machine), (∀ e ∈ later, e.2.InPlay names) →
        Spares names name ⟨counted, m.dir⟩ later → runAmid names ⟨counted, m.dir⟩ later = some m' →
      ∃ ns, m'.db.namespaces.get name = some ns ∧ ∀ now, (ns.visible now).length = count.values) := by
  obtain ⟨flagged₀, hot₀⟩ := start_flagged started stored tiers
  obtain ⟨flagged, hot⟩ := runAmid_flagged flagged₀ hot₀ ran
  refine ⟨fun w now order perm => (@sweep_exact m.db now w hot flagged order perm).1,
    fun shards play t name counted count other fetched exact_ later m' played spares ran' => ?_⟩
  have homed := runAmid_homed (start_homed shards started stored tiers) play ran
  obtain ⟨updates, homed', here, ns, found, values, flag⟩ := valueCount_stands homed fetched
  have unset : ns.hasTtl = false := by
    rw [flag] at exact_
    simpa using exact_
  have flagged' : counted.Flagged := updates.flagged flagged
  obtain ⟨ns', found', flag', same⟩ := @runAmid_stands _ _ ns _ _ _ flagged' homed' played other spares here unset
    ⟨ns, found, rfl, fun _ => rfl⟩ ran'
  have still : m'.db.Flagged := (runAmid_flagged flagged' homed'.hot ran').1
  refine ⟨ns', found', fun now => ?_⟩
  rw [(still name ns' found').visible (flag'.trans unset), values]
  exact Namespace.len_of_contains same

/-- A value that will expire, and one that will not. -/
def brieflySeen : List (Moment × Act) :=
  [(clear, .request (.write "local" "a/x" "v" .unixEpoch ⟨true, some 1⟩ "")), (clear, sightingOf "a/y")]

/-- Both are in memory, and `_all` with them. -/
def seenTogether : Machine := (coldFresh.runAmid .sample brieflySeen).getD coldFresh

def sweptAway : List (Moment × Act) := [(clear, .sweep Consensus.laterWorld.now ["_all", "a/x", "a/y"])]

theorem sweeps_and_counts_brieflySeen :
    (∃ swept, seenTogether.db.sweep Consensus.laterWorld Consensus.laterWorld.now ["_all", "a/x", "a/y"] = (swept, ⟨1, 1⟩) ∧
        SweptExactly seenTogether.db Consensus.laterWorld.now ["_all", "a/x", "a/y"] swept ⟨1, 1⟩) ∧
      ∃ m' ns, seenTogether.runAmid .sample sweptAway = some m' ∧ m'.db.namespaces.get "a/y" = some ns ∧
        ∀ now, (ns.visible now).length = 1 := by
  have used : ShardFiles.sample.used "a" := .inr rfl
  have none_ : ∀ {act : Act}, (∀ item, ¬ act.adds item) → act.InPlay .sample := fun nothing item added =>
    (nothing item added).elim
  obtain ⟨swept, stays⟩ := @sweeps_and_counts .sample ⟨none, ∅⟩ ⟨0, 0⟩ .storeEverything "local" .unixEpoch true
    ⟨.cold, ∅, 0⟩ _ rfl brieflySeen seenTogether rfl
  refine ⟨⟨_, rfl, swept Consensus.laterWorld Consensus.laterWorld.now ["_all", "a/x", "a/y"] (by decide)⟩, ?_⟩
  have play : ∀ e ∈ brieflySeen, e.2.InPlay .sample := by
    intro e member
    simp only [brieflySeen, List.mem_cons, List.not_mem_nil, or_false] at member
    rcases member with rfl | rfl
    · exact inPlay_of_write used _ _ _ _ _
    · exact inPlay_of_write used _ _ _ _ _
  obtain ⟨ns, found, seen⟩ := stays ⟨by simp [OrderedMap.contains], fun _ _ _ _ _ found => by simp at found, by simp⟩ play
    clear "a/y" seenTogether.db ⟨1, true, false⟩ (by decide) rfl rfl sweptAway _ (fun e member => by
      obtain rfl := List.mem_singleton.mp member
      exact none_ fun _ => id) ⟨trivial, fun m' ran => ⟨by
        obtain rfl := Option.some.inj ran
        decide, trivial⟩⟩ rfl
  exact ⟨_, ns, rfl, found, seen⟩

/-- The value that expires takes its count in `_all` with it, which has no lifetime of its own. -/
theorem sweep_takes_tally : ¬ ∀ (acts : List (Moment × Act)) (m : Machine), coldFresh.runAmid .sample acts = some m →
    ∀ (w : World) (now : DateTime) (order : List String), order.Perm m.db.namespaces.keys →
      ∀ name, startsWith name configPrefix = false → ∀ v,
        storedCell (m.db.sweep w now order).1.namespaces name v = dropPast now (storedCell m.db.namespaces name v) := by
  intro claim
  have kept := claim [(clear, .request (.write "local" "a/x" "v" .unixEpoch ⟨true, some 1⟩ ""))] _ rfl Consensus.laterWorld
    Consensus.laterWorld.now ["_all", "a/x"] (by decide) "_all" (by decide) "v"
  exact absurd kept (by decide)

end Machine

end SightingDB
