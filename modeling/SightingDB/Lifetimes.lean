import SightingDB.FaultyReads
import SightingDB.Housekeeping

/-!
The flag of a namespace that nothing of it has ever had a lifetime, which lets a sweep and a
count skip its values. However a lifetime arrives, the flag is up before it is stored: through
every run a namespace whose flag is down holds no value with a lifetime.
-/
namespace SightingDB

/-! ## Lifetimes -/

namespace Attribute

/-- Past its lifetime: it has one, and that ended before `now`. -/
def past (a : Attribute) (now : DateTime) : Bool :=
  0 < a.ttl && min i64Max (a.lastSeen.timestamp + a.ttl) < now.timestamp

/-- A lifetime is cut to an `i64` before it is added; no moment lies beyond either. -/
theorem isExpired_eq_past (a : Attribute) (now : DateTime) : a.isExpired now = a.past now := by
  have late := now.upper
  have early := a.lastSeen.lower
  simp only [isExpired, expiresAt, past]
  split_ifs with some_
  · simp only [some_, decide_true, Bool.true_and, decide_eq_decide]
    simp only [DateTime.timestamp, i64Max, minTimestamp, maxTimestamp, nanosPerSecond] at *
    omega
  · simp [some_]

theorem migrate_ttl (a : Attribute) (node : String) : (a.migrate node).ttl = a.ttl := by
  simp only [migrate]
  split_ifs <;> rfl

theorem decrement_ttl (a : Attribute) (node : String) : (a.decrement node).1.ttl = a.ttl := by
  cases found : a.counts.get node with
  | none => simp [decrement, found]
  | some mine => rw [decrement_fst found]

theorem decrement_lastSeen (a : Attribute) (node : String) : (a.decrement node).1.lastSeen = a.lastSeen := by
  cases found : a.counts.get node with
  | none => simp [decrement, found]
  | some mine => rw [decrement_fst found]

end Attribute

/-- The flag is up whenever a value has a lifetime. -/
def Namespace.Flagged (ns : Namespace) : Prop :=
  ∀ v a, ns.values.get v = some a → 0 < a.ttl → ns.hasTtl = true

namespace Namespace

theorem empty_flagged : Namespace.empty.Flagged := fun _ _ found => by cases found

theorem fromValues_flagged (values : OrderedMap String Attribute) (node : String) : (fromValues values node).Flagged := by
  intro v a found lives
  simp only [fromValues, OrderedMap.get_mapValues, Option.map_eq_some_iff] at found ⊢
  obtain ⟨b, held, rfl⟩ := found
  refine List.any_eq_true.mpr ⟨(v, b), OrderedMap.mem_entries.mpr held, ?_⟩
  rw [Attribute.migrate_ttl] at lives
  exact decide_eq_true lives

/-- One cell is put in; what lifetime it has is the old one or is told to the flag. -/
theorem Flagged.insert {ns ns' : Namespace} (flagged : ns.Flagged) {value : String} {a : Attribute}
    (values : ns'.values = ns.values.insert value a) (kept : ns.hasTtl = true → ns'.hasTtl = true)
    (told : 0 < a.ttl → 0 < (ns.cell value).ttl ∨ ns'.hasTtl = true) : ns'.Flagged := by
  intro v b found lives
  rw [values, OrderedMap.get_insert] at found
  split_ifs at found
  · obtain rfl := Option.some.inj found
    rcases told lives with before | up
    · cases held : ns.values.get value with
      | none => simp [cell, held, Attribute.new] at before
      | some c =>
          rw [cell, held] at before
          exact kept (flagged value c held before)
    · exact up
  · exact kept (flagged v b found lives)

theorem Flagged.of_cells {ns ns' : Namespace} (flagged : ns.Flagged)
    (cells : ∀ v b, ns'.values.get v = some b → ∃ a, ns.values.get v = some a ∧ b.ttl = a.ttl)
    (flag : ns'.hasTtl = ns.hasTtl) : ns'.Flagged := by
  intro v b found lives
  obtain ⟨a, held, same⟩ := cells v b found
  rw [flag]
  exact flagged v a held (same ▸ lives)

theorem release_get (ns : Namespace) (node value v : String) :
    (ns.release node value).values.get v = if v = value then giveBack node (ns.values.get v) else ns.values.get v := by
  simp only [release]
  cases found : ns.values.get value with
  | none =>
      split_ifs with same
      · rw [same, found]
        rfl
      · rfl
  | some a =>
      by_cases last : (a.decrement node).2 = 0
      · by_cases same : v = value
        · subst same
          simp [last, found, giveBack]
        · simp [last, OrderedMap.get_erase, same]
      · by_cases same : v = value
        · subst same
          simp [last, found, giveBack]
        · simp [last, OrderedMap.get_insert, same]

theorem release_hasTtl (ns : Namespace) (node value : String) : (ns.release node value).hasTtl = ns.hasTtl := by
  simp only [release]
  split
  · rfl
  · split_ifs <;> rfl

theorem removeExpired_hasTtl (ns : Namespace) (now : DateTime) : (ns.removeExpired now).1.hasTtl = ns.hasTtl := by
  simp only [removeExpired]
  split_ifs <;> rfl

theorem retag_hasTtl (ns : Namespace) (value tags : String) (now : DateTime) : (ns.retag value tags now).1.hasTtl = ns.hasTtl := by
  simp only [retag]
  split
  · rfl
  · split_ifs <;> rfl

theorem retag_flagged {ns : Namespace} (flagged : ns.Flagged) (value tags : String) (now : DateTime) :
    (ns.retag value tags now).1.Flagged := by
  refine flagged.of_cells (fun v b found => ?_) (ns.retag_hasTtl value tags now)
  simp only [retag] at found
  cases held : ns.values.get value with
  | none =>
      rw [held] at found
      exact ⟨b, found, rfl⟩
  | some a =>
      simp only [held] at found
      split_ifs at found
      · exact ⟨b, found, rfl⟩
      · simp only [OrderedMap.get_insert] at found
        split_ifs at found with same
        · obtain rfl := Option.some.inj found
          refine ⟨a, same ▸ held, ?_⟩
          rw [Attribute.setTags]
        · exact ⟨b, found, rfl⟩

theorem removeExpired_flagged {ns : Namespace} (flagged : ns.Flagged) (now : DateTime) :
    (ns.removeExpired now).1.Flagged := by
  refine flagged.of_cells (fun v b found => ?_) (ns.removeExpired_hasTtl now)
  rcases ns.removeExpired_get now v with same | ⟨gone, _⟩
  · exact ⟨b, same ▸ found, rfl⟩
  · rw [gone] at found
    cases found

theorem release_flagged {ns : Namespace} (flagged : ns.Flagged) (node value : String) : (ns.release node value).Flagged := by
  refine flagged.of_cells (fun v b found => ?_) (ns.release_hasTtl node value)
  rw [release_get] at found
  split_ifs at found
  · cases held : ns.values.get v with
    | none => simp [held, giveBack] at found
    | some a =>
        simp only [held, giveBack] at found
        split_ifs at found
        obtain rfl := Option.some.inj found
        exact ⟨a, rfl, a.decrement_ttl node⟩
  · exact ⟨b, found, rfl⟩

theorem record_flagged {ns : Namespace} (flagged : ns.Flagged) (origin value : String) (when : DateTime)
    (ttl : Option Nat) (retention : Nat) (tags : String) :
    (ns.record origin value when ttl retention tags).1.Flagged := by
  have flag : (ns.record origin value when ttl retention tags).1.hasTtl = (ns.hasTtl || setsTtl ttl) := by
    cases found : ns.values.get value <;> simp [record, found]
  refine flagged.insert (record_values ..) (fun up => by simp [flag, up]) fun lives => ?_
  rw [Attribute.sighted_eq] at lives
  cases ttl with
  | none => exact .inl (by simpa using lives)
  | some n =>
      refine .inr ?_
      rw [flag]
      simp only [Option.getD_some, Attribute.increment_ttl] at lives
      simp [setsTtl, lives]

theorem merge_flagged {ns : Namespace} (flagged : ns.Flagged) (node value : String) (incoming : Merge) :
    (ns.merge node value incoming).1.Flagged := by
  refine flagged.insert (merge_values ..) (fun up => by simp [merge, up]) fun lives => ?_
  rw [Attribute.merge_ttl, Attribute.mergeTtl] at lives
  by_cases timed : 0 < incoming.ttl
  · exact .inr (by simp [merge, timed])
  · refine .inl ?_
    split_ifs at lives <;> omega

theorem setCount_flagged {ns : Namespace} (flagged : ns.Flagged) (node value : String) (count : Nat) (now : DateTime) :
    (ns.setCount node value count now).1.Flagged := by
  simp only [setCount]
  split_ifs
  · refine flagged.of_cells (fun v b found => ?_) rfl
    simp only [OrderedMap.get_erase] at found
    split_ifs at found
    exact ⟨b, found, rfl⟩
  · exact @Flagged.insert ns _ flagged value _ rfl id .inl
  · exact @Flagged.insert ns _ flagged value _ rfl id .inl
  · exact @Flagged.insert ns _ flagged value _ rfl id .inl

theorem survey_flagged {ns : Namespace} (flagged : ns.Flagged) (holders : OrderedMap String Names) (node : String)
    (now : DateTime) : (Database.survey holders node now ns).1.Flagged := by
  have corrects : ∀ (acc : Namespace × Nat) value truth, acc.1.Flagged →
      (Database.correct node now acc value truth).1.Flagged := fun acc value truth up => setCount_flagged up node value truth now
  have walk : ∀ {α : Type} (step : Namespace × Nat → α → Namespace × Nat),
      (∀ acc x, acc.1.Flagged → (step acc x).1.Flagged) → ∀ (l : List α) (acc : Namespace × Nat), acc.1.Flagged →
        (l.foldl step acc).1.Flagged := by
    intro α step keeps l
    induction l with
    | nil => exact fun _ up => up
    | cons x rest ih => exact fun acc up => ih _ (keeps acc x up)
  simp only [Database.survey]
  refine walk _ (fun acc value up => ?_) _ _ (walk _ (fun acc e up => corrects acc _ _ up) _ _ flagged)
  split
  · exact up
  · exact corrects acc _ _ up

end Namespace

theorem Edit.flagged {ns : Namespace} (flagged : ns.Flagged) (e : Edit) : (e.apply ns).Flagged := by
  cases e with
  | record origin value when ttl retention tags => exact Namespace.record_flagged flagged _ _ _ _ _ _
  | merge node value incoming => exact Namespace.merge_flagged flagged _ _ _
  | retag value tags now => exact Namespace.retag_flagged flagged _ _ _
  | removeExpired now => exact Namespace.removeExpired_flagged flagged now
  | release node value => exact Namespace.release_flagged flagged _ _
  | survey holders node now => exact Namespace.survey_flagged flagged _ _ _

/-! ## Every run keeps the flags -/

def Database.Flagged (db : Database) : Prop := ∀ name ns, db.namespaces.get name = some ns → ns.Flagged

section Flags

variable {w : World} {scope : Scope} {db db' : Database}

theorem Update.flagged (flagged : db.Flagged) (update : Update w scope db db') : db'.Flagged := by
  have inserted : ∀ {name : String} {ns : Namespace}, ns.Flagged → ∀ name' ns',
      (db.namespaces.insert name ns).get name' = some ns' → ns'.Flagged := by
    intro name ns up name' ns' found
    rw [OrderedMap.get_insert] at found
    split_ifs at found
    · exact Option.some.inj found ▸ up
    · exact flagged name' ns' found
  cases update with
  | touch shard =>
      intro name ns found
      rw [Database.touch_namespaces] at found
      exact flagged name ns found
  | pageIn _ paged =>
      rcases pageIn_cases paged with rfl | ⟨data, _, namespaces, _⟩
      · exact flagged
      · intro name ns found
        rw [namespaces, get_extend, OrderedMap.get_mapValues] at found
        cases inFile : data.get name with
        | none =>
            rw [inFile] at found
            exact flagged name ns (by simpa using found)
        | some values =>
            simp only [inFile, Option.map_some, Option.some_or, Option.some.injEq] at found
            exact found ▸ Namespace.fromValues_flagged values db.node
  | @register name _ _ =>
      refine inserted ?_
      cases held : db.namespaces.get name with
      | none => exact Namespace.empty_flagged
      | some ns => exact flagged name ns held
  | put held e _ => exact inserted (e.flagged (flagged _ _ held))
  | mark _ => exact flagged
  | erase _ =>
      intro name ns found
      simp only [OrderedMap.get_erase] at found
      split_ifs at found
      exact flagged name ns found
  | uncatalogue name =>
      intro name' ns found
      rw [namespaces_uncatalogue] at found
      exact flagged name' ns found

theorem Updates.flagged (flagged : db.Flagged) (updates : Updates w scope db db') : db'.Flagged := by
  induction updates with
  | refl => exact flagged
  | tail _ update ih => exact update.flagged ih

end Flags

/-- A save changes nothing in memory but the marks. -/
theorem saveShards_memory (w : World) (all : Bool) (dirty : Names) (order : List String)
    (acc : Database × Dir × SaveReport) : ∃ marks, (saveShards w all dirty order acc).1 = { acc.1 with dirty := marks } := by
  induction order generalizing acc with
  | nil => exact ⟨acc.1.dirty, rfl⟩
  | cons shard rest ih =>
      obtain ⟨db, dir, report⟩ := acc
      simp only [saveShards]
      split_ifs
      · exact ih _
      · cases writeShard db w dir shard with
        | none => exact ⟨_, rfl⟩
        | some dir' => exact ih _

namespace Machine

variable {names : ShardFiles} {m m' : Machine}

theorem save_memory {now : DateTime} {order : List String} (stepped : m.step names now (.save order) = some m') :
    ∃ marks, m'.db = { m.db with dirty := marks } := by
  simp only [step] at stepped
  split_ifs at stepped
  obtain rfl := Option.some.inj stepped
  obtain ⟨marks, same⟩ := saveShards_memory (.sound names m.dir now) false m.db.dirty order
    ({ m.db with dirty := ∅ }, m.dir, ⟨0, 0⟩)
  refine ⟨marks, ?_⟩
  simp only [SightingDB.save]
  split <;> rename_i saved <;> exact (congrArg Prod.fst saved).symm.trans same

theorem stepAmid_flagged {t : Moment} {act : Act} (flagged : m.db.Flagged) (stepped : m.stepAmid names t act = some m') :
    m'.db.Flagged := by
  rcases stepAmid_acts stepped with ⟨order, rfl, saved⟩ | ⟨at_, rfl, evicted⟩ | ⟨db, ran, rfl⟩
  · obtain ⟨marks, same⟩ := save_memory saved
    rw [same]
    exact flagged
  · refine @evictIdle_induction names (fun m => m.db.Flagged) t.now at_ ?_ m m' evicted flagged
    intro db dir s _ _ up name ns found
    rw [get_evictedDb] at found
    split_ifs at found
    exact up name ns found
  · exact (Act.apply_updates ran).flagged flagged

/-- A server over a directory of its own files, or one that keeps no files and has everything in
memory. -/
def Homed (names : ShardFiles) (m : Machine) : Prop :=
  Placed names m ∨ m.db.store = false ∧ ∀ s, m.db.evicted s = false

/-- The shard of the tally is never out of memory. -/
theorem Homed.hot (homed : m.Homed names) : m.db.evicted internalShard = false :=
  homed.elim (·.hot) fun inMemory => inMemory.2 _

theorem Homed.moves {db db' : Database} {dir : Dir} {t : Moment} {adds drops : Item → Prop} {blind : Prop}
    (homed : Homed names ⟨db, dir⟩) (moves : Moves (t.world names dir) adds drops blind db db')
    (play : ∀ item, adds item → names.used (shardOf item.name)) : Homed names ⟨db', dir⟩ :=
  homed.imp (·.moves moves play) fun inMemory => ⟨moves.store.trans inMemory.1, fun s => moves.here (inMemory.2 s)⟩

theorem stepAmid_homed {t : Moment} {act : Act} (homed : m.Homed names) (play : act.InPlay names)
    (stepped : m.stepAmid names t act = some m') : m'.Homed names := by
  rcases stepAmid_cases stepped with ⟨order, rfl, saved⟩ | ⟨at_, rfl, evicted⟩ | ⟨same, moves⟩
  · rcases homed with placed | inMemory
    · exact .inl (placed.save saved).1
    · obtain ⟨marks, same⟩ := save_memory saved
      refine .inr ?_
      rw [same]
      exact inMemory
  · rcases homed with placed | inMemory
    · exact .inl (@evictIdle_induction names (Placed names) t.now at_ (fun db dir s listed other placed =>
        placed.evict listed other) m m' evicted placed)
    · simp only [step, Database.evictIdle, inMemory.1, Bool.not_false, if_true] at evicted
      obtain rfl := Option.some.inj evicted
      exact .inr inMemory
  · obtain ⟨db', dir'⟩ := m'
    obtain rfl : dir' = m.dir := same
    exact homed.moves moves play

theorem runAmid_homed {acts : List (Moment × Act)} (homed : m.Homed names) (play : ∀ e ∈ acts, e.2.InPlay names)
    (ran : m.runAmid names acts = some m') : m'.Homed names := by
  induction acts generalizing m with
  | nil =>
      obtain rfl := Option.some.inj ran
      exact homed
  | cons e rest ih =>
      obtain ⟨mid, stepped, ranRest⟩ := Option.bind_eq_some_iff.mp ran
      exact ih (stepAmid_homed homed (play e List.mem_cons_self) stepped)
        (fun e' member => play e' (List.mem_cons_of_mem _ member)) ranRest

/-- No step puts the shard of the tally out of memory. -/
theorem stepAmid_hot {t : Moment} {act : Act} (hot : m.db.evicted internalShard = false)
    (stepped : m.stepAmid names t act = some m') : m'.db.evicted internalShard = false := by
  rcases stepAmid_cases stepped with ⟨order, rfl, saved⟩ | ⟨at_, rfl, evicted⟩ | ⟨_, moves⟩
  · obtain ⟨marks, same⟩ := save_memory saved
    rw [same]
    exact hot
  · refine @evictIdle_induction names (fun m => m.db.evicted internalShard = false) t.now at_ ?_ m m' evicted hot
    intro db dir s listed other hot
    rw [evicted_evictedDb listed]
    simp [Ne.symm other, show db.evicted internalShard = false from hot]
  · exact moves.here hot

theorem runAmid_flagged {acts : List (Moment × Act)} (flagged : m.db.Flagged) (hot : m.db.evicted internalShard = false)
    (ran : m.runAmid names acts = some m') : m'.db.Flagged ∧ m'.db.evicted internalShard = false := by
  induction acts generalizing m with
  | nil =>
      obtain rfl := Option.some.inj ran
      exact ⟨flagged, hot⟩
  | cons e rest ih =>
      obtain ⟨mid, stepped, ranRest⟩ := Option.bind_eq_some_iff.mp ran
      exact ih (stepAmid_flagged flagged stepped) (stepAmid_hot hot stepped) ranRest

section Start

variable {dir : Dir} {policy : DatabasePolicy} {stores : StoragePolicy} {node : String} {now : DateTime} {db : Database}

/-- A server that has started, with a store attached or without one. -/
def booted (db : Database) (tiers : TierPolicy) (dir : Dir) (stored : Bool) : Machine :=
  ⟨if stored then db.attachStore tiers else db, dir⟩

theorem start_flagged (started : restart dir policy stores node now = .ok db) (stored : Bool) (tiers : TierPolicy) :
    (booted db tiers dir stored).db.Flagged ∧ (booted db tiers dir stored).db.evicted internalShard = false := by
  have resident := started_resident started
  have flagged : db.Flagged := by
    intro name ns found
    obtain ⟨data, _, rfl⟩ := load_of_restart started
    cases data with
    | none => cases found
    | some snap =>
        rw [Option.elim_some, Database.fromSnapshotAs, OrderedMap.get_mapValues] at found
        obtain ⟨values, _, rfl⟩ := Option.map_eq_some_iff.mp found
        exact Namespace.fromValues_flagged values node
  cases stored <;> exact ⟨flagged, resident _⟩

theorem start_homed (shards : ShardDir names dir) (started : restart dir policy stores node now = .ok db)
    (stored : Bool) (tiers : TierPolicy) : (booted db tiers dir stored).Homed names := by
  cases stored with
  | true => exact .inl (start_placed shards started tiers).1
  | false =>
      refine .inr ⟨?_, started_resident started⟩
      obtain ⟨data, _, rfl⟩ := load_of_restart started
      cases data <;> rfl

end Start

end Machine

end SightingDB
