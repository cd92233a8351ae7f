import SightingDB.Saving

/-!
Whole runs of a server with a store: whatever is held when a save is made is what a
restart from the files finds, as long as no operation changes a shard without marking it.
Three operations can: a merge that has nothing to report, and the two that give back
consensus. A fourth makes `_all` without marking it.
-/
namespace SightingDB

section Operations

variable {names : ShardFiles} {dir : Dir} {db : Database} {exempt : String → Prop}

theorem createNamespace_consistent (consistent : Consistent names dir exempt db) (now : DateTime)
    {name : String} (used : names.used (shardOf name)) : Consistent names dir exempt (db.createNamespace (.sound names dir now) name).1 := by
  simp only [Database.createNamespace]
  split
  · exact consistent
  · have opened := namespaceOrCreate_spec consistent now used
    exact opened.consistent.markDirty opened.here used

/-! ## Stating consensus outright -/

/-- A count that is not corrected is left alone. -/
theorem setCount_unflagged {ns : Namespace} {node value : String} {count : Nat} {now : DateTime}
    (right : (ns.setCount node value count now).2 = false) :
    (ns.setCount node value count now).1.values = ns.values ∧ (ns.values.get value = none → count = 0) := by
  simp only [Namespace.setCount] at right ⊢
  by_cases zero : count = 0
  · simp only [zero, if_true] at right ⊢
    exact ⟨OrderedMap.erase_absent _ (OrderedMap.not_contains_iff.mp right), fun _ => trivial⟩
  · simp only [zero, if_false] at right ⊢
    cases found : ns.values.get value with
    | none =>
        have none : (Attribute.new value).count = 0 := rfl
        simp [found, none, Ne.symm zero] at right
    | some a =>
        by_cases same : a.count = count
        · simp [same, OrderedMap.insert_self _ found]
        · simp [found, same] at right

theorem correct_le (node : String) (now : DateTime) (acc : Namespace × Nat) (value : String) (truth : Nat) :
    acc.2 ≤ (Database.correct node now acc value truth).2 := by
  simp only [Database.correct]
  split <;> omega

theorem correct_unflagged {node : String} {now : DateTime} {acc : Namespace × Nat} {value : String}
    {truth : Nat} (same : (Database.correct node now acc value truth).2 = acc.2) :
    (Database.correct node now acc value truth).1.values = acc.1.values ∧
      (acc.1.values.get value = none → truth = 0) := by
  refine setCount_unflagged ?_
  cases wrong : (acc.1.setCount node value truth now).2 with
  | false => rfl
  | true => simp [Database.correct, wrong] at same

/-- A walk that corrected nothing has met every value as it was. -/
theorem walk_unflagged {α : Type} {step : Namespace × Nat → α → Namespace × Nat}
    (le : ∀ acc x, acc.2 ≤ (step acc x).2)
    (kept : ∀ acc x, (step acc x).2 = acc.2 → (step acc x).1.values = acc.1.values) (l : List α)
    (acc : Namespace × Nat) :
    acc.2 ≤ (l.foldl step acc).2 ∧ ((l.foldl step acc).2 = acc.2 →
      (l.foldl step acc).1.values = acc.1.values ∧
        ∀ x ∈ l, ∃ acc', acc'.1.values = acc.1.values ∧ (step acc' x).2 = acc'.2) := by
  induction l generalizing acc with
  | nil => exact ⟨le_rfl, fun _ => ⟨rfl, by simp⟩⟩
  | cons x rest ih =>
      obtain ⟨rises, later⟩ := ih (step acc x)
      refine ⟨(le acc x).trans rises, fun same => ?_⟩
      have first : (step acc x).2 = acc.2 := le_antisymm (same ▸ rises) (le acc x)
      obtain ⟨values, met⟩ := later (same.trans first.symm)
      refine ⟨values.trans (kept acc x first), fun y member => ?_⟩
      rcases List.mem_cons.mp member with rfl | after
      · exact ⟨acc, rfl, first⟩
      · obtain ⟨acc', same', step'⟩ := met y after
        exact ⟨acc', same'.trans (kept acc x first), step'⟩

theorem survey_unflagged {holders : OrderedMap String Names} {node : String} {now : DateTime} {all : Namespace}
    (right : (Database.survey holders node now all).2 = 0) :
    (Database.survey holders node now all).1.values = all.values ∧
      ∀ value set, holders.get value = some set → all.values.get value = none → set.size = 0 := by
  simp only [Database.survey] at right ⊢
  obtain ⟨rises, first⟩ := walk_unflagged
    (fun acc (e : String × Names) => correct_le node now acc e.1 e.2.size)
    (fun acc e same => (correct_unflagged same).1) holders.entries (all, 0)
  generalize holders.entries.foldl (fun acc e => Database.correct node now acc e.1 e.2.size) (all, 0) = acc
    at rises first right ⊢
  have second := walk_unflagged (α := String)
    (fun acc value => show acc.2 ≤
        (if holders.contains value then acc else Database.correct node now acc value 0).2 by
      split
      · exact le_rfl
      · exact correct_le node now acc value 0)
    (fun acc value same => by
      split_ifs at same ⊢
      · rfl
      · exact (correct_unflagged same).1) acc.1.valueNames acc
  obtain ⟨rises', second⟩ := second
  have noneFirst : acc.2 = 0 := Nat.eq_zero_of_le_zero (right ▸ rises')
  obtain ⟨values, met⟩ := first noneFirst
  refine ⟨(second (right.trans noneFirst.symm)).1.trans values, fun value set found absent => ?_⟩
  obtain ⟨acc', same, unflagged⟩ := met (value, set) (OrderedMap.mem_entries.mpr found)
  exact (correct_unflagged unflagged).2 (by rw [same]; exact absent)

/-- A survey that cannot make `_all` without marking it. -/
def Surveyed (names : ShardFiles) (dir : Dir) (db : Database) (holders : OrderedMap String Names) : Prop :=
  (held names dir db allNamespace).isSome = true ∨ db.dirty.contains internalShard = true ∨
    ∃ value set, holders.get value = some set ∧ 0 < set.size

theorem setConsensus_consistent (consistent : Consistent names dir exempt db) (now : DateTime)
    (holders : OrderedMap String Names) (surveyed : Surveyed names dir db holders) :
    Consistent names dir exempt (db.setConsensus (.sound names dir now) holders).1 := by
  have used : names.used (shardOf allNamespace) := by
    rw [shardOf_all]
    exact names.internal
  have opened := namespaceOrCreate_spec consistent now used
  simp only [Database.setConsensus]
  generalize db.namespaceOrCreate (.sound names dir now) allNamespace = fetched at opened ⊢
  obtain ⟨db₁, all⟩ := fetched
  dsimp only at opened ⊢
  have stored := opened.put (Database.survey holders db₁.node (World.sound names dir now).now all).1
  split_ifs with wrong
  · exact (stored.markDirty opened.here used).consistent
  · obtain ⟨values, found⟩ := survey_unflagged (Nat.eq_zero_of_not_pos wrong)
    rcases surveyed with known | dirty | ⟨value, set, holds, some⟩
    · exact (opened.existing known).put_same opened.handle values
    · exact stored.consistent.of_dirty (stored.marked _ dirty)
    · by_cases known : (held names dir db allNamespace).isSome = true
      · exact (opened.existing known).put_same opened.handle values
      · have nothing : all.values = ∅ := by
          rw [opened.values, Option.not_isSome_iff_eq_none.mp known]
          rfl
        have zero := found value set holds (by rw [nothing]; rfl)
        omega

/-! ## Sweeping -/

/-- A sweep that leaves the shard of the tally marked, or gives back nothing that is there. -/
def Swept (names : ShardFiles) (dir : Dir) (db : Database) (now : DateTime) : Prop :=
  db.dirty.contains internalShard = true ∨
    ∀ name ns v a, db.namespaces.get name = some ns → countsTowardsConsensus name = true →
      ns.values.get v = some a → a.isExpired now = true → Settled db.node v (held names dir db)

theorem removeExpired_sub {ns : Namespace} {now : DateTime} {v : String} {a : Attribute}
    (kept : (ns.removeExpired now).1.values.get v = some a) : ns.values.get v = some a := by
  simp only [Namespace.removeExpired] at kept
  split_ifs at kept
  · exact kept
  · exact kept
  · rw [OrderedMap.get_filter, Option.filter_eq_some_iff] at kept
    exact kept.1

theorem removeExpired_expired {ns : Namespace} {now : DateTime} {v : String}
    (gone : v ∈ (ns.removeExpired now).2) : ∃ a, ns.values.get v = some a ∧ a.isExpired now = true := by
  simp only [Namespace.removeExpired] at gone
  split_ifs at gone
  · simp at gone
  · simp at gone
  · obtain ⟨a, kept⟩ := OrderedMap.mem_keys.mp gone
    rw [OrderedMap.get_filter, Option.filter_eq_some_iff] at kept
    exact ⟨a, kept⟩

theorem removeExpired_nil {ns : Namespace} {now : DateTime} (none : (ns.removeExpired now).2 = []) :
    (ns.removeExpired now).1 = ns := by
  simp only [Namespace.removeExpired] at none ⊢
  split_ifs at none ⊢ with noTtl live
  · rfl
  · rfl
  · simp only [Bool.not_eq_true', Bool.not_eq_false] at live
    obtain ⟨e, member, expired⟩ := List.any_eq_true.mp live
    have gone : e.1 ∈ (ns.values.filter fun _ a => a.isExpired now).keys := by
      rw [OrderedMap.mem_keys]
      exact ⟨e.2, by simp [OrderedMap.mem_entries.mp member, Option.filter, expired]⟩
    dsimp only at none
    rw [none] at gone
    simp at gone

theorem catalogued_of_here {shard : String} (here : db.evicted shard = false) (name : String) :
    db.catalogued shard name = false := by
  simp only [Database.evicted, Database.catalogued] at here ⊢
  cases found : db.shards.get shard with
  | none => rfl
  | some meta_ =>
      rw [found] at here
      dsimp only at here ⊢
      rw [here, Bool.false_and]

/-- With the shard of the tally in memory, giving back consensus brings nothing in and changes
`_all` alone. -/
theorem releaseConsensus_hot (w : World) (value : String) (hot : db.evicted internalShard = false) :
    (db.releaseConsensus w value).evicted internalShard = false ∧ (db.releaseConsensus w value).node = db.node ∧
      ∀ k, (db.releaseConsensus w value).namespaces.get k =
        if k = allNamespace then (db.namespaces.get k).map (·.release db.node value) else db.namespaces.get k := by
  have touched : (db.touch w (shardOf allNamespace)).evicted internalShard = false := by simpa using hot
  have fetched : db.namespace_ w allNamespace =
      (db.touch w (shardOf allNamespace), db.namespaces.get allNamespace) := by
    have uncatalogued := catalogued_of_here touched allNamespace
    rw [← shardOf_all] at uncatalogued
    simp only [Database.namespace_, Database.touch_namespaces]
    cases found : db.namespaces.get allNamespace with
    | some all => rfl
    | none => simp only [uncatalogued, Bool.not_false, if_true]
  simp only [Database.releaseConsensus, fetched]
  cases found : db.namespaces.get allNamespace with
  | none =>
      refine ⟨touched, by simp, fun k => ?_⟩
      split_ifs with same <;> simp [same, found]
  | some all =>
      refine ⟨touched, by simp [Database.put], fun k => ?_⟩
      split_ifs with same <;> simp [Database.put, OrderedMap.get_insert, same, found]

/-- Giving back consensus reaches no namespace but `_all`. -/
theorem releaseAll_others (w : World) (values : List String) (hot : db.evicted internalShard = false)
    {k : String} (other : k ≠ allNamespace) :
    (values.foldl (fun db value => db.releaseConsensus w value) db).namespaces.get k = db.namespaces.get k := by
  induction values generalizing db with
  | nil => rfl
  | cons value rest ih =>
      obtain ⟨hot', _, get⟩ := releaseConsensus_hot w value hot
      rw [List.foldl_cons, ih hot', get, if_neg other]

theorem Settled.mono {node v : String} {c c' : Contents} (settled : Settled node v c)
    (fewer : ∀ all a, c' allNamespace = some all → all.get v = some a →
      ∃ all', c allNamespace = some all' ∧ all'.get v = some a) : Settled node v c' := by
  intro all a found entry
  obtain ⟨all', found', entry'⟩ := fewer all a found entry
  exact settled all' a found' entry'

/-- What a step of a sweep keeps to. -/
structure Sweeps (names : ShardFiles) (dir : Dir) (exempt : String → Prop) (now : DateTime) (db db' : Database) :
    Prop where
  consistent : Consistent names dir exempt db'
  swept : Swept names dir db' now
  marked : ∀ shard, db.dirty.contains shard = true → db'.dirty.contains shard = true

/-- Taking the expired values out of one namespace. -/
theorem removeExpired_sweeps (consistent : Consistent names dir exempt db) {now : DateTime}
    (swept : Swept names dir db now) {name : String} {ns : Namespace}
    (found : db.namespaces.get name = some ns) {db' : Database}
    (isNext : db' = if (ns.removeExpired now).2.isEmpty then db.put name (ns.removeExpired now).1
      else (db.put name (ns.removeExpired now).1).markDirty name) :
    Sweeps names dir exempt now db db' ∧
      ((ns.removeExpired now).2 ≠ [] → db'.dirty.contains (shardOf name) = true) ∧
      (countsTowardsConsensus name = true → Accounted names dir db' (ns.removeExpired now).2) := by
  have present : db.namespaces.contains name = true := OrderedMap.contains_iff.mpr ⟨ns, found⟩
  have stored := Does.put consistent present (ns.removeExpired now).1
  have done : Does names dir exempt (·.put name (ns.removeExpired now).1.values) db db' := by
    rw [isNext]
    split_ifs with none
    · exact { stored with
        consistent := consistent.put_same found
          (congrArg Namespace.values (removeExpired_nil (List.isEmpty_iff.mp none))) }
    · exact stored.markDirty (consistent.evicted_of_present present) (consistent.used_of_present present)
  have namespaces : db'.namespaces = db.namespaces.insert name (ns.removeExpired now).1 := by
    rw [isNext]
    split <;> rfl
  have isHeld : held names dir db name = some ns.values := by simp [held, found]
  have settled : ∀ v, Settled db.node v (held names dir db) → Settled db'.node v (held names dir db') := by
    intro v before
    rw [done.node, done.held]
    refine before.mono fun all a inAll entry => ?_
    simp only [Contents.put] at inAll
    split_ifs at inAll with isAll
    · obtain rfl := Option.some.inj inAll
      exact ⟨ns.values, isAll ▸ isHeld, removeExpired_sub entry⟩
    · exact ⟨all, inAll, entry⟩
  refine ⟨⟨done.consistent, ?_, done.marked⟩, fun some => ?_, fun counts => ?_⟩
  · rcases swept with dirty | free
    · exact .inl (done.marked _ dirty)
    · refine .inr fun k ns' v a inMap counts entry expired => settled v ?_
      rw [namespaces, OrderedMap.get_insert] at inMap
      split_ifs at inMap with same
      · obtain rfl := Option.some.inj inMap
        rw [same] at counts
        exact free name ns v a found counts (removeExpired_sub entry) expired
      · exact free k ns' v a inMap counts entry expired
  · rw [isNext, if_neg (by simpa using some)]
    simp [Database.markDirty, Database.markShardDirty, OrderedMap.contains]
  · rcases swept with dirty | free
    · exact .inl (done.marked _ dirty)
    · refine .inr fun v gone => settled v ?_
      obtain ⟨a, entry, expired⟩ := removeExpired_expired gone
      exact free name ns v a found counts entry expired

theorem Settled.releaseAll {node : String} {values : List String} {c : Contents}
    (settled : ∀ v ∈ values, Settled node v c) : c.releaseAll node values = c := by
  induction values with
  | nil => rfl
  | cons value rest ih =>
      have first := (settled value List.mem_cons_self).release
      have later := ih fun v member => settled v (List.mem_cons_of_mem _ member)
      simpa [Contents.releaseAll, first] using later

/-- Giving back what expired. -/
theorem releaseAll_sweeps (consistent : Consistent names dir exempt db) {now : DateTime}
    (swept : Swept names dir db now) (clock : DateTime) {values : List String}
    (accounted : Accounted names dir db values) :
    Sweeps names dir exempt now db
      (values.foldl (fun db value => db.releaseConsensus (.sound names dir clock) value) db) := by
  have done := releaseAll_does consistent clock values (.inr accounted)
  refine ⟨done.consistent, ?_, done.marked⟩
  rcases swept with dirty | free
  · exact .inl (done.marked _ dirty)
  · rcases accounted with dirty | settled
    · exact .inl (done.marked _ dirty)
    · refine .inr fun k ns v a inMap counts entry expired => ?_
      have other : k ≠ allNamespace := by
        rintro rfl
        simp at counts
      rw [releaseAll_others _ values consistent.hot other] at inMap
      rw [done.node, done.held, Settled.releaseAll settled]
      exact free k ns v a inMap counts entry expired

theorem sweepOne_sweeps (consistent : Consistent names dir exempt db) {now : DateTime}
    (swept : Swept names dir db now) (clock : DateTime) (name : String) :
    Sweeps names dir exempt now db (db.sweepOne (.sound names dir clock) now name).1 ∧
      ∀ n ∈ (db.sweepOne (.sound names dir clock) now name).2.2,
        (db.sweepOne (.sound names dir clock) now name).1.dirty.contains (shardOf n) = true := by
  have still : Sweeps names dir exempt now db db := ⟨consistent, swept, fun _ => id⟩
  simp only [Database.sweepOne]
  cases found : db.namespaces.get name with
  | none => exact ⟨still, by simp⟩
  | some ns =>
      by_cases config : startsWith name configPrefix = true
      · simp only [config, if_true]
        exact ⟨still, by simp⟩
      · simp only [config, Bool.false_eq_true, if_false]
        obtain ⟨removed, marked, accounted⟩ := removeExpired_sweeps consistent swept found rfl
        generalize (if (ns.removeExpired now).2.isEmpty then db.put name (ns.removeExpired now).1
          else (db.put name (ns.removeExpired now).1).markDirty name) = db₁ at removed marked accounted ⊢
        have after : Sweeps names dir exempt now db₁ (if countsTowardsConsensus name then
            (ns.removeExpired now).2.foldl
              (fun db value => db.releaseConsensus (.sound names dir clock) value) db₁ else db₁) := by
          split_ifs with counts
          · exact releaseAll_sweeps removed.consistent removed.swept clock (accounted counts)
          · exact ⟨removed.consistent, removed.swept, fun _ => id⟩
        refine ⟨⟨after.consistent, after.swept, fun s before => after.marked s (removed.marked s before)⟩, ?_⟩
        intro n member
        split_ifs at member with emptied
        · rw [List.mem_singleton.mp member]
          exact after.marked _ (marked (by simp_all))
        · simp at member

/-- A namespace a sweep emptied is in a shard the sweep marked. -/
theorem pruneOne_consistent (consistent : Consistent names dir exempt db) {name : String}
    (dirty : db.dirty.contains (shardOf name) = true) :
    Consistent names dir exempt (db.pruneOne name).1 ∧ (db.pruneOne name).1.dirty = db.dirty := by
  simp only [Database.pruneOne]
  split
  · exact ⟨consistent, rfl⟩
  · cases found : db.namespaces.get name with
    | none => exact ⟨consistent, rfl⟩
    | some ns =>
        dsimp only
        split
        · have erased := Does.erase consistent (OrderedMap.contains_iff.mpr ⟨ns, found⟩)
          refine ⟨erased.consistent.of_dirty (erased.marked _ dirty), ?_⟩
          simp only [Database.uncatalogue]
          split <;> rfl
        · exact ⟨consistent, rfl⟩

theorem sweep_consistent (consistent : Consistent names dir exempt db) {now : DateTime}
    (swept : Swept names dir db now) (clock : DateTime) (order : List String) :
    Consistent names dir exempt (db.sweep (.sound names dir clock) now order).1 := by
  refine Database.sweep_rule (P := fun db => Consistent names dir exempt db ∧ Swept names dir db now)
    (Q := fun db => Consistent names dir exempt db) (E := fun db n => db.dirty.contains (shardOf n) = true)
    ?_ (fun _ both => both.1) ?_ ⟨consistent, swept⟩ order
  · rintro db name ⟨consistent, swept⟩
    obtain ⟨step, marked⟩ := sweepOne_sweeps consistent swept clock name
    exact ⟨⟨step.consistent, step.swept⟩, fun n dirty => step.marked _ dirty, marked⟩
  · intro db name consistent dirty
    obtain ⟨pruned, same⟩ := pruneOne_consistent consistent dirty
    refine ⟨pruned, fun n before => ?_⟩
    rw [same]
    exact before

end Operations

/-! ## Runs -/

/-- What happens to a server with a store. A sweep walks the namespaces and a save the
shards present, both in some order. -/
inductive Act
  | request (r : Request)
  | setConsensus (holders : OrderedMap String Names)
  | createNamespace (name : String)
  | sweep (at_ : DateTime) (order : List String)
  | evictIdle (at_ : Int)
  | save (order : List String)
  deriving DecidableEq

namespace Machine

variable (names : ShardFiles)

def step (m : Machine) (now : DateTime) : Act → Option Machine
  | .request r => some ⟨(r.apply m.db (.sound names m.dir now)).1, m.dir⟩
  | .setConsensus holders => some ⟨(m.db.setConsensus (.sound names m.dir now) holders).1, m.dir⟩
  | .createNamespace name => some ⟨(m.db.createNamespace (.sound names m.dir now) name).1, m.dir⟩
  | .sweep at_ order =>
      if order.Perm m.db.namespaces.keys then some ⟨(m.db.sweep (.sound names m.dir now) at_ order).1, m.dir⟩
      else none
  | .evictIdle at_ =>
      let (db, dir, _) := m.db.evictIdle (.sound names m.dir now) at_
      some ⟨db, dir⟩
  | .save order =>
      if order.Perm (presentShards m.db).keys then
        let (db, dir, _) := SightingDB.save m.db (.sound names m.dir now) false order
        some ⟨db, dir⟩
      else none

def run (m : Machine) : List (DateTime × Act) → Option Machine
  | [] => some m
  | (now, act) :: rest => (m.step names now act).bind fun m => run m rest

/-- An act that changes no shard without marking it, and makes namespaces in shards in play
only. -/
def Marks (m : Machine) : Act → Prop
  | .request r => r.Marks names m.dir (fun _ => False) m.db
  | .setConsensus holders => Surveyed names m.dir m.db holders
  | .createNamespace name => names.used (shardOf name)
  | .sweep at_ _ => Swept names m.dir m.db at_
  | _ => True

/-- Every act of a run marks what it changes. -/
def MarksAll (m : Machine) : List (DateTime × Act) → Prop
  | [] => True
  | (now, act) :: rest => m.Marks names act ∧ ∀ m', m.step names now act = some m' → MarksAll m' rest

/-- The invariant of a run: every shard in memory that is not marked is as its file says. -/
structure Durable (m : Machine) : Prop where
  consistent : Consistent names m.dir (fun _ => False) m.db
  tidy : Tidy names m.dir

variable {names}

theorem step_durable {m m' : Machine} {now : DateTime} {act : Act} (durable : m.Durable names)
    (marks : m.Marks names act) (stepped : m.step names now act = some m') : m'.Durable names := by
  obtain ⟨consistent, tidy⟩ := durable
  cases act with
  | request r =>
      obtain rfl := Option.some.inj stepped
      exact ⟨(r.does consistent now marks).1.consistent, tidy⟩
  | setConsensus holders =>
      obtain rfl := Option.some.inj stepped
      exact ⟨setConsensus_consistent consistent now holders marks, tidy⟩
  | createNamespace name =>
      obtain rfl := Option.some.inj stepped
      exact ⟨createNamespace_consistent consistent now marks, tidy⟩
  | sweep at_ order =>
      simp only [step] at stepped
      split_ifs at stepped
      obtain rfl := Option.some.inj stepped
      exact ⟨sweep_consistent consistent marks now order, tidy⟩
  | evictIdle at_ =>
      obtain rfl := Option.some.inj stepped
      have evicts := evictIdle_evicts consistent (fun _ => False.elim) now at_
      exact ⟨evicts.consistent, evicts.tidy tidy⟩
  | save order =>
      simp only [step] at stepped
      split_ifs at stepped with walk
      obtain ⟨dir', report, saved, spreads, rewritten⟩ :=
        save_rewrites (fun _ => consistent.used_of_present) consistent.marks now walk
      rw [saved] at stepped
      obtain rfl := Option.some.inj stepped
      exact ⟨(consistent.saved rewritten).1, spreads.tidy tidy⟩

theorem run_durable {m m' : Machine} {acts : List (DateTime × Act)} (durable : m.Durable names)
    (marks : m.MarksAll names acts) (ran : m.run names acts = some m') : m'.Durable names := by
  induction acts generalizing m with
  | nil =>
      obtain rfl := Option.some.inj ran
      exact durable
  | cons e rest ih =>
      obtain ⟨mid, stepped, later⟩ := Option.bind_eq_some_iff.mp ran
      exact ih (step_durable durable marks.1 stepped) (marks.2 mid stepped) later

/-- A server that has started from a directory of its own shard files, empty or not. -/
theorem start_durable {dir : Dir} (tidy : Tidy names dir) (own : OwnFiles names dir)
    {policy : DatabasePolicy} {stores : StoragePolicy} {node : String} {now : DateTime} {db : Database}
    (started : restart dir policy stores node now = .ok db) (tiers : TierPolicy) :
    (Machine.mk (db.attachStore tiers) dir).Durable names := by
  obtain ⟨data, loaded, rfl⟩ := load_of_restart started
  obtain ⟨data', loaded', get⟩ := load_get tidy own (load_versions loaded)
  obtain rfl : data = data' := Except.ok.inj (loaded.symm.trans loaded')
  refine ⟨started_consistent loaded own (fun name vals found => ?_) (fun name _ => get name) policy stores node
    now tiers, tidy⟩
  rw [get] at found
  exact fileOf_used tidy own found

/-- A save from a durable state, and a restart from what it leaves. -/
theorem Durable.restores {m : Machine} (durable : m.Durable names) (now : DateTime) {order : List String}
    (walk : order.Perm (presentShards m.db).keys) (policy : DatabasePolicy) (stores : StoragePolicy)
    (later : DateTime) :
    ∃ db' dir' report restored,
      SightingDB.save m.db (.sound names m.dir now) false order = (db', dir', some report) ∧
        restart dir' policy stores m.db.node later = .ok restored ∧
        ∀ name, (restored.namespaces.get name).map (fun ns => onDisk ns.values) =
          (held names m.dir m.db name).map onDisk := by
  obtain ⟨dir', report, saved, spreads, rewritten⟩ :=
    save_rewrites (fun _ => durable.consistent.used_of_present) durable.consistent.marks now walk
  have tidy := spreads.tidy durable.tidy
  obtain ⟨consistent, same⟩ := durable.consistent.saved rewritten
  have versions : ∀ f snap, dir'.files.get f = some snap → checkVersion snap.version = .ok () := by
    intro f snap found
    obtain ⟨s, used, rfl⟩ := tidy.shard f (OrderedMap.contains_iff.mpr ⟨snap, found⟩)
    exact (consistent.own s snap used found).1
  obtain ⟨restored, again, get⟩ := restart_get tidy consistent.ownFiles versions policy stores m.db.node later
  refine ⟨_, dir', report, restored, saved, again, fun name => ?_⟩
  rw [get, ← same, consistent.held_onDisk tidy, Option.map_map]
  rfl

/-- Whatever is held when a save is made is what a restart with the same node id finds:
the same namespaces, the same values, and each value as a file keeps it, to the second. -/
theorem save_survives_restart (names : ShardFiles) (dir : Dir) (policy : DatabasePolicy)
    (stores : StoragePolicy) (node : String) (booted : DateTime) (tiers : TierPolicy)
    (acts : List (DateTime × Act)) (tidy : Tidy names dir) (own : OwnFiles names dir) {db : Database}
    (started : restart dir policy stores node booted = .ok db) {m : Machine}
    (ran : Machine.run names ⟨db.attachStore tiers, dir⟩ acts = some m)
    (marks : Machine.MarksAll names ⟨db.attachStore tiers, dir⟩ acts) (now : DateTime) {order : List String}
    (walk : order.Perm (presentShards m.db).keys) (policy' : DatabasePolicy) (stores' : StoragePolicy)
    (later : DateTime) :
    ∃ db' dir' report restored,
      SightingDB.save m.db (.sound names m.dir now) false order = (db', dir', some report) ∧
        restart dir' policy' stores' m.db.node later = .ok restored ∧
        ∀ name, (restored.namespaces.get name).map (fun ns => onDisk ns.values) =
          (held names m.dir m.db name).map onDisk :=
  (run_durable (start_durable tidy own started tiers) marks ran).restores now walk policy' stores' later

/-- A server that starts with nothing. -/
def fresh : Machine := ⟨(Database.withNode ⟨0, 0⟩ .storeEverything "local").attachStore .default, ⟨none, ∅⟩⟩

def sightingOf (path : String) : Act := .request (.write "local" path "v" .unixEpoch ⟨true, none⟩ "")

/-- A value is written to two namespaces, one of which is deleted before the first save. -/
def writtenTwice : List (DateTime × Act) :=
  [(.unixEpoch, sightingOf "a/x"), (.unixEpoch, sightingOf "a/y"), (.unixEpoch, .request (.delete "a/x"))]

theorem fresh_durable : fresh.Durable .sample :=
  start_durable ⟨rfl, by simp [OrderedMap.contains]⟩ (fun _ _ _ _ _ found => by simp at found)
    (show restart ⟨none, ∅⟩ ⟨0, 0⟩ .storeEverything "local" .unixEpoch = .ok _ from rfl) .default

theorem writtenTwice_marks : fresh.MarksAll .sample writtenTwice := by
  refine ⟨.inr (by decide), fun m₁ first => ?_⟩
  obtain rfl := Option.some.inj first
  refine ⟨.inr (by decide), fun m₂ second => ?_⟩
  obtain rfl := Option.some.inj second
  exact ⟨.inr (.inr (.inr (.inl (by decide)))), fun _ _ => trivial⟩

theorem save_survives_restart_writtenTwice : ∃ m, fresh.run .sample writtenTwice = some m ∧
    (held .sample m.dir m.db "a/y").isSome = true ∧
    ∃ db' dir' report restored,
      SightingDB.save m.db (.sound .sample m.dir .unixEpoch) false ["_internal", "a"] = (db', dir', some report) ∧
        restart dir' ⟨0, 0⟩ .storeEverything m.db.node .unixEpoch = .ok restored ∧
        ∀ name, (restored.namespaces.get name).map (fun ns => onDisk ns.values) =
          (held .sample m.dir m.db name).map onDisk := by
  refine ⟨_, rfl, by decide, ?_⟩
  refine save_survives_restart .sample ⟨none, ∅⟩ ⟨0, 0⟩ .storeEverything "local" .unixEpoch .default
    writtenTwice fresh_durable.tidy ?_ rfl rfl writtenTwice_marks .unixEpoch (by decide) ⟨0, 0⟩
    .storeEverything .unixEpoch
  intro shard snap name vals _ found
  simp at found

/-- A value is written and saved, and then its only namespace is deleted. -/
def forgotten : List (DateTime × Act) :=
  [(.unixEpoch, sightingOf "a/x"), (.unixEpoch, .save ["_internal", "a"]),
    (.unixEpoch, .request (.delete "a/x"))]

/-- The tally that was given back is in the files all the same. -/
theorem tally_comes_back : ∃ m db' dir' report restored,
    fresh.run .sample forgotten = some m ∧ ["_internal"].Perm (presentShards m.db).keys ∧
      SightingDB.save m.db (.sound .sample m.dir .unixEpoch) false ["_internal"] = (db', dir', some report) ∧
      restart dir' ⟨0, 0⟩ .storeEverything m.db.node .unixEpoch = .ok restored ∧
      ¬ ∀ name, (restored.namespaces.get name).map (fun ns => onDisk ns.values) =
        (held .sample m.dir m.db name).map onDisk := by
  refine ⟨_, _, _, _, _, rfl, by decide, rfl, rfl, fun same => ?_⟩
  exact absurd (same allNamespace) (by decide)

end Machine

end SightingDB
