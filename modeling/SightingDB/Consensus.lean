import SightingDB.Sightings
import SightingDB.Store

/-!
The tally in `_all` is kept incrementally: every operation that brings a value into a
namespace, or takes one out, adjusts it by itself. The books are kept as one invariant:
what `_all` says is what a count over the namespaces gives.
-/
namespace SightingDB

/-- How many namespaces outside the database's own hold a value, expired or not. -/
def tally (m : OrderedMap String Namespace) (value : String) : Nat :=
  m.countP fun name ns => !isInternal name && ns.values.contains value

/-- The entry of a value in `_all`. -/
def allEntry (m : OrderedMap String Namespace) (value : String) : Option Attribute :=
  (m.get allNamespace).bind (·.values.get value)

/-- `_all` states the numbers `f`, all of them under this server's own name and none of
them with a lifetime; a number of zero is no entry. -/
def Ledger (node : String) (m : OrderedMap String Namespace) (f : String → Nat) : Prop :=
  ∀ v, match allEntry m v with
    | none => f v = 0
    | some a => 0 < f v ∧ a.counts = OrderedMap.empty.insert node (f v) ∧ a.ttl = 0

theorem tally_le_size (m : OrderedMap String Namespace) (v : String) : tally m v ≤ m.size :=
  List.countP_le_length

/-- One external namespace replaced: the tally moves with whether it holds the value. -/
theorem tally_insert {m : OrderedMap String Namespace} {name : String}
    (external : isInternal name = false) (ns : Namespace) (v : String) :
    tally (m.insert name ns) v + (((m.get name).getD .empty).values.contains v).toNat =
      tally m v + (ns.values.contains v).toNat := by
  have count := m.countP_insert (fun name ns => !isInternal name && ns.values.contains v) name ns
  cases found : m.get name with
  | none => simpa [tally, external, found, Namespace.empty, OrderedMap.contains] using count
  | some old => simpa [tally, external, found] using count

theorem tally_insert_internal {m : OrderedMap String Namespace} {name : String}
    (internal : isInternal name = true) (ns : Namespace) (v : String) :
    tally (m.insert name ns) v = tally m v := by
  have count := m.countP_insert (fun name ns => !isInternal name && ns.values.contains v) name ns
  cases found : m.get name <;> simpa [tally, internal, found] using count

theorem tally_erase {m : OrderedMap String Namespace} {name : String}
    (external : isInternal name = false) {ns : Namespace} (found : m.get name = some ns) (v : String) :
    tally (m.erase name) v + (ns.values.contains v).toNat = tally m v := by
  have count := m.countP_erase (fun name ns => !isInternal name && ns.values.contains v) name
  simpa [tally, external, found] using count

/-- Taking an empty namespace out moves no tally. -/
theorem tally_erase_empty {m : OrderedMap String Namespace} {name : String} {ns : Namespace}
    (found : m.get name = some ns) (empty : ns.isEmpty = true) (v : String) :
    tally (m.erase name) v = tally m v := by
  have count := m.countP_erase (fun name ns => !isInternal name && ns.values.contains v) name
  have none : ns.values.contains v = false :=
    OrderedMap.not_contains_iff.mpr (Namespace.get_of_isEmpty empty v)
  simpa [tally, found, none] using count

theorem allEntry_insert {m : OrderedMap String Namespace} {name : String} (other : name ≠ allNamespace)
    (ns : Namespace) (v : String) : allEntry (m.insert name ns) v = allEntry m v := by
  simp [allEntry, OrderedMap.get_insert, Ne.symm other]

theorem allEntry_erase {m : OrderedMap String Namespace} {name : String} (other : name ≠ allNamespace)
    (v : String) : allEntry (m.erase name) v = allEntry m v := by
  simp [allEntry, OrderedMap.get_erase, Ne.symm other]

section Ledger

variable {node : String} {m : OrderedMap String Namespace} {f : String → Nat}

theorem Ledger.insert (ledger : Ledger node m f) {name : String} (other : name ≠ allNamespace)
    (ns : Namespace) : Ledger node (m.insert name ns) f := by
  intro v
  rw [allEntry_insert other]
  exact ledger v

theorem Ledger.erase (ledger : Ledger node m f) {name : String} (other : name ≠ allNamespace) :
    Ledger node (m.erase name) f := by
  intro v
  rw [allEntry_erase other]
  exact ledger v

/-- A first sighting somewhere is one more in `_all`. -/
theorem Ledger.record (ledger : Ledger node m f) (value : String) (when : DateTime) (retention : Nat)
    (fits : f value + 1 < u64Size) :
    Ledger node
      (m.insert allNamespace
        (((m.get allNamespace).getD .empty).record node value when none retention "").1)
      (Function.update f value (f value + 1)) := by
  intro v
  have entry : allEntry (m.insert allNamespace
      (((m.get allNamespace).getD .empty).record node value when none retention "").1) v =
      if v = value then
        some ((((m.get allNamespace).getD .empty).cell value).sighted node when none retention "")
      else allEntry m v := by
    simp only [allEntry, OrderedMap.get_insert_self, Option.bind_some, Namespace.record_values,
      OrderedMap.get_insert]
    split_ifs with same
    · rfl
    · cases m.get allNamespace <;> simp [Namespace.empty]
  rw [entry]
  by_cases same : v = value
  · subst same
    simp only [if_true, Function.update_self, Attribute.sighted_eq]
    have before := ledger v
    have cell : ((m.get allNamespace).getD .empty).cell v = (allEntry m v).getD (.new v) := by
      cases found : m.get allNamespace <;> simp [Namespace.cell, allEntry, found, Namespace.empty]
    rw [cell]
    cases found : allEntry m v with
    | none =>
        simp only [found] at before
        refine ⟨Nat.succ_pos _, ?_, ?_⟩
        · simp [before, Attribute.addTo, Attribute.new, u64Size]
          rfl
        · simp [Attribute.new]
    | some a =>
        simp only [found] at before
        obtain ⟨_, counts, ttl⟩ := before
        refine ⟨Nat.succ_pos _, ?_, ?_⟩
        · rw [Attribute.increment_counts]
          simp only [Option.getD_some, Attribute.addTo, counts, OrderedMap.get_insert_self,
            Nat.mod_eq_of_lt fits]
          refine OrderedMap.ext_get fun k => ?_
          by_cases hit : k = node <;> simp [OrderedMap.get_insert, hit]
        · simpa using ttl
  · simp only [if_neg same, Function.update_of_ne same]
    exact ledger v

/-- What `_all` says of a value moves down by one when it is given back; the entry goes
with the last one. -/
theorem Ledger.release (ledger : Ledger node m f) (value : String) {all : Namespace}
    (held : m.get allNamespace = some all) (fits : f value < u64Size) :
    Ledger node (m.insert allNamespace (all.release node value))
      (Function.update f value (f value - 1)) := by
  have before := ledger value
  have entry : allEntry m value = all.values.get value := by simp [allEntry, held]
  rw [entry] at before
  -- The two maps agree at every other value.
  have others : ∀ v, v ≠ value →
      allEntry (m.insert allNamespace (all.release node value)) v = allEntry m v := by
    intro v hne
    simp only [allEntry, OrderedMap.get_insert_self, held, Option.bind_some, Namespace.release]
    cases all.values.get value with
    | none => rfl
    | some a =>
        by_cases last : (a.decrement node).2 = 0
        · simp [last, OrderedMap.get_erase, hne]
        · simp [last, OrderedMap.get_insert, hne]
  intro v
  by_cases same : v = value
  · subst same
    rw [Function.update_self]
    simp only [allEntry, OrderedMap.get_insert_self, Option.bind_some, Namespace.release]
    cases found : all.values.get v with
    | none =>
        simp only [found] at before ⊢
        omega
    | some a =>
        simp only [found] at before
        obtain ⟨positive, counts, ttl⟩ := before
        have left := Attribute.decrement_fst (show a.counts.get node = some (f v) by simp [counts])
        by_cases last : f v - 1 = 0
        · have remaining : (a.decrement node).2 = 0 := by
            rw [Attribute.decrement_snd, left, if_pos last]
            have gone := OrderedMap.total_erase a.counts node
            simp only [counts, OrderedMap.get_insert_self, Option.getD_some,
              OrderedMap.total_single] at gone
            simp only [Attribute.count, counts]
            rw [show (OrderedMap.erase (OrderedMap.empty.insert node (f v)) node).total = 0 by omega]
            rfl
          simp only [remaining, if_true, OrderedMap.get_erase_self]
          exact last
        · have single : (a.decrement node).1 =
              { a with counts := OrderedMap.empty.insert node (f v - 1) } := by
            rw [left, if_neg last, counts]
            congr 1
            refine OrderedMap.ext_get fun k => ?_
            by_cases hit : k = node <;> simp [OrderedMap.get_insert, hit]
          have remaining : (a.decrement node).2 ≠ 0 := by
            rw [Attribute.decrement_snd, single, Attribute.count, OrderedMap.total_single,
              Nat.mod_eq_of_lt (by omega)]
            exact last
          simp only [remaining, if_false, OrderedMap.get_insert_self, single]
          exact ⟨by omega, trivial, ttl⟩
  · rw [others v same, Function.update_of_ne same]
    exact ledger v

end Ledger

/-! ## Nothing evicted -/

namespace Database

/-- Every shard the catalogue knows is in memory. -/
def AllResident (db : Database) : Prop :=
  ∀ shard meta_, db.shards.get shard = some meta_ → meta_.resident = true

/-- A database with everything in memory, reduced to what the tally depends on. -/
structure Keeps (db : Database) (node : String) (m : OrderedMap String Namespace) : Prop where
  resident : db.AllResident
  node : db.node = node
  namespaces : db.namespaces = m

variable {db : Database} {w : World} {node : String} {m : OrderedMap String Namespace}

theorem Keeps.touch (keeps : db.Keeps node m) (shard : String) : (db.touch w shard).Keeps node m where
  resident k meta_ found := by
    rw [touch_shards, Option.map_eq_some_iff] at found
    obtain ⟨old, held, rfl⟩ := found
    have := keeps.resident k old held
    split_ifs <;> exact this
  node := by simp [keeps.node]
  namespaces := by simp [keeps.namespaces]

theorem Keeps.markDirty (keeps : db.Keeps node m) (name : String) : (db.markDirty name).Keeps node m :=
  ⟨keeps.resident, keeps.node, keeps.namespaces⟩

theorem Keeps.put (keeps : db.Keeps node m) (name : String) (ns : Namespace) :
    (db.put name ns).Keeps node (m.insert name ns) :=
  ⟨keeps.resident, keeps.node, congrArg (·.insert name ns) keeps.namespaces⟩

theorem AllResident.catalogue (resident : db.AllResident) (name : String) (at_ : Int) (shard : String)
    (meta_ : ShardMeta) (found : (catalogue db.shards name at_).get shard = some meta_) :
    meta_.resident = true := by
  rw [Database.catalogue, OrderedMap.get_insert] at found
  split_ifs at found with same
  · obtain rfl := Option.some.inj found
    rfl
  · exact resident shard meta_ found

theorem Keeps.uncatalogue (keeps : db.Keeps node m) (name : String) :
    (db.uncatalogue name).Keeps node m := by
  simp only [Database.uncatalogue]
  cases found : db.shards.get (shardOf name) with
  | none => exact keeps
  | some meta_ =>
      refine ⟨?_, keeps.node, keeps.namespaces⟩
      intro shard meta' held
      simp only [OrderedMap.get_insert] at held
      split_ifs at held with same
      · obtain rfl := Option.some.inj held
        exact keeps.resident _ meta_ found
      · exact keeps.resident shard meta' held

theorem Keeps.erase (keeps : db.Keeps node m) (name : String) :
    ({ db with namespaces := db.namespaces.erase name } : Database).Keeps node (m.erase name) :=
  ⟨keeps.resident, keeps.node, congrArg (·.erase name) keeps.namespaces⟩

theorem Keeps.namespace_ (keeps : db.Keeps node m) (name : String) :
    db.namespace_ w name = (db.touch w (shardOf name), m.get name) := by
  have absent : (db.touch w (shardOf name)).catalogued (shardOf name) name = false := by
    simp only [catalogued]
    cases found : (db.touch w (shardOf name)).shards.get (shardOf name) with
    | none => rfl
    | some meta_ => simp [(keeps.touch (shardOf name)).resident _ _ found]
  simp only [Database.namespace_, touch_namespaces, keeps.namespaces]
  cases m.get name <;> simp [absent]

theorem Keeps.evicted (keeps : db.Keeps node m) (shard : String) : db.evicted shard = false := by
  simp only [Database.evicted]
  cases found : db.shards.get shard with
  | none => rfl
  | some meta_ => simp [keeps.resident _ _ found]

theorem held_resident {names : ShardFiles} {dir : Dir} (resident : db.AllResident) (name : String) :
    held names dir db name = (db.namespaces.get name).map (·.values) := by
  have keeps : db.Keeps db.node db.namespaces := ⟨resident, rfl, rfl⟩
  simp only [held, keeps.evicted]
  cases db.namespaces.get name <;> rfl

theorem Keeps.namespaceOrCreate (keeps : db.Keeps node m) (w : World) (name : String) :
    (db.namespaceOrCreate w name).1.Keeps node (m.insert name ((m.get name).getD .empty)) ∧
      (db.namespaceOrCreate w name).2 = (m.get name).getD .empty := by
  have touched := keeps.touch (w := w) (shardOf name)
  simp only [Database.namespaceOrCreate, keeps.namespace_]
  cases found : m.get name with
  | some ns =>
      simpa [OrderedMap.insert_self m found] using touched
  | none =>
      simp only [touched.evicted, Bool.false_eq_true, if_false, touch_namespaces, keeps.namespaces, found,
        Option.getD_none, and_true]
      exact ⟨touched.resident.catalogue name _, touched.node, rfl⟩

theorem Keeps.count (keeps : db.Keeps node m) (w : World) (path value : String) :
    (db.count w path value).1.Keeps node m ∧
      (db.count w path value).2 = (m.get path).elim 0 fun ns => ns.count value w.now := by
  have touched := keeps.touch (w := w) (shardOf path)
  simp only [Database.count, keeps.namespace_]
  cases m.get path <;> exact ⟨touched, rfl⟩

theorem Keeps.logged (keeps : db.Keeps node m) (w : World) (path value : String) :
    (db.logged w path value).Keeps node m :=
  (keeps.count w allNamespace value).1.markDirty path

theorem Keeps.recordIn (keeps : db.Keeps node m) (w : World) (origin path value : String)
    (when : DateTime) (ttl : Option Nat) (tags : String) :
    ∃ retention, (db.recordIn w origin path value when ttl tags).1.Keeps node
        (m.insert path (((m.get path).getD .empty).record origin value when ttl retention tags).1) ∧
      (db.recordIn w origin path value when ttl tags).2.new =
        !((m.get path).getD .empty).values.contains value := by
  obtain ⟨created, handle⟩ := keeps.namespaceOrCreate w path
  refine ⟨(db.namespaceOrCreate w path).1.policy.statsRetention, ?_, ?_⟩
  · have stored := created.put path (((m.get path).getD .empty).record origin value when ttl
      (db.namespaceOrCreate w path).1.policy.statsRetention tags).1
    rw [OrderedMap.insert_insert] at stored
    simpa only [Database.recordIn, handle] using stored
  · simp only [Database.recordIn, handle, Namespace.record_isNew]

theorem Keeps.writePlain (keeps : db.Keeps node m) (w : World) (path value : String)
    (when : DateTime) (ttl : Option Nat) :
    ∃ retention, (db.writePlain w path value when ttl).Keeps node
      (m.insert path (((m.get path).getD .empty).record node value when ttl retention "").1) := by
  obtain ⟨retention, stored, _⟩ := keeps.recordIn w db.node path value when ttl ""
  rw [keeps.node] at stored
  refine ⟨retention, ?_⟩
  rw [Database.writePlain, keeps.node]
  exact stored.logged w path value

/-- A write that does not count towards consensus touches its own namespace only. -/
theorem Keeps.write (keeps : db.Keeps node m) (w : World) (path value : String) (when : DateTime) :
    ∃ retention, (db.write w path value when .default).Keeps node
      (m.insert path
        (((m.get path).getD .empty).record node value when (db.ttlOf path .default) retention "").1) := by
  obtain ⟨retention, stored, _⟩ :=
    keeps.recordIn w db.node path value when (db.ttlOf path .default) ""
  refine ⟨retention, ?_⟩
  have logged := stored.logged w path value
  rw [keeps.node] at logged
  simpa only [Database.write, recordWrite, WriteOpts.default, Bool.false_and, Bool.false_eq_true,
    if_false, keeps.node] using logged

theorem Keeps.release (keeps : db.Keeps node m) (w : World) (value : String) :
    (db.releaseConsensus w value).Keeps node
      ((m.get allNamespace).elim m fun all => m.insert allNamespace (all.release node value)) := by
  have touched := keeps.touch (w := w) (shardOf allNamespace)
  simp only [releaseConsensus, keeps.namespace_]
  cases m.get allNamespace with
  | none => exact touched
  | some all =>
      simp only [touched.node, Option.elim_some]
      exact touched.put allNamespace (all.release node value)

/-- Values given back one after another. -/
theorem Keeps.releaseAll (keeps : db.Keeps node m) (w : World) (values : List String)
    {f : String → Nat} (ledger : Ledger node m f) (fits : ∀ v, f v < u64Size) :
    ∃ m', (values.foldl (fun db value => db.releaseConsensus w value) db).Keeps node m' ∧
      Ledger node m' (fun v => f v - values.count v) ∧ (∀ name, name ≠ allNamespace → m'.get name = m.get name) ∧
      tally m' = tally m := by
  induction values generalizing db m f with
  | nil => exact ⟨m, keeps, by simpa using ledger, fun _ _ => rfl, rfl⟩
  | cons value rest ih =>
      have released := keeps.release w value
      have step : Ledger node
          ((m.get allNamespace).elim m fun all => m.insert allNamespace (all.release node value))
          (Function.update f value (f value - 1)) := by
        cases held : m.get allNamespace with
        | none =>
            have zero : f value = 0 := by simpa [allEntry, held] using ledger value
            have same : Function.update f value (f value - 1) = f := by
              simp [zero, Function.update_eq_self_iff]
            rw [same]
            exact ledger
        | some all => exact ledger.release value held (fits value)
      have bounds : ∀ v, Function.update f value (f value - 1) v < u64Size := by
        intro v
        by_cases same : v = value
        · subst same
          rw [Function.update_self]
          exact lt_of_le_of_lt (Nat.sub_le _ _) (fits v)
        · rw [Function.update_of_ne same]
          exact fits v
      obtain ⟨m', keeps', ledger', others, tallies⟩ := ih released step bounds
      refine ⟨m', keeps', ?_, ?_, ?_⟩
      · refine cast (congrArg (Ledger node m') (funext fun v => ?_)) ledger'
        by_cases same : v = value
        · subst same
          simp only [Function.update_self, List.count_cons_self]
          omega
        · simp [Function.update_of_ne same, List.count_cons_of_ne (Ne.symm same)]
      · intro name other
        rw [others name other]
        cases m.get allNamespace <;> simp [OrderedMap.get_insert, other]
      · rw [tallies]
        cases m.get allNamespace with
        | none => rfl
        | some all => exact funext fun v => tally_insert_internal (by decide) _ v

end Database

end SightingDB
