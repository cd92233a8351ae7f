import SightingDB.Balance

/-!
The tally after a restart. A snapshot carries what `_all` counts, entry by entry, under
the id the server had when it counted; values are given back under the id it has now. So
the tally follows deletions and sweeps just as far as the entries under the new id go.
-/
namespace SightingDB

/-- How many namespaces that count towards consensus hold a value, expired or not. -/
def tallied (m : OrderedMap String Namespace) (value : String) : Nat :=
  m.countP fun name ns => countsTowardsConsensus name && ns.values.contains value

/-- One count given back under `node`: the entry goes with the last one. -/
def giveBack (node : String) : Option Attribute → Option Attribute
  | none => none
  | some a => if (a.decrement node).2 = 0 then none else some (a.decrement node).1

/-- What an entry of `_all` counts altogether. -/
def entryCount (e : Option Attribute) : Nat := e.elim 0 Attribute.count

/-- What an entry of `_all` counts under one id. -/
def entryShare (node : String) (e : Option Attribute) : Nat :=
  e.elim 0 fun a => (a.counts.get node).getD 0

/-! ## Giving back -/

section GiveBack

variable {node : String}

theorem giveBack_ttl {e : Option Attribute} (never : ∀ a ∈ e, a.ttl = 0) :
    ∀ a ∈ giveBack node e, a.ttl = 0 := by
  cases e with
  | none => simp [giveBack]
  | some a =>
      have kept : (a.decrement node).1.ttl = a.ttl := by
        cases found : a.counts.get node with
        | none => simp [Attribute.decrement, found]
        | some mine => rw [Attribute.decrement_fst found]
      intro b held
      simp only [giveBack] at held
      split_ifs at held with gone
      · cases held
      · obtain rfl := Option.some.inj held
        rw [kept]
        exact never a rfl

theorem entryCount_giveBack (e : Option Attribute) :
    entryCount (giveBack node e) = e.elim 0 fun a => (a.decrement node).2 := by
  cases e with
  | none => rfl
  | some a =>
      simp only [giveBack, entryCount, Option.elim_some]
      split_ifs with gone
      · exact gone.symm
      · rfl

/-- With nothing under this id there is nothing to give back. -/
theorem giveBack_without {e : Option Attribute} (nothing : entryShare node e = 0) :
    entryCount (giveBack node e) = entryCount e ∧ entryShare node (giveBack node e) = 0 := by
  cases e with
  | none => exact ⟨rfl, rfl⟩
  | some a =>
      have same : (a.decrement node).1.counts.total = a.counts.total ∧
          ((a.decrement node).1.counts.get node).getD 0 = 0 := by
        cases found : a.counts.get node with
        | none => simp [Attribute.decrement, found]
        | some mine =>
            obtain rfl : mine = 0 := by simpa [entryShare, found] using nothing
            have total := OrderedMap.total_erase a.counts node
            rw [found] at total
            rw [Attribute.decrement_fst found]
            simpa using total
      constructor
      · rw [entryCount_giveBack]
        simp only [entryCount, Option.elim_some, Attribute.decrement_snd, Attribute.count, same.1]
      · simp only [giveBack]
        split_ifs with gone
        · rfl
        · exact same.2

/-- One given back is one less, altogether and under this id. -/
theorem giveBack_with {e : Option Attribute} (some_ : 0 < entryShare node e) (counted : 0 < entryCount e) :
    entryCount (giveBack node e) = entryCount e - 1 ∧
      (0 < entryCount (giveBack node e) → entryShare node (giveBack node e) = entryShare node e - 1) := by
  cases e with
  | none => simp [entryShare] at some_
  | some a =>
      cases found : a.counts.get node with
      | none => simp [entryShare, found] at some_
      | some mine =>
          have positive : 0 < mine := by simpa [entryShare, found] using some_
          have left : (a.decrement node).1.counts.total + 1 = a.counts.total ∧
              ((a.decrement node).1.counts.get node).getD 0 = mine - 1 := by
            rw [Attribute.decrement_fst found]
            by_cases last : mine - 1 = 0
            · have total := OrderedMap.total_erase a.counts node
              rw [found, Option.getD_some] at total
              rw [if_pos last]
              exact ⟨by dsimp only; omega, by simp [last]⟩
            · have total := OrderedMap.total_insert a.counts node (mine - 1)
              rw [found, Option.getD_some] at total
              rw [if_neg last]
              exact ⟨by dsimp only; omega, by simp⟩
          have count : (a.decrement node).2 = a.count - 1 := by
            have before : 0 < a.counts.total % u64Size := counted
            rw [Attribute.decrement_snd, Attribute.count, Attribute.count]
            have := Nat.mod_add_div a.counts.total u64Size
            rw [show (a.decrement node).1.counts.total =
              (a.counts.total % u64Size - 1) + u64Size * (a.counts.total / u64Size) by omega]
            rw [Nat.add_mul_mod_self_left, Nat.mod_eq_of_lt]
            exact lt_of_le_of_lt (Nat.sub_le _ _) (Nat.mod_lt _ (by decide))
          constructor
          · rw [entryCount_giveBack]
            exact count
          · intro still
            simp only [giveBack] at still ⊢
            split_ifs at still ⊢ with gone
            · simp [entryCount] at still
            · simpa [entryShare, found] using left.2

/-- Giving back `n` of what is counted takes off as much as there is under this id. -/
theorem entryCount_giveBack_iterate {e : Option Attribute} {n : Nat} (within : n ≤ entryCount e) :
    entryCount ((giveBack node)^[n] e) = entryCount e - min n (entryShare node e) := by
  induction n generalizing e with
  | zero => simp
  | succ n ih =>
      rw [Function.iterate_succ_apply]
      rcases Nat.eq_zero_or_pos (entryShare node e) with without | with_
      · obtain ⟨count, share⟩ := giveBack_without without
        rw [ih (by omega), count, share, without]
        omega
      · obtain ⟨count, share⟩ := giveBack_with with_ (by omega)
        rw [ih (by omega)]
        rcases Nat.eq_zero_or_pos (entryCount (giveBack node e)) with last | more
        · rw [last]
          omega
        · rw [share more]
          omega

end GiveBack

/-! ## What deletions and sweeps do to the tally -/

/-- From `m` to `m'` every value was given back as often as a namespace lost it. -/
def Settles (node : String) (m m' : OrderedMap String Namespace) : Prop :=
  ∃ lost : String → Nat, ∀ v, tallied m' v + lost v = tallied m v ∧
    allEntry m' v = (giveBack node)^[lost v] (allEntry m v)

section Settles

variable {node : String} {m m' m'' : OrderedMap String Namespace}

theorem Settles.refl (node : String) (m : OrderedMap String Namespace) : Settles node m m :=
  ⟨fun _ => 0, fun _ => ⟨rfl, rfl⟩⟩

theorem Settles.trans (first : Settles node m m') (second : Settles node m' m'') : Settles node m m'' := by
  obtain ⟨lost, settled⟩ := first
  obtain ⟨more, settled'⟩ := second
  refine ⟨fun v => more v + lost v, fun v => ?_⟩
  obtain ⟨total, entry⟩ := settled v
  obtain ⟨total', entry'⟩ := settled' v
  refine ⟨by dsimp only; omega, ?_⟩
  rw [entry', entry, Function.iterate_add_apply]

theorem Settles.untimed (settles : Settles node m m') (never : ∀ v, ∀ a ∈ allEntry m v, a.ttl = 0) (v : String) :
    ∀ a ∈ allEntry m' v, a.ttl = 0 := by
  obtain ⟨lost, settled⟩ := settles
  rw [(settled v).2]
  generalize lost v = n
  induction n with
  | zero => exact never v
  | succ n ih =>
      rw [Function.iterate_succ_apply']
      exact giveBack_ttl ih

theorem tallied_insert (name : String) (ns : Namespace) (v : String) :
    tallied (m.insert name ns) v +
        (countsTowardsConsensus name && ((m.get name).getD .empty).values.contains v).toNat =
      tallied m v + (countsTowardsConsensus name && ns.values.contains v).toNat := by
  have count := m.countP_insert (fun name ns => countsTowardsConsensus name && ns.values.contains v) name ns
  cases found : m.get name with
  | none => simpa [tallied, found, Namespace.empty, OrderedMap.contains] using count
  | some old => simpa [tallied, found] using count

theorem tallied_insert_all (ns : Namespace) (v : String) :
    tallied (m.insert allNamespace ns) v = tallied m v := by
  simpa using tallied_insert (m := m) allNamespace ns v

theorem tallied_erase {name : String} {ns : Namespace} (found : m.get name = some ns) (v : String) :
    tallied (m.erase name) v + (countsTowardsConsensus name && ns.values.contains v).toNat = tallied m v := by
  have count := m.countP_erase (fun name ns => countsTowardsConsensus name && ns.values.contains v) name
  simpa [tallied, found] using count

/-- `_all` after one value was given back, found or not. -/
theorem allEntry_release (value v : String) :
    allEntry ((m.get allNamespace).elim m fun all => m.insert allNamespace (all.release node value)) v =
      if v = value then giveBack node (allEntry m v) else allEntry m v := by
  cases held : m.get allNamespace with
  | none => simp [allEntry, held, giveBack]
  | some all =>
      simp only [Option.elim_some, allEntry, OrderedMap.get_insert_self, held, Option.bind_some,
        Namespace.release]
      cases found : all.values.get value with
      | none =>
          by_cases same : v = value
          · subst same
            simp [found, giveBack]
          · simp [same]
      | some a =>
          by_cases last : (a.decrement node).2 = 0
          · by_cases same : v = value
            · subst same
              simp [last, found, giveBack]
            · simp [last, OrderedMap.get_erase, same]
          · by_cases same : v = value
            · subst same
              simp [last, found, giveBack]
            · simp [last, OrderedMap.get_insert, same]

end Settles

namespace Database

variable {db : Database} {node : String} {m : OrderedMap String Namespace}

/-- Values given back one after another, whoever's entries they are. -/
theorem Keeps.giveBackAll (keeps : db.Keeps node m) (w : World) (values : List String) :
    ∃ m', (values.foldl (fun db value => db.releaseConsensus w value) db).Keeps node m' ∧
      (∀ v, allEntry m' v = (giveBack node)^[values.count v] (allEntry m v)) ∧
      (∀ name, name ≠ allNamespace → m'.get name = m.get name) ∧ tallied m' = tallied m := by
  induction values generalizing db m with
  | nil => exact ⟨m, keeps, fun _ => rfl, fun _ _ => rfl, rfl⟩
  | cons value rest ih =>
      obtain ⟨m', keeps', entries, others, tallies⟩ := ih (keeps.release w value)
      refine ⟨m', keeps', fun v => ?_, fun name other => ?_, ?_⟩
      · rw [entries, allEntry_release]
        by_cases same : v = value
        · subst same
          rw [if_pos rfl, List.count_cons_self, Function.iterate_succ_apply]
        · rw [if_neg same, List.count_cons_of_ne (Ne.symm same)]
      · rw [others name other]
        cases m.get allNamespace <;> simp [OrderedMap.get_insert, other]
      · rw [tallies]
        cases m.get allNamespace with
        | none => rfl
        | some all => exact funext fun v => tallied_insert_all _ v

/-- A deletion gives back each value once, and takes out nothing else. -/
theorem delete_settles (keeps : db.Keeps node m) (w : World) {name : String} (other : name ≠ allNamespace) :
    ∃ m', (db.delete w name).1.Keeps node m' ∧ Settles node m m' ∧
      ∀ name', name' ≠ allNamespace → m'.get name' = if name' = name then none else m.get name' := by
  have touched := keeps.touch (w := w) (shardOf name)
  simp only [delete, keeps.namespace_]
  cases found : m.get name with
  | none =>
      refine ⟨m, touched, .refl node m, fun name' _ => ?_⟩
      split_ifs with same
      · rw [same, found]
      · rfl
  | some ns =>
      have gone := ((touched.erase name).markDirty name).uncatalogue name
      have erased : ∀ name', (m.erase name).get name' = if name' = name then none else m.get name' :=
        fun name' => OrderedMap.get_erase m name name'
      dsimp only
      split
      · rename_i counts
        obtain ⟨m', keeps', entries, others, tallies⟩ := gone.giveBackAll w ns.valueNames
        refine ⟨m', keeps', ⟨fun v => (ns.values.contains v).toNat, fun v => ⟨?_, ?_⟩⟩, fun name' hne => ?_⟩
        · have step := tallied_erase found v
          rw [tallies]
          simpa [counts] using step
        · rw [entries, allEntry_erase other]
          exact congrArg (fun n => (giveBack node)^[n] (allEntry m v)) (ns.values.count_keys v)
        · rw [others name' hne, erased]
      · rename_i counts
        refine ⟨m.erase name, gone, ⟨fun _ => 0, fun v => ⟨?_, ?_⟩⟩, fun name' _ => erased name'⟩
        · have step := tallied_erase found v
          simpa [counts] using step
        · rw [allEntry_erase other]
          rfl

/-- One namespace swept: each value that went is given back. -/
theorem sweepOne_settles (keeps : db.Keeps node m) (never : ∀ v, ∀ a ∈ allEntry m v, a.ttl = 0)
    (w : World) (now : DateTime) (name : String) :
    ∃ m', (db.sweepOne w now name).1.Keeps node m' ∧ Settles node m m' := by
  simp only [sweepOne, keeps.namespaces]
  cases found : m.get name with
  | none => exact ⟨m, keeps, .refl node m⟩
  | some ns =>
      dsimp only
      split
      · exact ⟨m, keeps, .refl node m⟩
      · have stored : (if (ns.removeExpired now).2.isEmpty then db.put name (ns.removeExpired now).1
            else (db.put name (ns.removeExpired now).1).markDirty name).Keeps node
            (m.insert name (ns.removeExpired now).1) := by
          have put := keeps.put name (ns.removeExpired now).1
          split
          · exact put
          · exact put.markDirty name
        split
        · rename_i counts
          have other : name ≠ allNamespace := by
            rintro rfl
            exact absurd counts (by decide)
          obtain ⟨m', keeps', entries, others, tallies⟩ := stored.giveBackAll w (ns.removeExpired now).2
          refine ⟨m', keeps', ⟨fun v => (ns.removeExpired now).2.count v, fun v => ⟨?_, ?_⟩⟩⟩
          · have step := tallied_insert (m := m) name (ns.removeExpired now).1 v
            rw [found, Option.getD_some] at step
            simp only [counts, Bool.true_and, ns.removeExpired_count now v] at step
            rw [tallies]
            dsimp only
            omega
          · rw [entries, allEntry_insert other]
        · rename_i counts
          refine ⟨_, stored, ⟨fun _ => 0, fun v => ⟨?_, ?_⟩⟩⟩
          · have step := tallied_insert (m := m) name (ns.removeExpired now).1 v
            simpa [counts] using step
          · by_cases own : name = allNamespace
            · subst own
              have live : ∀ v a, ns.values.get v = some a → a.isExpired now = false := by
                intro v a held
                exact Attribute.isExpired_of_ttl (never v a (by simp [allEntry, found, held])) now
              rw [ns.removeExpired_none live, OrderedMap.insert_self m found]
              rfl
            · rw [allEntry_insert own]
              rfl

theorem pruneOne_settles (keeps : db.Keeps node m) (name : String) :
    ∃ m', (db.pruneOne name).1.Keeps node m' ∧ Settles node m m' := by
  simp only [pruneOne, keeps.namespaces]
  split
  · exact ⟨m, keeps, .refl node m⟩
  · cases found : m.get name with
    | none => exact ⟨m, keeps, .refl node m⟩
    | some ns =>
        dsimp only
        split
        · rename_i empty
          have erased := (keeps.erase name).uncatalogue name
          rw [keeps.namespaces] at erased
          refine ⟨_, erased, ⟨fun _ => 0, fun v => ⟨?_, ?_⟩⟩⟩
          · have step := tallied_erase found v
            have none : ns.values.contains v = false :=
              OrderedMap.not_contains_iff.mpr (Namespace.get_of_isEmpty empty v)
            simpa [none] using step
          · by_cases own : name = allNamespace
            · subst own
              simp [allEntry, found, Namespace.get_of_isEmpty empty]
            · rw [allEntry_erase own]
              rfl
        · exact ⟨m, keeps, .refl node m⟩

theorem sweep_settles (keeps : db.Keeps node m) (never : ∀ v, ∀ a ∈ allEntry m v, a.ttl = 0)
    (w : World) (now : DateTime) (order : List String) :
    ∃ m', (db.sweep w now order).1.Keeps node m' ∧ Settles node m m' := by
  refine @sweep_induction (fun db => ∃ m', db.Keeps node m' ∧ Settles node m m') w now ?_ ?_ db
    ⟨m, keeps, .refl node m⟩ order
  · rintro db name ⟨m', keeps', settles⟩
    obtain ⟨m'', keeps'', settles'⟩ := sweepOne_settles keeps' (settles.untimed never) w now name
    exact ⟨m'', keeps'', settles.trans settles'⟩
  · rintro db name ⟨m', keeps', settles⟩
    obtain ⟨m'', keeps'', settles'⟩ := pruneOne_settles keeps' name
    exact ⟨m'', keeps'', settles.trans settles'⟩

end Database

/-! ## Restoring -/

/-- The whole database, in the shape a snapshot has. -/
def Database.snapshot (db : Database) : Snapshot where
  version := snapshotVersion
  namespaces := db.namespaces.mapValues fun _ ns => ns.values.mapValues fun _ a => a.stored

section Restored

variable (db : Database) (policy : DatabasePolicy) (stores : StoragePolicy) (node : String) (now : DateTime)

theorem restored_get (name : String) :
    (Database.fromSnapshotAs db.snapshot policy stores node now).namespaces.get name =
      (db.namespaces.get name).map fun ns =>
        .fromValues (ns.values.mapValues fun _ a => a.stored) node := by
  simp [Database.fromSnapshotAs, Database.snapshot, Function.comp_def]

theorem restored_allEntry (v : String) :
    allEntry (Database.fromSnapshotAs db.snapshot policy stores node now).namespaces v =
      (allEntry db.namespaces v).map Attribute.stored := by
  rw [allEntry, restored_get, allEntry]
  cases db.namespaces.get allNamespace with
  | none => rfl
  | some ns => cases held : ns.values.get v <;> simp [Namespace.fromValues, held]

theorem restored_tallied (v : String) :
    tallied (Database.fromSnapshotAs db.snapshot policy stores node now).namespaces v =
      tallied db.namespaces v := by
  refine OrderedMap.countP_eq_of_get fun name => ?_
  rw [restored_get]
  cases db.namespaces.get name with
  | none => rfl
  | some ns => cases held : ns.values.get v <;> simp [Namespace.fromValues, OrderedMap.contains, held]

theorem restored_keeps : (Database.fromSnapshotAs db.snapshot policy stores node now).Keeps node
    (Database.fromSnapshotAs db.snapshot policy stores node now).namespaces := by
  have resident : ∀ (names : List String) (shards : OrderedMap String ShardMeta),
      (∀ shard meta_, shards.get shard = some meta_ → meta_.resident = true) →
      ∀ shard meta_, (names.foldl (Database.catalogue · · now.timestamp) shards).get shard = some meta_ →
        meta_.resident = true := by
    intro names
    induction names with
    | nil => exact fun shards all => all
    | cons name rest ih =>
        intro shards all
        refine ih _ fun shard meta_ found => ?_
        simp only [Database.catalogue, OrderedMap.get_insert] at found
        split_ifs at found
        · obtain rfl := Option.some.inj found
          rfl
        · exact all shard meta_ found
  exact ⟨resident _ _ fun _ _ found => by simp at found, rfl, rfl⟩

end Restored

/-! ## Runs -/

inductive Removal
  | delete (name : String)
  | sweep (now : DateTime) (order : List String)

/-- Nobody gets to delete the tally itself, and a sweep walks the namespaces that exist. -/
def Removal.apply (db : Database) (w : World) : Removal → Option Database
  | .delete name => if name = allNamespace then none else some (db.delete w name).1
  | .sweep now order => if order.Perm db.namespaces.keys then some (db.sweep w now order).1 else none

def removeAll (db : Database) : List (World × Removal) → Option Database
  | [] => some db
  | e :: rest => (e.2.apply db e.1).bind fun db => removeAll db rest

theorem Removal.apply_settles {db db' : Database} {node : String} {w : World} {removal : Removal}
    {m : OrderedMap String Namespace} (keeps : db.Keeps node m)
    (never : ∀ v, ∀ a ∈ allEntry m v, a.ttl = 0) (applied : removal.apply db w = some db') :
    ∃ m', db'.Keeps node m' ∧ Settles node m m' := by
  cases removal with
  | delete name =>
      simp only [Removal.apply] at applied
      split_ifs at applied with own
      obtain rfl := Option.some.inj applied
      obtain ⟨m', keeps', settles, _⟩ := Database.delete_settles keeps w own
      exact ⟨m', keeps', settles⟩
  | sweep now order =>
      simp only [Removal.apply] at applied
      split_ifs at applied
      obtain rfl := Option.some.inj applied
      exact Database.sweep_settles keeps never w now order

theorem removeAll_settles {db db' : Database} {node : String} {removals : List (World × Removal)}
    {m : OrderedMap String Namespace} (keeps : db.Keeps node m)
    (never : ∀ v, ∀ a ∈ allEntry m v, a.ttl = 0) (ran : removeAll db removals = some db') :
    ∃ m', db'.Keeps node m' ∧ Settles node m m' := by
  induction removals generalizing db m with
  | nil =>
      obtain rfl := Option.some.inj ran
      exact ⟨m, keeps, .refl node m⟩
  | cons e rest ih =>
      obtain ⟨mid, applied, ranRest⟩ := Option.bind_eq_some_iff.mp ran
      obtain ⟨m', keeps', settles⟩ := Removal.apply_settles keeps never applied
      obtain ⟨m'', keeps'', settles'⟩ := ih keeps' (settles.untimed never) ranRest
      exact ⟨m'', keeps'', settles.trans settles'⟩

/-- Deletions one after another leave nothing of what they name. -/
theorem removeAll_deletes {db : Database} {node : String} {m : OrderedMap String Namespace}
    (keeps : db.Keeps node m) {names : List String} (others : ∀ name ∈ names, name ≠ allNamespace) :
    ∃ db' m', removeAll db (names.map fun name => (.sample, .delete name)) = some db' ∧
      db'.Keeps node m' ∧ Settles node m m' ∧
      ∀ name, name ≠ allNamespace → m'.get name = if name ∈ names then none else m.get name := by
  induction names generalizing db m with
  | nil => exact ⟨db, m, rfl, keeps, .refl node m, fun name _ => by simp⟩
  | cons first rest ih =>
      have other := others first List.mem_cons_self
      obtain ⟨m', keeps', settles, gone⟩ := Database.delete_settles keeps .sample other
      obtain ⟨db'', m'', ran, keeps'', settles', gone'⟩ :=
        ih keeps' fun name member => others name (List.mem_cons_of_mem _ member)
      refine ⟨db'', m'', ?_, keeps'', settles.trans settles', fun name hne => ?_⟩
      · simp only [List.map_cons, removeAll, Removal.apply, if_neg other, Option.bind_some]
        exact ran
      · rw [gone' name hne, gone name hne]
        by_cases same : name = first <;> simp [same]

/-- What `_all` answers, when nothing in it has a lifetime. -/
theorem count_all {db : Database} {node : String} {m : OrderedMap String Namespace}
    (keeps : db.Keeps node m) (never : ∀ v, ∀ a ∈ allEntry m v, a.ttl = 0) (w : World) (v : String) :
    (db.count w allNamespace v).2 = entryCount (allEntry m v) := by
  rw [(keeps.count w allNamespace v).2]
  cases all : m.get allNamespace with
  | none => simp [allEntry, all, entryCount]
  | some ns =>
      cases held : ns.values.get v with
      | none => simp [allEntry, all, entryCount, Namespace.count, held]
      | some a =>
          have live := Attribute.isExpired_of_ttl (never v a (by simp [allEntry, all, held])) w.now
          simp [allEntry, all, entryCount, Namespace.count, held, live]

/-- Wherever deletions and sweeps have got to, what is left of a value's entry is known from
what is left of the namespaces that hold it. -/
theorem count_of_settles {db : Database} {node : String} {m m' : OrderedMap String Namespace}
    (keeps : db.Keeps node m') (settles : Settles node m m')
    (never : ∀ v, ∀ a ∈ allEntry m v, a.ttl = 0) {v : String}
    (counted : entryCount (allEntry m v) = tallied m v) (w : World) :
    tallied m' v ≤ tallied m v ∧ (db.count w allNamespace v).2 =
      tallied m v - min (tallied m v - tallied m' v) (entryShare node (allEntry m v)) := by
  have still := count_all keeps (settles.untimed never) w v
  obtain ⟨lost, settled⟩ := settles
  obtain ⟨total, entry⟩ := settled v
  have removed : lost v = tallied m v - tallied m' v := by omega
  rw [still, entry, entryCount_giveBack_iterate (by rw [counted]; omega), counted, removed]
  exact ⟨by omega, rfl⟩

/-- A snapshot of a server whose tally is right, restored under any id: the tally stays right
through every run of deletions and sweeps exactly when all that `_all` counts was counted
under that id. -/
theorem restored_tally_right {db : Database} (resident : db.AllResident)
    (never : ∀ v, ∀ a ∈ allEntry db.namespaces v, a.ttl = 0)
    (right : ∀ w v, (db.count w allNamespace v).2 = tallied db.namespaces v)
    (policy : DatabasePolicy) (stores : StoragePolicy) (node : String) (now : DateTime) :
    (∀ removals db', removeAll (.fromSnapshotAs db.snapshot policy stores node now) removals = some db' →
      ∀ w v, (db'.count w allNamespace v).2 = tallied db'.namespaces v) ↔
      ∀ v, tallied db.namespaces v ≤ entryShare node (allEntry db.namespaces v) := by
  have keeps := restored_keeps db policy stores node now
  have entries := restored_allEntry db policy stores node now
  have tallies := restored_tallied db policy stores node now
  generalize Database.fromSnapshotAs db.snapshot policy stores node now = start at keeps entries tallies ⊢
  have untimed : ∀ v, ∀ a ∈ allEntry start.namespaces v, a.ttl = 0 := by
    intro v a held
    rw [entries] at held
    obtain ⟨b, found, rfl⟩ := Option.map_eq_some_iff.mp held
    exact never v b found
  have counted : ∀ v, entryCount (allEntry start.namespaces v) = tallied start.namespaces v := by
    intro v
    rw [tallies, ← right .sample v, count_all ⟨resident, rfl, rfl⟩ never, entries]
    cases allEntry db.namespaces v <;> rfl
  have shares : ∀ v, entryShare node (allEntry start.namespaces v) =
      entryShare node (allEntry db.namespaces v) := by
    intro v
    rw [entries]
    cases allEntry db.namespaces v <;> rfl
  simp only [← tallies, ← shares]
  constructor
  · intro kept v
    obtain ⟨db', m', ran, keeps', settles, gone⟩ := @removeAll_deletes start node _ keeps
      (start.namespaces.keys.filter (· ≠ allNamespace)) (by simp)
    have none : tallied m' v = 0 := by
      by_contra some_
      obtain ⟨name, ns, found, counts⟩ := OrderedMap.countP_pos.mp (Nat.pos_of_ne_zero some_)
      have other : name ≠ allNamespace := by
        rintro rfl
        simp at counts
      rw [gone name other] at found
      split_ifs at found with listed
      exact listed (List.mem_filter.mpr ⟨OrderedMap.mem_keys.mpr ⟨ns, found⟩, by simpa using other⟩)
    have final := kept _ db' ran .sample v
    rw [(count_of_settles keeps' settles untimed (counted v) .sample).2, keeps'.namespaces, none] at final
    omega
  · intro whole removals db' ran w v
    obtain ⟨m', keeps', settles⟩ := removeAll_settles keeps untimed ran
    obtain ⟨fewer, count⟩ := count_of_settles keeps' settles untimed (counted v) w
    rw [count, keeps'.namespaces]
    have := whole v
    omega

/-! ## Servers that were never anyone else -/

theorem tallied_eq_tally {m : OrderedMap String Namespace}
    (quiet : ∀ name ns, m.get name = some ns → isInternal name = true →
      countsTowardsConsensus name = true → ns.isEmpty = true) (v : String) : tallied m v = tally m v := by
  refine OrderedMap.countP_eq_of_get fun name => ?_
  cases found : m.get name with
  | none => rfl
  | some ns =>
      cases internal : isInternal name with
      | false => simp [countsTowardsConsensus_of_external internal]
      | true =>
          cases counts : countsTowardsConsensus name with
          | false => simp
          | true =>
              have none : ns.values.contains v = false := OrderedMap.not_contains_iff.mpr
                (Namespace.get_of_isEmpty (quiet name ns found internal counts) v)
              simp [none]

/-- A server that has counted under one id since it was empty has its tally right, all of it
under that id. -/
theorem Consensus.Sound.tally_right {db : Database} {node : String} (sound : Consensus.Sound db node) :
    (∀ v, ∀ a ∈ allEntry db.namespaces v, a.ttl = 0) ∧
      (∀ w v, (db.count w allNamespace v).2 = tallied db.namespaces v) ∧
      ∀ v, tallied db.namespaces v ≤ entryShare node (allEntry db.namespaces v) := by
  have never : ∀ v, ∀ a ∈ allEntry db.namespaces v, a.ttl = 0 := by
    intro v a held
    have entry := sound.balanced.ledger v
    rw [show allEntry db.namespaces v = some a from held] at entry
    exact entry.2.2
  refine ⟨never, fun w v => ?_, fun v => ?_⟩
  · have entry := sound.balanced.ledger v
    have small := lt_of_le_of_lt (tally_le_size db.namespaces v) sound.fits
    rw [count_all sound.keeps never, tallied_eq_tally sound.balanced.quiet]
    cases held : allEntry db.namespaces v with
    | none =>
        rw [held] at entry
        exact entry.symm
    | some a =>
        rw [held] at entry
        simp only [entryCount, Option.elim_some, Attribute.count, entry.2.1, OrderedMap.total_single]
        exact Nat.mod_eq_of_lt small
  · have entry := sound.balanced.ledger v
    rw [tallied_eq_tally sound.balanced.quiet]
    cases held : allEntry db.namespaces v with
    | none =>
        rw [held] at entry
        exact entry.le.trans (Nat.zero_le _)
    | some a =>
        rw [held] at entry
        simp [entryShare, entry.2.1]

open Consensus in
theorem restored_tally_right_sameId : ∃ db,
    run (.withNode ⟨0, 0⟩ .storeEverything "local") seenTwice = some db ∧
      ∀ removals db', removeAll (.fromSnapshotAs db.snapshot ⟨0, 0⟩ .storeEverything "local" .unixEpoch)
        removals = some db' → ∀ w v, (db'.count w allNamespace v).2 = tallied db'.namespaces v := by
  refine ⟨_, rfl, ?_⟩
  have sound := @run_sound _ _ "local" seenTwice (withNode_sound ⟨0, 0⟩ .storeEverything "local") rfl
  obtain ⟨never, right, whole⟩ := sound.tally_right
  exact (restored_tally_right sound.keeps.resident never right ⟨0, 0⟩ .storeEverything "local" .unixEpoch).mpr
    whole

open Consensus in
/-- Counted under `local`, restored under `b`: the last namespace that held the value is
deleted and `_all` goes on counting one. -/
theorem restored_tally_stays : ∃ db db',
    run (.withNode ⟨0, 0⟩ .storeEverything "local") seenTwice = some db ∧
      (∀ w v, (db.count w allNamespace v).2 = tallied db.namespaces v) ∧
      removeAll (.fromSnapshotAs db.snapshot ⟨0, 0⟩ .storeEverything "b" .unixEpoch)
        [(.sample, .delete "a/y")] = some db' ∧
      (db'.count .sample allNamespace "v").2 = 1 ∧ tallied db'.namespaces "v" = 0 := by
  refine ⟨_, _, rfl, ?_, rfl, by decide, by decide⟩
  exact (@run_sound _ _ "local" seenTwice (withNode_sound ⟨0, 0⟩ .storeEverything "local") rfl).tally_right.2.1

end SightingDB
