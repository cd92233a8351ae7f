import SightingDB.Durability
import Mathlib.Logic.Relation

/-!
What operations are made of. Every operation on the store is a series of a few moves on
memory, the catalogue and the dirty set; each move says which namespaces and values it may
bring in and which it may take out. What a move keeps, every operation keeps.
-/
namespace SightingDB

/-- A namespace, or one value in it. -/
inductive Item
  | namespace_ (name : String)
  | value (name value : String)
  deriving DecidableEq

namespace Item

def name : Item → String
  | .namespace_ name => name
  | .value name _ => name

/-- Whether the item is there, given the values of its namespace. -/
def within : Item → Values → Bool
  | .namespace_ _, _ => true
  | .value _ v, vals => vals.contains v

def inMemory (item : Item) (db : Database) : Bool :=
  (db.namespaces.get item.name).any fun ns => item.within ns.values

def inStored (item : Item) (stored : Stored) : Bool := (stored.get item.name).any item.within

end Item

/-- A namespace asked for in a shard that is neither in memory nor to be read. -/
def Blind (db : Database) (w : World) (name : String) : Prop :=
  db.evicted (shardOf name) = true ∧
    (db.store = false ∨ readShardFile w.names w.dir w.readable (shardOf name) = none)

instance (db : Database) (w : World) (name : String) : Decidable (Blind db w name) :=
  inferInstanceAs (Decidable (_ ∧ _))

/-- The moves. `adds` and `drops` bound what may come and go, and `blind` is whether a
namespace may be made in a shard that could not be read. -/
inductive Move (w : World) (adds drops : Item → Prop) (blind : Prop) : Database → Database → Prop
  | touch (db : Database) (shard : String) : Move w adds drops blind db (db.touch w shard)
  | pageIn {db db' : Database} {shard : String} (away : db.evicted shard = true)
      (paged : db.pageIn w shard = some db') : Move w adds drops blind db db'
  | register {db : Database} {name : String} (allowed : adds (.namespace_ name))
      (here : db.evicted (shardOf name) = false ∨ blind) :
      Move w adds drops blind db
        { db with
          namespaces := db.namespaces.insert name ((db.namespaces.get name).getD .empty)
          shards := Database.catalogue db.shards name w.now.timestamp }
  | put {db : Database} {name : String} {ns ns' : Namespace} (held : db.namespaces.get name = some ns)
      (gains : ∀ v, ns'.values.contains v = true → ns.values.contains v = true ∨ adds (.value name v))
      (loses : ∀ v, ns.values.contains v = true → ns'.values.contains v = true ∨ drops (.value name v)) :
      Move w adds drops blind db (db.put name ns')
  | mark {db : Database} {name : String} (held : (db.namespaces.get name).isSome = true) :
      Move w adds drops blind db (db.markDirty name)
  | erase {db : Database} {name : String} (allowed : ∀ item : Item, item.name = name → drops item) :
      Move w adds drops blind db { db with namespaces := db.namespaces.erase name }
  | uncatalogue (db : Database) (name : String) : Move w adds drops blind db (db.uncatalogue name)

abbrev Moves (w : World) (adds drops : Item → Prop) (blind : Prop) : Database → Database → Prop :=
  Relation.ReflTransGen (Move w adds drops blind)

/-! ## What a move keeps -/

section Kept

variable {w : World} {adds drops : Item → Prop} {blind : Prop} {db db' : Database}

theorem Move.mono {adds' drops' : Item → Prop} {blind' : Prop} (more : ∀ item, adds item → adds' item)
    (more' : ∀ item, drops item → drops' item) (sees : blind → blind')
    (move : Move w adds drops blind db db') : Move w adds' drops' blind' db db' := by
  cases move with
  | touch shard => exact .touch db shard
  | pageIn away paged => exact .pageIn away paged
  | register allowed here => exact .register (more _ allowed) (here.imp_right sees)
  | put held gains loses =>
      exact .put held (fun v has => (gains v has).imp_right (more _)) fun v has => (loses v has).imp_right (more' _)
  | mark held => exact .mark held
  | erase allowed => exact .erase fun item mine => more' item (allowed item mine)
  | uncatalogue name => exact .uncatalogue db name

theorem Moves.mono {adds' drops' : Item → Prop} {blind' : Prop} (more : ∀ item, adds item → adds' item)
    (more' : ∀ item, drops item → drops' item) (sees : blind → blind')
    (moves : Moves w adds drops blind db db') : Moves w adds' drops' blind' db db' := by
  induction moves with
  | refl => exact .refl
  | tail _ move ih => exact ih.tail (move.mono more more' sees)

theorem pageIn_cases {shard : String} (paged : db.pageIn w shard = some db') : db' = db ∨
    ∃ data, readShardFile w.names w.dir w.readable shard = some data ∧
      db'.namespaces = extend db.namespaces (data.mapValues fun _ values => .fromValues values db.node) ∧
      db'.dirty = db.dirty ∧ db'.node = db.node ∧ db'.store = db.store ∧
      ∀ k, db'.shards.get k = if k = shard then
        some ⟨data.keys.foldl (fun names name => names.insert name ())
          ((db.shards.get shard).getD .default).namespaces, true, w.now.timestamp⟩ else db.shards.get k := by
  simp only [Database.pageIn] at paged
  split_ifs at paged
  · exact .inl (Option.some.inj paged).symm
  · exact .inl (Option.some.inj paged).symm
  · split at paged
    · cases paged
    · rename_i data read
      obtain rfl := Option.some.inj paged
      exact .inr ⟨data, read, rfl, rfl, rfl, rfl, fun k => OrderedMap.get_insert _ _ _ _⟩

theorem resident_of_pageIn {shard : String} (stored : db.store = true)
    (paged : db.pageIn w shard = some db') : db'.evicted shard = false := by
  simp only [Database.pageIn, stored, Bool.not_true, Bool.false_eq_true, if_false] at paged
  split_ifs at paged with resident
  · obtain rfl := Option.some.inj paged
    cases found : db.shards.get shard <;> simp_all [Database.evicted]
  · split at paged
    · cases paged
    · obtain rfl := Option.some.inj paged
      simp [Database.evicted]

theorem read_of_pageIn {shard : String} (failed : db.pageIn w shard = none) :
    readShardFile w.names w.dir w.readable shard = none := by
  simp only [Database.pageIn] at failed
  split_ifs at failed
  split at failed
  · assumption
  · cases failed

@[simp] theorem namespaces_uncatalogue (name : String) : (db.uncatalogue name).namespaces = db.namespaces := by
  simp only [Database.uncatalogue]
  split <;> rfl

@[simp] theorem dirty_uncatalogue (name : String) : (db.uncatalogue name).dirty = db.dirty := by
  simp only [Database.uncatalogue]
  split <;> rfl

@[simp] theorem evicted_uncatalogue (name s : String) : (db.uncatalogue name).evicted s = db.evicted s := by
  simp only [Database.uncatalogue]
  cases found : db.shards.get (shardOf name) with
  | none => rfl
  | some meta_ =>
      by_cases same : s = shardOf name
      · subst same
        simp [Database.evicted, found]
      · simp [Database.evicted, OrderedMap.get_insert, same]

/-- No move puts a shard out of memory. -/
theorem Move.evicted (move : Move w adds drops blind db db') {s : String} (away : db'.evicted s = true) :
    db.evicted s = true := by
  cases move with
  | touch shard => simpa using away
  | pageIn gone paged =>
      rcases pageIn_cases paged with rfl | ⟨data, _, _, _, _, _, shards⟩
      · exact away
      · obtain ⟨meta_, found, out⟩ := evicted_iff.mp away
        rw [shards] at found
        split_ifs at found
        · obtain rfl := Option.some.inj found
          cases out
        · exact evicted_iff.mpr ⟨meta_, found, out⟩
  | register _ _ =>
      obtain ⟨meta_, found, out⟩ := evicted_iff.mp away
      simp only [Database.catalogue, OrderedMap.get_insert] at found
      split_ifs at found
      · obtain rfl := Option.some.inj found
        cases out
      · exact evicted_iff.mpr ⟨meta_, found, out⟩
  | put _ _ _ => exact away
  | mark _ => exact away
  | erase _ => exact away
  | uncatalogue name => simpa using away

theorem Move.here (move : Move w adds drops blind db db') {s : String} (resident : db.evicted s = false) :
    db'.evicted s = false := by
  cases gone : db'.evicted s with
  | false => rfl
  | true => exact (move.evicted gone).symm.trans resident

theorem Moves.evicted (moves : Moves w adds drops blind db db') {s : String} (away : db'.evicted s = true) :
    db.evicted s = true := by
  induction moves with
  | refl => exact away
  | tail _ move ih => exact ih (move.evicted away)

theorem Moves.here (moves : Moves w adds drops blind db db') {s : String} (resident : db.evicted s = false) :
    db'.evicted s = false := by
  induction moves with
  | refl => exact resident
  | tail _ move ih => exact move.here ih

theorem Move.dirty (move : Move w adds drops blind db db') {s : String} (marked : db.dirty.contains s = true) :
    db'.dirty.contains s = true := by
  cases move with
  | touch shard => simpa using marked
  | pageIn _ paged =>
      rcases pageIn_cases paged with rfl | ⟨data, _, _, dirty, _⟩
      · exact marked
      · rw [dirty]
        exact marked
  | mark _ =>
      simp only [Database.markDirty, Database.markShardDirty, OrderedMap.contains, OrderedMap.get_insert]
      split_ifs
      · rfl
      · exact marked
  | uncatalogue name => simpa using marked
  | register _ _ => exact marked
  | put _ _ _ => exact marked
  | erase _ => exact marked

theorem Moves.dirty (moves : Moves w adds drops blind db db') {s : String} (marked : db.dirty.contains s = true) :
    db'.dirty.contains s = true := by
  induction moves with
  | refl => exact marked
  | tail _ move ih => exact move.dirty ih

theorem Moves.store (moves : Moves w adds drops blind db db') : db'.store = db.store := by
  induction moves with
  | refl => rfl
  | tail _ move ih =>
      rw [← ih]
      cases move with
      | touch shard => simp
      | pageIn _ paged =>
          rcases pageIn_cases paged with rfl | ⟨_, _, _, _, _, store, _⟩
          · rfl
          · exact store
      | uncatalogue name =>
          simp only [Database.uncatalogue]
          split <;> rfl
      | register _ _ => rfl
      | put _ _ _ => rfl
      | mark _ => rfl
      | erase _ => rfl

/-- No move touches what the server was configured with. -/
theorem Move.config (move : Move w adds drops blind db db') : db'.stores = db.stores ∧ db'.node = db.node := by
  cases move with
  | touch shard => exact ⟨by rw [Database.touch_ignores], by simp⟩
  | @pageIn _ shard _ paged =>
      simp only [Database.pageIn] at paged
      split_ifs at paged
      · exact Option.some.inj paged ▸ ⟨rfl, rfl⟩
      · exact Option.some.inj paged ▸ ⟨rfl, rfl⟩
      · split at paged
        · cases paged
        · exact Option.some.inj paged ▸ ⟨rfl, rfl⟩
  | uncatalogue name =>
      simp only [Database.uncatalogue]
      split <;> exact ⟨rfl, rfl⟩
  | register _ _ => exact ⟨rfl, rfl⟩
  | put _ _ _ => exact ⟨rfl, rfl⟩
  | mark _ => exact ⟨rfl, rfl⟩
  | erase _ => exact ⟨rfl, rfl⟩

theorem Moves.config (moves : Moves w adds drops blind db db') : db'.stores = db.stores ∧ db'.node = db.node := by
  induction moves with
  | refl => exact ⟨rfl, rfl⟩
  | tail _ move ih => exact ⟨move.config.1.trans ih.1, move.config.2.trans ih.2⟩

/-- A namespace that may not go stays. -/
theorem Move.still {name : String} (move : Move w adds drops blind db db') (kept : ¬ drops (.namespace_ name))
    (held : (db.namespaces.get name).isSome = true) : (db'.namespaces.get name).isSome = true := by
  cases move with
  | touch shard => simpa using held
  | pageIn _ paged =>
      rcases pageIn_cases paged with rfl | ⟨data, _, namespaces, _⟩
      · exact held
      · rw [namespaces, get_extend]
        simp [held]
  | register _ _ =>
      simp only [OrderedMap.get_insert]
      split_ifs
      · rfl
      · exact held
  | put _ _ _ =>
      simp only [Database.put, OrderedMap.get_insert]
      split_ifs
      · rfl
      · exact held
  | mark _ => exact held
  | erase allowed =>
      simp only [OrderedMap.get_erase]
      split_ifs with same
      · exact absurd (allowed (.namespace_ name) same) kept
      · exact held
  | uncatalogue other => simpa using held

theorem Moves.still {name : String} (moves : Moves w adds drops blind db db') (kept : ¬ drops (.namespace_ name))
    (held : (db.namespaces.get name).isSome = true) : (db'.namespaces.get name).isSome = true := by
  induction moves with
  | refl => exact held
  | tail _ move ih => exact move.still kept ih

end Kept

end SightingDB
