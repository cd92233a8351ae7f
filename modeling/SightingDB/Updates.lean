import SightingDB.Moves

/-!
How each operation goes about its changes. A namespace changes through its handle in six
ways only, and a server is left by an operation in a series of updates: those ways, and the
bookkeeping around them. What every update keeps, every run keeps.
-/
namespace SightingDB

/-- A change to one namespace. -/
inductive Edit
  | record (origin value : String) (when : DateTime) (ttl : Option Nat) (retention : Nat) (tags : String)
  | merge (node value : String) (incoming : Merge)
  | retag (value tags : String) (now : DateTime)
  | removeExpired (now : DateTime)
  | release (node value : String)
  | survey (holders : OrderedMap String Names) (node : String) (now : DateTime)

namespace Edit

def apply (ns : Namespace) : Edit → Namespace
  | .record origin value when ttl retention tags => (ns.record origin value when ttl retention tags).1
  | .merge node value incoming => (ns.merge node value incoming).1
  | .retag value tags now => (ns.retag value tags now).1
  | .removeExpired now => (ns.removeExpired now).1
  | .release node value => ns.release node value
  | .survey holders node now => (Database.survey holders node now ns).1

/-- Whether the edit may bring in a value. -/
def brings (v : String) : Edit → Prop
  | .record _ value _ _ _ _ => v = value
  | .merge _ value _ => v = value
  | .survey _ _ _ => True
  | _ => False

/-- Whether the edit may take values out. -/
def takes : Edit → Prop
  | .removeExpired _ => True
  | .release _ _ => True
  | .survey _ _ _ => True
  | _ => False

/-- A sighting of a value, or a peer's copy of it. -/
def sights (value : String) : Edit → Prop
  | .record _ v _ _ _ _ => v = value
  | .merge _ v _ => v = value
  | _ => False

def isRelease : Edit → Prop
  | .release _ _ => True
  | _ => False

theorem contains_insert {values : OrderedMap String Attribute} {value v : String} {a : Attribute} :
    (values.insert value a).contains v = true ↔ v = value ∨ values.contains v = true := by
  simp only [OrderedMap.contains, OrderedMap.get_insert]
  split_ifs with same <;> simp [same]

theorem release_contains {ns : Namespace} {node value v : String}
    (held : (ns.release node value).values.contains v = true) : ns.values.contains v = true := by
  simp only [Namespace.release] at held
  cases found : ns.values.get value with
  | none => simpa [found] using held
  | some a =>
      simp only [found] at held
      split_ifs at held
      · simp only [OrderedMap.contains, OrderedMap.get_erase] at held ⊢
        split_ifs at held
        · cases held
        · exact held
      · rcases contains_insert.mp held with rfl | held
        · simp [OrderedMap.contains, found]
        · exact held

theorem contains_of_apply {ns : Namespace} {e : Edit} {v : String} (held : (e.apply ns).values.contains v = true) :
    ns.values.contains v = true ∨ e.brings v := by
  cases e with
  | record origin value when ttl retention tags =>
      rw [apply, Namespace.record_values] at held
      exact (contains_insert.mp held).symm
  | merge node value incoming =>
      rw [apply, Namespace.merge_values] at held
      exact (contains_insert.mp held).symm
  | retag value tags now => exact .inl (by rwa [apply, Namespace.retag_contains] at held)
  | removeExpired now => exact .inl ((ns.removeExpired_contains now v).mpr (.inl held))
  | release node value => exact .inl (release_contains held)
  | survey holders node now => exact .inr trivial

theorem contains_apply {ns : Namespace} {e : Edit} {v : String} (held : ns.values.contains v = true) :
    (e.apply ns).values.contains v = true ∨ e.takes := by
  cases e with
  | record origin value when ttl retention tags =>
      rw [apply, Namespace.record_values]
      exact .inl (contains_insert.mpr (.inr held))
  | merge node value incoming =>
      rw [apply, Namespace.merge_values]
      exact .inl (contains_insert.mpr (.inr held))
  | retag value tags now => exact .inl (by rwa [apply, Namespace.retag_contains])
  | removeExpired now => exact .inr trivial
  | release node value => exact .inr trivial
  | survey holders node now => exact .inr trivial

end Edit

/-- What an operation may do: namespaces it may register and those it may take out, the edits it
may make, and whether it may register in a shard that could not be read. -/
structure Scope where
  makes : String → Prop
  goes : String → Prop
  does : String → Edit → Prop
  blind : Prop

inductive Update (w : World) (scope : Scope) : Database → Database → Prop
  | touch (db : Database) (shard : String) : Update w scope db (db.touch w shard)
  | pageIn {db db' : Database} {shard : String} (away : db.evicted shard = true)
      (paged : db.pageIn w shard = some db') : Update w scope db db'
  | register {db : Database} {name : String} (allowed : scope.makes name)
      (here : db.evicted (shardOf name) = false ∨ scope.blind) :
      Update w scope db
        { db with
          namespaces := db.namespaces.insert name ((db.namespaces.get name).getD .empty)
          shards := Database.catalogue db.shards name w.now.timestamp }
  | put {db : Database} {name : String} {ns : Namespace} (held : db.namespaces.get name = some ns) (e : Edit)
      (allowed : scope.does name e) : Update w scope db (db.put name (e.apply ns))
  | mark {db : Database} {name : String} (held : (db.namespaces.get name).isSome = true) :
      Update w scope db (db.markDirty name)
  | erase {db : Database} {name : String} (allowed : scope.goes name) :
      Update w scope db { db with namespaces := db.namespaces.erase name }
  | uncatalogue (db : Database) (name : String) : Update w scope db (db.uncatalogue name)

abbrev Updates (w : World) (scope : Scope) : Database → Database → Prop :=
  Relation.ReflTransGen (Update w scope)

/-- One scope within another. -/
structure Scope.Within (scope scope' : Scope) : Prop where
  makes : ∀ name, scope.makes name → scope'.makes name
  goes : ∀ name, scope.goes name → scope'.goes name
  does : ∀ name e, scope.does name e → scope'.does name e
  blind : scope.blind → scope'.blind

/-- What a scope lets in and out, item by item. -/
structure Scope.Allows (scope : Scope) (adds drops : Item → Prop) : Prop where
  makes : ∀ name, scope.makes name → adds (.namespace_ name)
  brings : ∀ name e, scope.does name e → ∀ v, e.brings v → adds (.value name v)
  takes : ∀ name e, scope.does name e → e.takes → ∀ v, drops (.value name v)
  goes : ∀ name, scope.goes name → ∀ item : Item, item.name = name → drops item

section Updates

variable {w : World} {scope scope' : Scope} {adds drops : Item → Prop} {db db' : Database}

theorem Update.move (allows : scope.Allows adds drops) (update : Update w scope db db') :
    Move w adds drops scope.blind db db' := by
  cases update with
  | touch shard => exact .touch db shard
  | pageIn away paged => exact .pageIn away paged
  | register allowed here => exact .register (allows.makes _ allowed) here
  | put held e allowed =>
      exact .put held (fun v has => (Edit.contains_of_apply has).imp_right (allows.brings _ e allowed v))
        fun v has => (Edit.contains_apply has).imp_right fun takes => allows.takes _ e allowed takes v
  | mark held => exact .mark held
  | erase allowed => exact .erase (allows.goes _ allowed)
  | uncatalogue name => exact .uncatalogue db name

theorem Updates.moves (updates : Updates w scope db db') (allows : scope.Allows adds drops) :
    Moves w adds drops scope.blind db db' := by
  induction updates with
  | refl => exact .refl
  | tail _ update ih => exact ih.tail (update.move allows)

theorem Update.mono (within : scope.Within scope') (update : Update w scope db db') : Update w scope' db db' := by
  cases update with
  | touch shard => exact .touch db shard
  | pageIn away paged => exact .pageIn away paged
  | register allowed here => exact .register (within.makes _ allowed) (here.imp_right within.blind)
  | put held e allowed => exact .put held e (within.does _ e allowed)
  | mark held => exact .mark held
  | erase allowed => exact .erase (within.goes _ allowed)
  | uncatalogue name => exact .uncatalogue db name

theorem Updates.mono (updates : Updates w scope db db') (within : scope.Within scope') : Updates w scope' db db' := by
  induction updates with
  | refl => exact .refl
  | tail _ update ih => exact ih.tail (update.mono within)

/-- An item of a namespace that may go, or any value. -/
def Scope.loses (scope : Scope) : Item → Prop
  | .namespace_ name => scope.goes name
  | .value _ _ => True

theorem Scope.allows_loses (scope : Scope) : scope.Allows (fun _ => True) scope.loses where
  makes _ _ := trivial
  brings _ _ _ _ _ := trivial
  takes _ _ _ _ _ := trivial
  goes name allowed item mine := by
    cases item with
    | namespace_ other =>
        obtain rfl : other = name := mine
        exact allowed
    | value _ _ => trivial

theorem Updates.evicted (updates : Updates w scope db db') {s : String} (away : db'.evicted s = true) :
    db.evicted s = true :=
  (updates.moves scope.allows_loses).evicted away

theorem Updates.store (updates : Updates w scope db db') : db'.store = db.store :=
  (updates.moves scope.allows_loses).store

theorem Updates.still {name : String} (updates : Updates w scope db db') (kept : ¬ scope.goes name)
    (held : (db.namespaces.get name).isSome = true) : (db'.namespaces.get name).isSome = true :=
  (updates.moves scope.allows_loses).still kept held

end Updates

/-! ## Operations -/

section Operations

variable {w : World} {scope : Scope} {db : Database}

theorem namespace_updates (name : String) : Updates w scope db (db.namespace_ w name).1 ∧
    (db.namespace_ w name).2 = (db.namespace_ w name).1.namespaces.get name := by
  have touched : Updates w scope db (db.touch w (shardOf name)) := .single (.touch db _)
  simp only [Database.namespace_]
  cases held : (db.touch w (shardOf name)).namespaces.get name with
  | some ns => exact ⟨touched, held.symm⟩
  | none =>
      dsimp only
      split
      · exact ⟨touched, held.symm⟩
      · rename_i listed
        have away : (db.touch w (shardOf name)).evicted (shardOf name) = true := by
          simp only [Database.catalogued, Database.evicted] at listed ⊢
          cases found : (db.touch w (shardOf name)).shards.get (shardOf name) with
          | none => simp [found] at listed
          | some meta_ =>
              simp only [found, Bool.not_eq_true, Bool.not_eq_false', Bool.and_eq_true] at listed
              exact listed.1
        cases paged : (db.touch w (shardOf name)).pageIn w (shardOf name) with
        | none => exact ⟨touched, held.symm⟩
        | some db' => exact ⟨touched.tail (.pageIn away paged), rfl⟩

theorem namespaceOrCreate_updates {name : String} (allowed : scope.makes name) (sees : Blind db w name → scope.blind) :
    Updates w scope db (db.namespaceOrCreate w name).1 ∧
      (db.namespaceOrCreate w name).1.namespaces.get name = some (db.namespaceOrCreate w name).2 := by
  obtain ⟨moved, handle⟩ := @namespace_updates w scope db name
  simp only [Database.namespaceOrCreate]
  cases fetched : db.namespace_ w name with
  | mk db₁ found =>
      rw [fetched] at moved handle
      dsimp only at moved handle
      cases found with
      | some ns => exact ⟨moved, handle.symm⟩
      | none =>
          dsimp only
          have ready : ∃ db₂, (if db₁.evicted (shardOf name) then (db₁.pageIn w (shardOf name)).getD db₁ else db₁) = db₂ ∧
              Updates w scope db db₂ ∧ (db₂.evicted (shardOf name) = false ∨ scope.blind) := by
            cases away : db₁.evicted (shardOf name) with
            | false => exact ⟨db₁, rfl, moved, .inl away⟩
            | true =>
                cases paged : db₁.pageIn w (shardOf name) with
                | none => exact ⟨db₁, rfl, moved, .inr (sees ⟨moved.evicted away, .inr (read_of_pageIn paged)⟩)⟩
                | some db₂ =>
                    refine ⟨db₂, rfl, moved.tail (.pageIn away paged), ?_⟩
                    cases stored : db₁.store with
                    | true => exact .inl (resident_of_pageIn stored paged)
                    | false => exact .inr (sees ⟨moved.evicted away, .inl (moved.store.symm.trans stored)⟩)
          obtain ⟨db₂, same, moved₂, here⟩ := ready
          simp only [same]
          exact ⟨moved₂.tail (.register allowed here), OrderedMap.get_insert_self _ _ _⟩

theorem count_updates (path value : String) : Updates w scope db (db.count w path value).1 := by
  have moved := (@namespace_updates w scope db path).1
  simp only [Database.count]
  split <;> (rename_i fetched; rw [fetched] at moved; exact moved)

theorem logged_updates {path : String} (held : (db.namespaces.get path).isSome = true)
    (kept : ¬ scope.goes path) (value : String) : Updates w scope db (db.logged w path value) := by
  have counted := @count_updates w scope db allNamespace value
  exact counted.tail (.mark (counted.still kept held))

theorem recordIn_updates {path value : String} (sees : Blind db w path → scope.blind) (creates : scope.makes path)
    {origin : String} {when : DateTime} {ttl : Option Nat} {tags : String}
    (writes : ∀ retention, scope.does path (.record origin value when ttl retention tags)) :
    Updates w scope db (db.recordIn w origin path value when ttl tags).1 ∧
      ((db.recordIn w origin path value when ttl tags).1.namespaces.get path).isSome = true := by
  obtain ⟨moved, handle⟩ := @namespaceOrCreate_updates w scope db path creates sees
  refine ⟨moved.tail (.put handle (.record ..) (writes _)), ?_⟩
  simp [Database.recordIn, Database.put]

/-- A value is sighted in one namespace, and possibly in `_all`. -/
def Scope.writing (path value : String) (blind : Prop) : Scope where
  makes name := name = path ∨ name = allNamespace
  goes _ := False
  does name e := (name = path ∨ name = allNamespace) ∧ e.sights value
  blind := blind

theorem writePlain_updates (path value : String) (when : DateTime) (ttl : Option Nat) :
    Updates w (.writing path value (Blind db w allNamespace)) db (db.writePlain w allNamespace value when ttl) := by
  obtain ⟨moved, held⟩ := @recordIn_updates w (.writing path value (Blind db w allNamespace)) db allNamespace value
    id (.inr rfl) db.node when ttl "" fun _ => ⟨.inr rfl, rfl⟩
  exact moved.trans (logged_updates held id value)

theorem recordWrite_updates (origin path value : String) (when : DateTime) (opts : WriteOpts) (tags : String) :
    Updates w (.writing path value (Blind db w path ∨ Blind db w allNamespace)) db
      (db.recordWrite w origin path value when opts tags).1 := by
  obtain ⟨moved, held⟩ := @recordIn_updates w (.writing path value (Blind db w path ∨ Blind db w allNamespace)) db path
    value .inl (.inl rfl) origin when (db.ttlOf path opts) tags fun _ => ⟨.inl rfl, rfl⟩
  simp only [Database.recordWrite]
  split
  · have tallied := @writePlain_updates w (db.recordIn w origin path value when (db.ttlOf path opts) tags).1 path value
      when ((db.recordIn w origin path value when (db.ttlOf path opts) tags).1.ttlOf allNamespace .default)
    have both := moved.trans (tallied.mono ⟨fun _ => id, fun _ => id, fun _ _ => id, fun blind =>
      .inr ⟨moved.evicted blind.1, blind.2.imp_left moved.store.symm.trans⟩⟩)
    exact both.trans (logged_updates (tallied.still id held) id value)
  · exact moved.trans (logged_updates held id value)

theorem writeAll_updates (path value : String) (when : DateTime) :
    Updates w (.writing path value (Blind db w allNamespace)) db (db.write w allNamespace value when .default) := by
  refine (recordWrite_updates db.node allNamespace value when .default "").mono ⟨fun name => ?_, fun _ => id, ?_,
    or_self_iff.mp⟩
  · exact fun own => .inr (or_self_iff.mp own)
  · exact fun name e => And.imp_left fun own => .inr (or_self_iff.mp own)

theorem merge_updates (path value : String) (incoming : Merge) :
    Updates w (.writing path value (Blind db w path ∨ Blind db w allNamespace)) db
      (db.merge w path value incoming).1 := by
  obtain ⟨opened, handle⟩ := @namespaceOrCreate_updates w (.writing path value (Blind db w path ∨ Blind db w allNamespace))
    db path (.inl rfl) .inl
  have stored : Updates w (.writing path value (Blind db w path ∨ Blind db w allNamespace)) db
      ((db.namespaceOrCreate w path).1.put path ((db.namespaceOrCreate w path).2.merge
        (db.namespaceOrCreate w path).1.node value incoming).1) :=
    opened.tail (.put handle (.merge (db.namespaceOrCreate w path).1.node value incoming) ⟨.inl rfl, rfl⟩)
  have held : (((db.namespaceOrCreate w path).1.put path ((db.namespaceOrCreate w path).2.merge
      (db.namespaceOrCreate w path).1.node value incoming).1).namespaces.get path).isSome = true := by
    simp [Database.put]
  simp only [Database.merge]
  generalize (db.namespaceOrCreate w path).1.put path ((db.namespaceOrCreate w path).2.merge
    (db.namespaceOrCreate w path).1.node value incoming).1 = db₁ at stored held ⊢
  have tallied := @writeAll_updates w db₁ path value w.now
  have counted : ∀ counts : Bool, Updates w (.writing path value (Blind db w path ∨ Blind db w allNamespace)) db
      (if counts then db₁.write w allNamespace value w.now .default else db₁) ∧
      ((if counts then db₁.write w allNamespace value w.now .default else db₁).namespaces.get path).isSome = true := by
    intro counts
    cases counts with
    | false => exact ⟨stored, held⟩
    | true =>
        refine ⟨stored.trans (tallied.mono ⟨fun _ => id, fun _ => id, fun _ _ => id, fun blind => ?_⟩),
          tallied.still id held⟩
        exact .inr ⟨stored.evicted blind.1, blind.2.imp_left stored.store.symm.trans⟩
  split
  · exact (counted _).1.tail (.mark (counted _).2)
  · exact (counted _).1

theorem setTags_updates {path value tags : String} (retags : scope.does path (.retag value tags w.now)) :
    Updates w scope db (db.setTags w path value tags).1 := by
  obtain ⟨moved, handle⟩ := @namespace_updates w scope db path
  simp only [Database.setTags]
  split
  · rename_i fetched
    rw [fetched] at moved
    exact moved
  · rename_i db₁ ns fetched
    rw [fetched] at moved handle
    have stored := moved.tail (.put handle.symm (.retag value tags w.now) retags)
    dsimp only
    split
    · exact stored.tail (.mark (by simp [Database.put]))
    · exact stored

theorem createNamespace_updates {name : String} (allowed : scope.makes name) (sees : Blind db w name → scope.blind) :
    Updates w scope db (db.createNamespace w name).1 := by
  simp only [Database.createNamespace]
  split
  · exact .refl
  · obtain ⟨opened, handle⟩ := @namespaceOrCreate_updates w scope db name allowed sees
    exact opened.tail (.mark (by rw [handle]; rfl))

theorem setConsensus_updates {holders : OrderedMap String Names} (allowed : scope.makes allNamespace)
    (surveys : ∀ node, scope.does allNamespace (.survey holders node w.now))
    (sees : Blind db w allNamespace → scope.blind) : Updates w scope db (db.setConsensus w holders).1 := by
  obtain ⟨opened, handle⟩ := @namespaceOrCreate_updates w scope db allNamespace allowed sees
  have stored := opened.tail (.put handle (.survey holders (db.namespaceOrCreate w allNamespace).1.node w.now) (surveys _))
  simp only [Database.setConsensus]
  split
  · exact stored.tail (.mark (by simp [Database.put]))
  · exact stored

theorem releaseConsensus_updates {value : String} (releases : ∀ node, scope.does allNamespace (.release node value)) :
    Updates w scope db (db.releaseConsensus w value) := by
  obtain ⟨moved, handle⟩ := @namespace_updates w scope db allNamespace
  simp only [Database.releaseConsensus]
  split
  · rename_i fetched
    rw [fetched] at moved
    exact moved
  · rename_i db₁ all fetched
    rw [fetched] at moved handle
    exact moved.tail (.put handle.symm (.release db₁.node value) (releases _))

theorem releaseAll_updates (releases : ∀ node value, scope.does allNamespace (.release node value)) (values : List String) :
    Updates w scope db (values.foldl (fun db value => db.releaseConsensus w value) db) := by
  induction values generalizing db with
  | nil => exact .refl
  | cons value rest ih => exact (releaseConsensus_updates fun node => releases node value).trans ih

/-- Taking a namespace out of memory and catalogue. Marking its shard first is the same, and
the namespace is then still there to be marked for. -/
theorem erase_updates {name : String} (held : (db.namespaces.get name).isSome = true) (allowed : scope.goes name) :
    Updates w scope db
      ((({ db with namespaces := db.namespaces.erase name } : Database).markDirty name).uncatalogue name) := by
  have marked : Updates w scope db (db.markDirty name) := .single (.mark held)
  have erased := marked.tail (.erase allowed)
  exact erased.tail (.uncatalogue _ name)

theorem delete_updates {name : String} (allowed : scope.goes name)
    (releases : ∀ node value, scope.does allNamespace (.release node value)) :
    Updates w scope db (db.delete w name).1 := by
  obtain ⟨moved, handle⟩ := @namespace_updates w scope db name
  simp only [Database.delete]
  split
  · rename_i fetched
    rw [fetched] at moved
    exact moved
  · rename_i db₁ ns fetched
    rw [fetched] at moved handle
    dsimp only at moved handle ⊢
    have gone := moved.trans (erase_updates (by rw [← handle]; rfl) allowed)
    split
    · exact gone.trans (releaseAll_updates releases ns.valueNames)
    · exact gone

theorem sweepOne_updates {now : DateTime} (sweeps : ∀ name, scope.does name (.removeExpired now))
    (releases : ∀ node value, scope.does allNamespace (.release node value)) (name : String) :
    Updates w scope db (db.sweepOne w now name).1 := by
  simp only [Database.sweepOne]
  split
  · exact .refl
  · rename_i ns found
    split
    · exact .refl
    · have stored : Updates w scope db (db.put name (ns.removeExpired now).1) :=
        .single (.put found (.removeExpired now) (sweeps name))
      have marked : Updates w scope db (if (ns.removeExpired now).2.isEmpty then
          db.put name (ns.removeExpired now).1 else (db.put name (ns.removeExpired now).1).markDirty name) := by
        split
        · exact stored
        · exact stored.tail (.mark (by simp [Database.put]))
      dsimp only
      split
      · exact marked.trans (releaseAll_updates releases _)
      · exact marked

theorem pruneOne_updates {name : String} (allowed : scope.goes name) : Updates w scope db (db.pruneOne name).1 := by
  simp only [Database.pruneOne]
  split
  · exact .refl
  · split
    · exact .refl
    · split
      · exact (Relation.ReflTransGen.single (.erase allowed)).tail (.uncatalogue _ name)
      · exact .refl

theorem sweep_updates {now : DateTime} (sweeps : ∀ name, scope.does name (.removeExpired now))
    (releases : ∀ node value, scope.does allNamespace (.release node value)) (allowed : ∀ name, scope.goes name)
    (order : List String) : Updates w scope db (db.sweep w now order).1 :=
  @Database.sweep_induction (fun db' => Updates w scope db db') w now
    (fun _ name moved => moved.trans (sweepOne_updates sweeps releases name))
    (fun _ name moved => moved.trans (pruneOne_updates (allowed name))) db .refl order

theorem withConsensus_updates (views : List AttributeView) : Updates w scope db (db.withConsensus w views).1 := by
  induction views generalizing db with
  | nil => exact .refl
  | cons v rest ih =>
      have counted := @count_updates w scope db allNamespace v.value
      simp only [Database.withConsensus]
      exact counted.trans ih

theorem valueCount_updates (name : String) : Updates w scope db (db.valueCount w name).1 := by
  have touched : Updates w scope db (db.touch w (shardOf name)) := .single (.touch db _)
  simp only [Database.valueCount]
  cases (db.touch w (shardOf name)).namespaces.get name with
  | some ns => exact touched
  | none =>
      have moved := touched.trans (@namespace_updates w scope _ name).1
      dsimp only
      split <;> (rename_i same; rw [same] at moved; exact moved)

theorem query_updates (query : Query) : Updates w scope db (query.apply db w).1 := by
  have fetched : ∀ name, Updates w scope db (db.namespace_ w name).1 := fun name => (namespace_updates name).1
  cases query with
  | view path value consensus withStats =>
      have moved := fetched path
      simp only [Query.apply, Database.view]
      split <;> (rename_i same; rw [same] at moved; exact moved)
  | count path value => exact count_updates path value
  | mergePage path offset limit =>
      have moved := fetched path
      simp only [Query.apply, Database.mergePage]
      split <;> (rename_i same; rw [same] at moved; exact moved)
  | namespaceExists name => exact .refl
  | namespaceViews name =>
      have moved := fetched name
      simp only [Query.apply, Database.namespaceViews]
      split
      · rename_i same
        rw [same] at moved
        exact moved
      · rename_i same
        rw [same] at moved
        exact moved.trans (withConsensus_updates _)
  | valueCount name => exact valueCount_updates name

end Operations

end SightingDB
