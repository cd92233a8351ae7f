import SightingDB.ReadRoutes
import SightingDB.Store

/-!
What a request that reads can tell about the configuration namespaces. Two databases that agree
outside them are asked the same thing; the answers are compared route by route.
-/
namespace SightingDB

/-- Whether the catalogue has a name in a shard. -/
def Database.knows (db : Database) (shard name : String) : Bool :=
  (db.shards.get shard).any (·.namespaces.contains name)

/-- Two databases that agree outside the configuration: on the values under every other name, on
the other names in the catalogue, and on what is in memory. -/
structure SameOutside (db db' : Database) : Prop where
  values : ∀ name, startsWith name configPrefix = false → db.namespaces.get name = db'.namespaces.get name
  known : ∀ shard name, startsWith name configPrefix = false → db.knows shard name = db'.knows shard name
  away : ∀ shard, db.evicted shard = db'.evicted shard
  policy : db.policy = db'.policy
  node : db.node = db'.node
  store : db.store = db'.store

/-- The database without its configuration. -/
def Database.withoutConfig (db : Database) : Database where
  namespaces := db.namespaces.filter fun name _ => !startsWith name configPrefix
  policy := db.policy
  stores := db.stores
  node := db.node
  dirty := db.dirty
  shards := db.shards.mapValues fun _ meta_ =>
    { meta_ with namespaces := meta_.namespaces.filter fun name _ => !startsWith name configPrefix }
  store := db.store
  tiers := db.tiers

theorem sameOutside_withoutConfig (db : Database) : SameOutside db db.withoutConfig where
  values name open_ := by
    rw [Database.withoutConfig, OrderedMap.get_filter]
    cases db.namespaces.get name <;> simp [open_, Option.filter]
  known shard name open_ := by
    simp only [Database.knows, Database.withoutConfig, OrderedMap.get_mapValues]
    cases db.shards.get shard with
    | none => rfl
    | some meta_ =>
        simp only [Option.map_some, Option.any_some, OrderedMap.contains, OrderedMap.get_filter, open_]
        cases meta_.namespaces.get name <;> simp [Option.filter]
  away shard := by
    simp only [Database.evicted, Database.withoutConfig, OrderedMap.get_mapValues]
    cases db.shards.get shard <;> rfl
  policy := rfl
  node := rfl
  store := rfl

/-! ## Bringing a shard back -/

section Shards

variable {db db' : Database} {w : World} {shard name : String}

theorem catalogued_eq (db : Database) (shard name : String) :
    db.catalogued shard name = (db.evicted shard && db.knows shard name) := by
  simp only [Database.catalogued, Database.evicted, Database.knows]
  cases db.shards.get shard <;> rfl

theorem namespaceExists_eq (db : Database) (name : String) :
    db.namespaceExists name = (db.namespaces.contains name || db.knows (shardOf name) name) := by
  simp only [Database.namespaceExists, Database.knows]
  cases db.shards.get (shardOf name) <;> rfl

theorem knows_touch (db : Database) (w : World) (shard k name : String) :
    (db.touch w shard).knows k name = db.knows k name := by
  simp only [Database.knows, Database.touch_shards]
  cases db.shards.get k with
  | none => rfl
  | some meta_ =>
      simp only [Option.map_some, Option.any_some]
      split <;> rfl

namespace SameOutside

theorem touch (same : SameOutside db db') (w : World) (shard : String) :
    SameOutside (db.touch w shard) (db'.touch w shard) where
  values name open_ := by simpa using same.values name open_
  known k name open_ := by simpa only [knows_touch] using same.known k name open_
  away k := by simpa using same.away k
  policy := by rw [Database.touch_ignores, Database.touch_ignores db']; exact same.policy
  node := by simpa using same.node
  store := by simpa using same.store

/-- A shard brought into memory, with the same names listed and the same values, outside the
configuration. -/
theorem loaded (same : SameOutside db db') {shard : String} {listed listed' : Names} {at_ : Int}
    {all all' : OrderedMap String Namespace}
    (lists : ∀ name, startsWith name configPrefix = false → listed.contains name = listed'.contains name)
    (holds : ∀ name, startsWith name configPrefix = false → all.get name = all'.get name) :
    SameOutside { db with namespaces := all, shards := db.shards.insert shard ⟨listed, true, at_⟩ }
      { db' with namespaces := all', shards := db'.shards.insert shard ⟨listed', true, at_⟩ } where
  values := holds
  known k name open_ := by
    have before := same.known k name open_
    simp only [Database.knows, OrderedMap.get_insert] at before ⊢
    by_cases here : k = shard
    · simpa [here] using lists name open_
    · simpa [here] using before
  away k := by
    have before := same.away k
    simp only [Database.evicted, OrderedMap.get_insert] at before ⊢
    by_cases here : k = shard
    · simp [here]
    · simpa [here] using before
  policy := same.policy
  node := same.node
  store := same.store

theorem listed (same : SameOutside db db') (shard : String) (open_ : startsWith name configPrefix = false) :
    (((db.shards.get shard).getD .default).namespaces).contains name =
      (((db'.shards.get shard).getD .default).namespaces).contains name := by
  have before := same.known shard name open_
  simp only [Database.knows] at before
  cases found : db.shards.get shard with
  | none =>
      cases found' : db'.shards.get shard with
      | none => rfl
      | some meta' => simpa [found, found', ShardMeta.default, OrderedMap.contains] using before
  | some meta_ =>
      cases found' : db'.shards.get shard with
      | none => simpa [found, found', ShardMeta.default, OrderedMap.contains] using before
      | some meta' => simpa [found, found'] using before

/-- The same file is read for both. -/
theorem pageIn (same : SameOutside db db') (gone : db.evicted shard = true) :
    Option.Rel SameOutside (db.pageIn w shard) (db'.pageIn w shard) := by
  obtain ⟨meta_, found, away⟩ := evicted_iff.mp gone
  obtain ⟨meta', found', away'⟩ := evicted_iff.mp (same.away shard ▸ gone)
  simp only [Database.pageIn, found, found', Option.map_some, Option.getD_some, away, away', Bool.false_eq_true, if_false]
  by_cases stored : db.store = true
  · rw [if_neg (by simp [stored]), if_neg (by simp [← same.store, stored])]
    cases readShardFile w.names w.dir w.readable shard with
    | none => exact .none
    | some data =>
        refine .some (same.loaded (fun name open_ => ?_) fun name open_ => ?_)
        · have before := same.listed shard open_
          rw [found, found'] at before
          simp only [Option.getD_some] at before
          rw [OrderedMap.contains_foldl_insert, OrderedMap.contains_foldl_insert, before]
        · rw [get_extend, get_extend, same.values name open_, same.node]
  · rw [if_pos (by simp [stored]), if_pos (by simp [← same.store, stored])]
    exact .some same

theorem namespaceExists (same : SameOutside db db') (open_ : startsWith name configPrefix = false) :
    db.namespaceExists name = db'.namespaceExists name := by
  rw [namespaceExists_eq, namespaceExists_eq, same.known _ name open_, OrderedMap.contains, OrderedMap.contains,
    same.values name open_]

end SameOutside

end Shards

/-! ## Asking the database -/

section Asking

variable {α : Type} (w : World) {path name : String}

theorem open_all : startsWith allNamespace configPrefix = false := by decide

theorem open_shadow (name : String) : startsWith (shadowPrefix ++ name) configPrefix = false := by
  simp [startsWith, shadowPrefix, configPrefix, List.isPrefixOf]

theorem namespace_blind (open_ : startsWith name configPrefix = false) :
    Oblivious SameOutside fun db => db.namespace_ w name := by
  intro db db' same
  have touched := same.touch w (shardOf name)
  have catalogued : (db.touch w (shardOf name)).catalogued (shardOf name) name =
      (db'.touch w (shardOf name)).catalogued (shardOf name) name := by
    rw [catalogued_eq, catalogued_eq, touched.away, touched.known _ name open_]
  simp only [Database.namespace_, touched.values name open_, catalogued]
  cases (db'.touch w (shardOf name)).namespaces.get name with
  | some ns => exact ⟨touched, rfl⟩
  | none =>
      cases listed : (db'.touch w (shardOf name)).catalogued (shardOf name) name with
      | false => exact ⟨touched, rfl⟩
      | true =>
          rw [catalogued_eq, Bool.and_eq_true] at listed
          have loaded := touched.pageIn (w := w) (touched.away _ ▸ listed.1)
          dsimp only [Bool.not_true, Bool.false_eq_true, if_false]
          generalize (db.touch w (shardOf name)).pageIn w (shardOf name) = back at loaded ⊢
          generalize (db'.touch w (shardOf name)).pageIn w (shardOf name) = back' at loaded ⊢
          cases loaded with
          | none => exact ⟨touched, rfl⟩
          | some later => exact ⟨later, later.values name open_⟩

theorem count_blind (open_ : startsWith path configPrefix = false) (value : String) :
    Oblivious SameOutside fun db => db.count w path value := by
  intro db db' same
  obtain ⟨db₁, db₁', found, fetch, fetch', kept⟩ := (namespace_blind w open_).ends same
  simp only [Database.count, fetch, fetch']
  cases found <;> exact ⟨kept, rfl⟩

theorem view_blind (open_ : startsWith path configPrefix = false) (value : String) (consensus : Nat) (withStats : Bool) :
    Oblivious SameOutside fun db => db.view w path value consensus withStats := by
  intro db db' same
  obtain ⟨db₁, db₁', found, fetch, fetch', kept⟩ := (namespace_blind w open_).ends same
  simp only [Database.view, fetch, fetch']
  cases found <;> exact ⟨kept, rfl⟩

theorem mergePage_blind (open_ : startsWith path configPrefix = false) (offset limit : Nat) :
    Oblivious SameOutside fun db => db.mergePage w path offset limit := by
  intro db db' same
  obtain ⟨db₁, db₁', found, fetch, fetch', kept⟩ := (namespace_blind w open_).ends same
  simp only [Database.mergePage, fetch, fetch']
  cases found <;> exact ⟨kept, rfl⟩

theorem mergePayload_blind (open_ : startsWith path configPrefix = false) (value : String) :
    Oblivious SameOutside fun db => db.mergePayload w path value := by
  intro db db' same
  obtain ⟨db₁, db₁', found, fetch, fetch', kept⟩ := (namespace_blind w open_).ends same
  simp only [Database.mergePayload, fetch, fetch']
  cases found <;> exact ⟨kept, rfl⟩

theorem valueCount_blind (open_ : startsWith name configPrefix = false) :
    Oblivious SameOutside fun db => db.valueCount w name := by
  intro db db' same
  have touched := same.touch w (shardOf name)
  simp only [Database.valueCount, touched.values name open_]
  cases (db'.touch w (shardOf name)).namespaces.get name with
  | some ns => exact ⟨touched, rfl⟩
  | none =>
      obtain ⟨db₁, db₁', found, fetch, fetch', kept⟩ := (namespace_blind w open_).ends touched
      simp only [fetch, fetch']
      cases found <;> exact ⟨kept, rfl⟩

theorem withConsensus_blind (views : List AttributeView) : Oblivious SameOutside fun db => db.withConsensus w views := by
  induction views with
  | nil => exact Oblivious.answer []
  | cons v rest ih =>
      intro db db' same
      obtain ⟨kept, consensus⟩ := count_blind w open_all v.value same
      obtain ⟨kept', later⟩ := ih kept
      dsimp only at consensus later
      simp only [Database.withConsensus, consensus, later]
      exact ⟨kept', trivial⟩

theorem namespaceViews_blind (open_ : startsWith name configPrefix = false) :
    Oblivious SameOutside fun db => db.namespaceViews w name := by
  intro db db' same
  obtain ⟨db₁, db₁', found, fetch, fetch', kept⟩ := (namespace_blind w open_).ends same
  simp only [Database.namespaceViews, fetch, fetch']
  cases found with
  | none => exact ⟨kept, rfl⟩
  | some ns => exact (withConsensus_blind w (ns.allViews false w.now)).map some kept

theorem valuePage_blind (open_ : startsWith name configPrefix = false) (filter : String) (offset limit : Nat)
    (withStats : Bool) : Oblivious SameOutside fun db => db.valuePage w name filter offset limit withStats := by
  intro db db' same
  obtain ⟨db₁, db₁', found, fetch, fetch', kept⟩ := (namespace_blind w open_).ends same
  simp only [Database.valuePage, fetch, fetch']
  cases found with
  | none => exact ⟨kept, rfl⟩
  | some ns =>
      exact (withConsensus_blind w (ns.valuePage filter offset limit withStats w.now).items).map
        (fun items => some { ns.valuePage filter offset limit withStats w.now with items := items }) kept

theorem exportPages_blind (filter : String) {names : List String}
    (open_ : ∀ name ∈ names, startsWith name configPrefix = false) (budget : Nat) :
    Oblivious SameOutside fun db => db.exportPages w filter budget names := by
  induction names generalizing budget with
  | nil => exact Oblivious.answer _
  | cons name rest ih =>
      have later := ih fun other mem => open_ other (by simp [mem])
      intro db db' same
      simp only [Database.exportPages]
      split
      · exact ⟨same, rfl⟩
      · obtain ⟨db₁, db₁', page, paged, paged', kept⟩ :=
          (valuePage_blind w (open_ name (by simp)) filter 0 budget false).ends same
        simp only [paged, paged']
        cases page with
        | none =>
            obtain ⟨kept', spent⟩ := later budget kept
            dsimp only at spent
            exact ⟨kept', by dsimp only; rw [spent]⟩
        | some page =>
            obtain ⟨kept', spent⟩ := later (budget - page.items.length) kept
            dsimp only at spent
            exact ⟨kept', by dsimp only; rw [spent]⟩

/-! ### Leaving a shadow -/

theorem namespaceOrCreate_blind (open_ : startsWith name configPrefix = false) :
    Oblivious SameOutside fun db => db.namespaceOrCreate w name := by
  intro db db' same
  obtain ⟨db₁, db₁', ns, fetch, fetch', kept⟩ := (namespace_blind w open_).ends same
  simp only [Database.namespaceOrCreate, fetch, fetch']
  cases ns with
  | some ns => exact ⟨kept, rfl⟩
  | none =>
      dsimp only
      have opened : SameOutside (if db₁.evicted (shardOf name) then (db₁.pageIn w (shardOf name)).getD db₁ else db₁)
          (if db₁'.evicted (shardOf name) then (db₁'.pageIn w (shardOf name)).getD db₁' else db₁') := by
        rw [← kept.away]
        split
        · rename_i gone
          have loaded := kept.pageIn (w := w) gone
          generalize db₁.pageIn w (shardOf name) = back at loaded ⊢
          generalize db₁'.pageIn w (shardOf name) = back' at loaded ⊢
          cases loaded with
          | none => exact kept
          | some later => exact later
        · exact kept
      generalize (if db₁.evicted (shardOf name) then (db₁.pageIn w (shardOf name)).getD db₁ else db₁) = db₂ at opened ⊢
      generalize (if db₁'.evicted (shardOf name) then (db₁'.pageIn w (shardOf name)).getD db₁' else db₁') = db₂' at opened ⊢
      refine ⟨opened.loaded (fun other open' => ?_) fun other open' => ?_, by rw [opened.values name open_]⟩
      · have before := opened.listed (shardOf name) open'
        simp only [OrderedMap.contains, OrderedMap.get_insert] at before ⊢
        by_cases here : other = name
        · simp [here]
        · simpa [here] using before
      · rw [OrderedMap.get_insert, OrderedMap.get_insert, opened.values other open', opened.values name open_]

theorem SameOutside.put {db db' : Database} (same : SameOutside db db') (name : String) (ns : Namespace) :
    SameOutside (db.put name ns) (db'.put name ns) where
  values other open_ := by
    simp only [Database.put, OrderedMap.get_insert, same.values other open_]
  known := same.known
  away := same.away
  policy := same.policy
  node := same.node
  store := same.store

/-- A search is recorded in both alike. -/
theorem write_kept {db db' : Database} (same : SameOutside db db') (open_ : startsWith path configPrefix = false)
    (value : String) (when : DateTime) :
    SameOutside (db.write w path value when .default) (db'.write w path value when .default) := by
  obtain ⟨db₁, db₁', ns, made, made', kept⟩ := (namespaceOrCreate_blind w open_).ends same
  have ttl : db.ttlOf path .default = db'.ttlOf path .default := by simp only [Database.ttlOf, same.policy]
  simp only [Database.write, Database.recordWrite, Database.recordIn, WriteOpts.default, Bool.false_and, Bool.false_eq_true,
    if_false, made, made', same.node] at ttl ⊢
  rw [ttl, kept.policy]
  have recorded := kept.put path (ns.record db'.node value when (db'.ttlOf path ⟨false, none⟩)
    db₁'.policy.statsRetention "").1
  obtain ⟨logged, -⟩ := count_blind w open_all value recorded
  exact { logged with }

theorem read_blind (name value : String) (withStats withShadow : Bool) :
    Oblivious SameOutside fun db => SightingDB.read db w name value withStats withShadow := by
  intro db db' same
  simp only [SightingDB.read]
  split
  · exact ⟨same, rfl⟩
  · rename_i open_
    have open_ := Bool.eq_false_of_not_eq_true open_
    obtain ⟨db₁, db₁', consensus, counted, counted', kept⟩ := (count_blind w open_all value).ends same
    obtain ⟨db₂, db₂', found, viewed, viewed', kept⟩ := (view_blind w open_ value consensus withStats).ends kept
    simp only [counted, counted', viewed, viewed', kept.namespaceExists open_]
    refine ⟨?_, trivial⟩
    split
    · exact write_kept w kept (open_shadow name) value w.now
    · exact kept

theorem readNamespace_blind (name : String) : Oblivious SameOutside fun db => SightingDB.readNamespace db w name := by
  intro db db' same
  simp only [SightingDB.readNamespace]
  split
  · exact ⟨same, rfl⟩
  · rename_i open_
    obtain ⟨db₁, db₁', views, listed, listed', kept⟩ :=
      (namespaceViews_blind w (Bool.eq_false_of_not_eq_true open_)).ends same
    simp only [listed, listed']
    exact ⟨kept, trivial⟩

end Asking

/-! ## Asking for the names -/

theorem lists_iff {db : Database} {name : String} : db.lists name ↔ ∃ shard, db.knows shard name = true := by
  constructor
  · rintro ⟨⟨shard, meta_⟩, mem, listed⟩
    refine ⟨shard, ?_⟩
    rw [Database.knows, OrderedMap.mem_entries.mp mem]
    exact OrderedMap.contains_iff.mpr (OrderedMap.mem_keys.mp listed)
  · rintro ⟨shard, known⟩
    rw [Database.knows, Option.any_eq_true_iff_get] at known
    obtain ⟨there, listed⟩ := known
    exact ⟨(shard, (db.shards.get shard).get there), OrderedMap.mem_entries.mpr (by simp),
      OrderedMap.mem_keys.mpr (OrderedMap.contains_iff.mp listed)⟩

theorem open_of_external {name : String} (external : isInternal name = false) :
    startsWith name configPrefix = false :=
  Bool.eq_false_of_not_eq_true fun config => by
    rw [isInternal_of_config config] at external
    cases external

/-- Listings leave out what is internal, so they are the same. -/
theorem SameOutside.namespacesUnder {db db' : Database} (same : SameOutside db db') (start : String)
    (allowed : String → Bool) : db.namespacesUnder start allowed = db'.namespacesUnder start allowed := by
  have members : ∀ name, name ∈ db.namespacesUnder start allowed ↔ name ∈ db'.namespacesUnder start allowed := by
    intro name
    rw [Database.mem_namespacesUnder, Database.mem_namespacesUnder, lists_iff, lists_iff]
    constructor
    · rintro ⟨⟨shard, known⟩, external, rest⟩
      exact ⟨⟨shard, same.known shard name (open_of_external external) ▸ known⟩, external, rest⟩
    · rintro ⟨⟨shard, known⟩, external, rest⟩
      exact ⟨⟨shard, (same.known shard name (open_of_external external)).symm ▸ known⟩, external, rest⟩
  have perm := (List.perm_ext_iff_of_nodup (List.nodup_dedup _) (List.nodup_dedup _)).mpr members
  exact List.Perm.eq_of_pairwise' ((List.pairwise_insertionSort (· ≤ ·) _).sublist (List.dedup_sublist _))
    ((List.pairwise_insertionSort (· ≤ ·) _).sublist (List.dedup_sublist _)) perm

/-! ## Route by route -/

namespace Service

variable (service : Service) (headers : Headers)

/-- What is answered before the guard. -/
def unguarded : ReadAsk → Bool
  | .count _ | .page _ _ _ | .payload _ _ => true
  | .both | .value _ _ _ | .listing _ => false

theorem doRead_unguarded (name : String) (query : ReadQuery) : unguarded (doRead name query) = true ↔
    query.count.isSome = true ∧ query.val = none ∨ query.count = none ∧ query.forMerge.isSome = true := by
  rcases query with ⟨val, noshadow, count, forMerge, offset, limit⟩
  cases val <;> cases count <;> cases forMerge <;> simp [doRead, unguarded]

theorem answerRead_blind (withStats : Bool) (name : String) (query : ReadQuery)
    (open_ : unguarded (doRead name query) = true → startsWith name configPrefix = false) :
    Oblivious SameOutside (service.answerRead withStats name query) := by
  intro db db' same
  cases asked : doRead name query with
  | both =>
      simp only [answerRead, asked]
      exact ⟨same, trivial⟩
  | count n =>
      obtain rfl : n = name := doRead_about (by rw [asked]; rfl)
      obtain ⟨db₁, db₁', counted, here, here', kept⟩ :=
        (valueCount_blind service.world (open_ (by rw [asked]; rfl))).ends same
      simp only [answerRead, asked, here, here']
      exact ⟨kept, trivial⟩
  | page n offset limit =>
      obtain rfl : n = name := doRead_about (by rw [asked]; rfl)
      obtain ⟨db₁, db₁', page, here, here', kept⟩ :=
        (mergePage_blind service.world (open_ (by rw [asked]; rfl)) offset limit).ends same
      simp only [answerRead, asked, here, here']
      exact ⟨kept, trivial⟩
  | payload n value =>
      obtain rfl : n = name := doRead_about (by rw [asked]; rfl)
      obtain ⟨db₁, db₁', payload, here, here', kept⟩ :=
        (mergePayload_blind service.world (open_ (by rw [asked]; rfl)) value).ends same
      simp only [answerRead, asked, here, here']
      exact ⟨kept, trivial⟩
  | value n value withShadow =>
      obtain ⟨db₁, db₁', result, here, here', kept⟩ := (read_blind service.world n value withStats withShadow).ends same
      simp only [answerRead, asked, here, here']
      exact ⟨kept, trivial⟩
  | listing n =>
      simp only [answerRead, asked]
      split
      · exact ⟨same, rfl⟩
      · obtain ⟨db₁, db₁', result, here, here', kept⟩ := (readNamespace_blind service.world n).ends same
        simp only [here, here']
        exact ⟨kept, trivial⟩

theorem authorize_eq_none {name : String} :
    service.authorize headers name = none ↔ service.site.authorized headers name .read = true := by
  rw [authorize, Site.authorized]
  cases service.site.apiKey headers <;> simp

/-- A read of configuration that is answered before the guard: a count, or what a merge takes. -/
def Leaks : Lookup → Prop
  | .read _ name query => startsWith name configPrefix = true ∧ service.site.authorized headers name .read = true ∧
      (query.count.isSome = true ∧ query.val = none ∨ query.count = none ∧ query.forMerge.isSome = true)
  | _ => False

theorem readRoute_blind {withStats : Bool} {name : String} {query : ReadQuery}
    (tight : ¬ service.Leaks headers (.read withStats name query)) :
    Oblivious SameOutside (service.read headers withStats name query) := by
  intro db db' same
  simp only [Service.read]
  split
  · exact ⟨same, rfl⟩
  · rename_i authorized
    rw [authorize_eq_none] at authorized
    split
    · refine service.answerRead_blind withStats name query (fun past => ?_) same
      exact Bool.eq_false_of_not_eq_true fun config => tight ⟨config, authorized, (doRead_unguarded name query).mp past⟩
    · exact ⟨same, rfl⟩
    · refine ⟨?_, rfl⟩
      dsimp only
      split
      · exact write_kept service.world same (open_shadow name) _ service.world.now
      · exact same

theorem place_blind (withStats : Bool) (hops : Option Nat) (item : BulkSighting) :
    Oblivious SameOutside (service.place withStats hops item) := by
  intro db db' same
  simp only [place]
  split
  · obtain ⟨db₁, db₁', result, here, here', kept⟩ :=
      (read_blind service.world item.namespace_ item.value withStats (!item.noshadow)).ends same
    simp only [readHere, here, here']
    exact ⟨kept, trivial⟩
  · split
    · exact ⟨same, rfl⟩
    · split
      · refine ⟨?_, rfl⟩
        dsimp only
        split
        · exact same
        · exact write_kept service.world same (open_shadow item.namespace_) item.value service.world.now
      · exact ⟨same, rfl⟩

theorem readBulk_blind (withStats : Bool) (items : List BulkSighting) :
    Oblivious SameOutside (service.readBulk headers withStats items) := by
  intro db db' same
  simp only [readBulk]
  split
  · exact ⟨same, rfl⟩
  · have blind : Oblivious SameOutside (Steps.each (service.place withStats
        (service.site.galaxy.bind fun galaxy => headers.hopsLeft galaxy.maxHops)) items) :=
      Oblivious.each fun item _ => service.place_blind withStats _ item
    obtain ⟨db₁, db₁', placed, each, each', kept⟩ := blind.ends same
    simp only [each, each']
    exact ⟨kept, trivial⟩

/-! ### Exports -/

variable {names : List String} (open_ : ∀ name ∈ names, startsWith name configPrefix = false)

include open_ in
theorem exportHere_blind (untyped : Stix.Untyped) (filter : String) (limit : Nat) :
    Oblivious SameOutside (service.exportHere untyped filter limit names) :=
  (exportPages_blind service.world filter open_ limit).map (Stix.exportOf service.crates service.settings untyped)

include open_ in
theorem gatheredExport_blind (untyped : Stix.Untyped) (filter : String) (limit : Nat) :
    Oblivious SameOutside (service.gatheredExport untyped filter limit names) := by
  intro db db' same
  have mine : ∀ name ∈ names.filter service.site.stores.holds, startsWith name configPrefix = false :=
    fun name mem => open_ name (List.mem_of_mem_filter mem)
  obtain ⟨db₁, db₁', own, here, here', kept⟩ := (service.exportHere_blind mine untyped filter limit).ends same
  simp only [gatheredExport, here, here']
  split
  · exact ⟨same, rfl⟩
  · exact ⟨kept, rfl⟩
  · exact ⟨kept, rfl⟩
  · exact ⟨kept, rfl⟩

include open_ in
theorem exportOrGather_blind (untyped : Stix.Untyped) (filter : String) (limit : Nat)
    (answer : Stix.Export → Response) :
    Oblivious SameOutside (service.exportOrGather untyped filter limit names answer) := by
  intro db db' same
  obtain ⟨db₁, db₁', response, gathered, gathered', kept⟩ :=
    (service.gatheredExport_blind open_ untyped filter limit).ends same
  simp only [exportOrGather, gathered, gathered']
  cases response with
  | some response => exact ⟨kept, rfl⟩
  | none => exact (service.exportHere_blind open_ untyped filter limit).map answer kept

theorem reachableSubtrees_same {db db' : Database} (same : SameOutside db db') (roots : List String) :
    service.reachableSubtrees headers roots db = service.reachableSubtrees headers roots db' := by
  simp only [reachableSubtrees, expandSubtrees, same.namespacesUnder]

/-- What is taken up one by one was there, or was not to be skipped. -/
theorem mem_taken {p : List String → String → Prop} [∀ l a, Decidable (p l a)] {more found : List String} {name : String}
    (mem : name ∈ more.foldl (fun found name => if p found name then found else found ++ [name]) found) :
    name ∈ found ∨ name ∈ more ∧ ∃ l, ¬ p l name := by
  induction more generalizing found with
  | nil => exact .inl mem
  | cons first rest ih =>
      rw [List.foldl_cons] at mem
      rcases ih mem with before | ⟨later, take⟩
      · split_ifs at before with skip
        · exact .inl before
        · rcases List.mem_append.mp before with before | new
          · exact .inl before
          · obtain rfl := List.mem_singleton.mp new
            exact .inr ⟨by simp, found, skip⟩
      · exact .inr ⟨List.mem_cons_of_mem _ later, take⟩

include open_ in
theorem open_reachable (db : Database) : ∀ name ∈ service.reachableSubtrees headers names db,
    startsWith name configPrefix = false := by
  have here : ∀ name ∈ service.expandSubtrees headers names db, startsWith name configPrefix = false := by
    intro name mem
    rw [expandSubtrees] at mem
    split at mem
    · exact open_ name mem
    · rcases mem_taken (p := fun found name => name ∈ found) mem with none_ | ⟨listed, -⟩
      · cases none_
      · obtain ⟨root, -, listed⟩ := List.mem_flatMap.mp listed
        exact open_of_external (Database.mem_namespacesUnder.mp listed).2.1
  intro name mem
  simp only [reachableSubtrees] at mem
  split at mem
  · exact here name mem
  · exact here name mem
  · rcases mem_taken ((List.mem_insertionSort _).mp mem) with before | ⟨-, found, take⟩
    · exact here name before
    · simp only [Bool.or_eq_true, not_or, Bool.not_eq_true] at take
      exact open_of_external take.1.1

theorem exportStixValue_blind {name : String} (open_ : startsWith name configPrefix = false) (value : String)
    (query : ExportQuery) : Oblivious SameOutside (service.exportStixValue headers name value query) := by
  intro db db' same
  simp only [exportStixValue]
  split
  · exact ⟨same, rfl⟩
  · split
    · exact ⟨same, rfl⟩
    · split
      · exact ⟨same, rfl⟩
      · exact ⟨same, rfl⟩
      · obtain ⟨db₁, db₁', view, here, here', kept⟩ := (view_blind service.world open_ value 0 false).ends same
        simp only [exportValue, here, here', kept.namespaceExists open_]
        exact ⟨kept, trivial⟩

theorem exportStix_blind (name : String) (query : ExportQuery) :
    Oblivious SameOutside (service.exportStix headers name query) := by
  intro db db' same
  simp only [exportStix]
  split
  · exact ⟨same, rfl⟩
  · split
    · exact ⟨same, rfl⟩
    · rename_i open_
      have open_ := Bool.eq_false_of_not_eq_true open_
      have each : ∀ n ∈ [name], startsWith n configPrefix = false := by simpa using open_
      split
      · exact service.exportStixValue_blind headers open_ _ query same
      · split
        · rw [← service.reachableSubtrees_same headers same]
          split
          · exact ⟨same, rfl⟩
          · exact service.exportOrGather_blind (service.open_reachable headers each db) _ _ _ _ same
        · exact service.exportOrGather_blind each _ _ _ _ same

theorem exportStixApi_blind (body : Stix.ExportBody) : Oblivious SameOutside (service.exportStixApi headers body) := by
  intro db db' same
  simp only [exportStixApi]
  split
  · exact ⟨same, rfl⟩
  · split
    · exact ⟨same, rfl⟩
    · rename_i open_
      have open_ : ∀ n ∈ body.request.wanted, startsWith n configPrefix = false := by
        intro n mem
        have passed := List.findSome?_eq_none_iff.mp open_ n mem
        split_ifs at passed with config
        exact Bool.eq_false_of_not_eq_true config
      rw [← service.reachableSubtrees_same headers same]
      have below : ∀ n ∈ (if body.request.recursive then service.reachableSubtrees headers body.request.wanted db
          else body.request.wanted), startsWith n configPrefix = false := by
        split
        · exact service.open_reachable headers open_ db
        · exact open_
      generalize (if body.request.recursive then service.reachableSubtrees headers body.request.wanted db
          else body.request.wanted) = found at below ⊢
      split
      · exact ⟨same, rfl⟩
      · exact service.exportOrGather_blind below _ _ _ _ same

/-- Apart from the leaks, no request tells two databases apart that agree outside the configuration. -/
theorem respond_blind {lookup : Lookup} (tight : ¬ service.Leaks headers lookup) :
    Oblivious SameOutside (service.respond headers lookup) := by
  cases lookup with
  | read withStats name query => exact service.readRoute_blind headers tight
  | readBulk withStats items => exact service.readBulk_blind headers withStats items
  | stix name query => exact service.exportStix_blind headers name query
  | stixApi body => exact service.exportStixApi_blind headers body
  | namespaces start =>
      intro db db' same
      simp only [respond, namespaces, same.namespacesUnder]
      split <;> exact ⟨same, rfl⟩
  | latest query =>
      intro db db' same
      simp only [respond, latestWrites]
      split <;> exact ⟨same, rfl⟩

/-- Nor does any run of requests, each on what the ones before it leave. -/
theorem run_blind {asked : List (Headers × Lookup)} (tight : ∀ a ∈ asked, ¬ service.Leaks a.1 a.2) :
    Oblivious SameOutside (Steps.each (fun a => service.respond a.1 a.2) asked) :=
  Oblivious.each fun a mem => service.respond_blind a.1 (tight a mem)

/-! ## The leaks -/

section Leaking

variable {withStats : Bool} {name : String} {query : ReadQuery} {db db' : Database} {ns : Namespace} {w : World}

theorem namespace_found (there : db.namespaces.get name = some ns) :
    db.namespace_ w name = (db.touch w (shardOf name), some ns) := by
  simp [Database.namespace_, there]

theorem namespace_unknown (absent : db.namespaces.get name = none) (unknown : db.knows (shardOf name) name = false) :
    db.namespace_ w name = (db.touch w (shardOf name), none) := by
  simp [Database.namespace_, absent, catalogued_eq, knows_touch, unknown]

theorem doRead_payload {n value : String} (asked : doRead name query = .payload n value) : query.val = some value := by
  rw [doRead] at asked
  split_ifs at asked
  · split at asked
    · cases asked
    · rename_i given
      cases asked
      exact given
  · split at asked <;> cases asked

/-- One database has the namespace and the value, the other has never heard of it. -/
theorem answerRead_tells (past : unguarded (doRead name query) = true) (there : db.namespaces.get name = some ns)
    (live : ∀ value, query.val = some value → (ns.mergePayload value service.world.now).isSome = true)
    (absent : db'.namespaces.get name = none) (unknown : db'.knows (shardOf name) name = false) :
    (service.answerRead withStats name query db).2 ≠ (service.answerRead withStats name query db').2 := by
  cases asked : doRead name query with
  | both => simp [asked, unguarded] at past
  | value n value withShadow => simp [asked, unguarded] at past
  | listing n => simp [asked, unguarded] at past
  | count n =>
      obtain rfl : n = name := doRead_about (by rw [asked]; rfl)
      have absent' : (db'.touch service.world (shardOf n)).namespaces.get n = none := by simpa using absent
      have unknown' : (db'.touch service.world (shardOf n)).knows (shardOf n) n = false := by rw [knows_touch, unknown]
      simp [answerRead, asked, Database.valueCount, there, absent, namespace_unknown absent' unknown']
  | page n offset limit =>
      obtain rfl : n = name := doRead_about (by rw [asked]; rfl)
      simp [answerRead, asked, Database.mergePage, namespace_found there, namespace_unknown absent unknown]
  | payload n value =>
      obtain rfl : n = name := doRead_about (by rw [asked]; rfl)
      obtain ⟨state, offered⟩ := Option.isSome_iff_exists.mp (live value (doRead_payload asked))
      simp [answerRead, asked, Database.mergePayload, namespace_found there, namespace_unknown absent unknown, offered]

/-- A database that holds one value in one namespace. -/
def holding (name value : String) : Database where
  namespaces := OrderedMap.empty.insert name ⟨OrderedMap.empty.insert value (.new value), false⟩
  policy := ⟨0, 0⟩
  stores := .storeEverything
  node := "node"
  dirty := ∅
  shards := Database.catalogue ∅ name 0
  store := false
  tiers := .default

/-- A leak tells whether a namespace of the configuration is there. -/
theorem leaks_tell {lookup : Lookup} (leaks : service.Leaks headers lookup) : ∃ name value,
    (service.respond headers lookup (holding name value)).2 ≠
      (service.respond headers lookup (holding name value).withoutConfig).2 := by
  cases lookup with
  | read withStats name query =>
      obtain ⟨config, authorized, past⟩ := leaks
      refine ⟨name, query.val.getD "", ?_⟩
      have here : service.site.shouldForward headers name = none := by
        simp [Site.shouldForward, StoragePolicy.holds, isInternal_of_config config]
      simp only [respond, Service.read, (service.authorize_eq_none headers).mpr authorized, here]
      refine service.answerRead_tells ((doRead_unguarded name query).mpr past) (OrderedMap.get_insert_self _ _ _) ?_ ?_ ?_
      · intro value given
        simp [Namespace.mergePayload, given, Attribute.isExpired, Attribute.expiresAt, Attribute.new]
      · simp [Database.withoutConfig, holding, config, Option.filter]
      · simp [Database.knows, Database.withoutConfig, holding, Database.catalogue, config, OrderedMap.contains, Option.filter]
  | readBulk _ _ => exact leaks.elim
  | stix _ _ => exact leaks.elim
  | stixApi _ => exact leaks.elim
  | namespaces _ => exact leaks.elim
  | latest _ => exact leaks.elim

end Leaking

/-- For every server, key and request: the response is the same for any two databases that agree
outside the configuration, exactly when the request is no read of a namespace of the
configuration, by a key that may read it, as a count or as a merge takes it. -/
theorem config_unread_iff (lookup : Lookup) :
    (∀ db db', SameOutside db db' → (service.respond headers lookup db).2 = (service.respond headers lookup db').2) ↔
      ¬ service.Leaks headers lookup := by
  constructor
  · intro same leaks
    obtain ⟨name, value, differ⟩ := service.leaks_tell headers leaks
    exact differ (same _ _ (sameOutside_withoutConfig _))
  · intro tight db db' same
    exact (service.respond_blind headers tight same).2

/-- A server with one key, which may read everything. -/
def single : Service where
  site := ⟨.storeEverything, "node", true, ⟨OrderedMap.empty.insert "k" [.allData]⟩, none⟩
  settings := ⟨⟨[], none⟩, .default⟩
  crates := ⟨id, fun _ => false, fun _ => "", fun _ => none⟩
  weigh _ _ := 0
  outside := ⟨fun _ _ _ _ => .error .noHolder, fun _ _ => none, fun _ => none⟩
  latest := .default
  world := .sample

/-- `/r/_config/acl/apikeys/changeme?for_merge` tells whether the key is stored, and what is kept under it. -/
theorem stored_key_read :
    SameOutside (holding "_config/acl/apikeys/changeme" "v") (holding "_config/acl/apikeys/changeme" "v").withoutConfig ∧
    (single.respond ⟨some (some "k"), .absent, none⟩
      (.read false "_config/acl/apikeys/changeme" ⟨none, none, none, some "", none, none⟩)
      (holding "_config/acl/apikeys/changeme" "v")).2 =
        .page "_config/acl/apikeys/changeme" ⟨[("v", (Attribute.new "v").asMerge)], 1, 0⟩ ∧
    (single.respond ⟨some (some "k"), .absent, none⟩
      (.read false "_config/acl/apikeys/changeme" ⟨none, none, none, some "", none, none⟩)
      (holding "_config/acl/apikeys/changeme" "v").withoutConfig).2 =
        .error (.pathNotFound "_config/acl/apikeys/changeme" "") :=
  ⟨sameOutside_withoutConfig _, rfl, rfl⟩

end Service

end SightingDB
