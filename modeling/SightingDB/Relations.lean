import Mathlib.Data.Set.Card
import Mathlib.Data.List.Sort
import SightingDB.Saving
import SightingDB.Consensus
import SightingDB.Lib.EarlyStop

/-!
Where one value has been seen: the search behind the relationship view. It knows from the
tally how many namespaces to expect, looks in memory first, and stops when it has them all.
-/
namespace SightingDB

/-- One namespace a value has been seen in. -/
structure Sighting where
  namespace_ : String
  shard : String
  count : Nat
  firstSeen : Int
  lastSeen : Int
  deriving DecidableEq

/-- Everywhere one value was found, and what the search cost. -/
structure Sightings where
  items : List Sighting
  truncated : Bool
  pagedIn : Bool
  deriving DecidableEq

def Sightings.default : Sightings := ⟨[], false, false⟩

def Sighting.of (name : String) (view : AttributeView) : Sighting :=
  ⟨name, shardOf name, view.count, view.firstSeen, view.lastSeen⟩

namespace Database

/-- The namespaces that count, of the shards in memory or of the others. -/
def listed (db : Database) (resident : Bool) : List String :=
  (db.shards.entries.filter fun e => e.2.resident = resident).flatMap fun e =>
    e.2.namespaces.keys.filter countsTowardsConsensus

/-- The two loops over names as one, each name with whether it comes from disk. -/
def searchNames (w : World) (value : String) (limit : Nat) (allowed : String → Bool) (target : Nat) :
    List (String × Bool) → Nat → Sightings → Database → Database × Sightings
  | [], _, found, db => (db, found)
  | (name, fromDisk) :: rest, seen, found, db =>
      -- Everything is accounted for; the rest cannot hold the value.
      if 0 < target ∧ target ≤ seen then (db, found)
      else
        match db.view w name value 0 false with
        | (db, none) => searchNames w value limit allowed target rest seen found db
        | (db, some view) =>
            let found := { found with pagedIn := fromDisk || found.pagedIn }
            if !allowed name then searchNames w value limit allowed target rest (seen + 1) found db
            else if limit ≤ found.items.length then (db, { found with truncated := true })
            else searchNames w value limit allowed target rest (seen + 1)
              { found with items := found.items ++ [.of name view] } db

/-- `walk` is the order the catalogue happens to be walked in. -/
def sightingsOf (db : Database) (w : World) (walk : List String → List String) (value : String) (limit : Nat)
    (allowed : String → Bool) : Database × Sightings :=
  let (db, target) := db.count w allNamespace value
  let names := (walk (db.listed true)).map (·, false) ++ (walk (db.listed false)).map (·, true)
  let (db, found) := searchNames w value limit allowed target names 0 .default db
  (db, { found with items := found.items.insertionSort (·.namespace_ ≤ ·.namespace_) })

end Database

namespace Contents

variable (c : Contents)

/-- A namespace that counts and stores a value, expired or not. -/
def Stores (value name : String) : Prop :=
  countsTowardsConsensus name = true ∧ (c.values name).contains value = true

/-- A namespace the search is after: it counts, the caller may see it, and it holds the value. -/
def Relates (now : DateTime) (allowed : String → Bool) (value name : String) : Prop :=
  countsTowardsConsensus name = true ∧ allowed name = true ∧
    ∃ a, (c.values name).get value = some a ∧ a.isExpired now = false

/-- What a look at a name answers, as the search keeps it. -/
def sighting (now : DateTime) (value name : String) : Option Sighting :=
  (c.view now name value 0 false).map (.of name)

variable {c} {now : DateTime} {allowed : String → Bool} {value name : String}

theorem view_isSome {consensus : Nat} {withStats : Bool} : (c.view now name value consensus withStats).isSome = true ↔
    ∃ a, (c.values name).get value = some a ∧ a.isExpired now = false := by
  simp only [view, values]
  cases c name with
  | none => simp
  | some vals =>
      simp only [Option.bind_some, Namespace.view, Option.getD_some]
      cases vals.get value with
      | none => simp
      | some a => cases expired : a.isExpired now <;> simp [expired]

theorem sighting_isSome : (c.sighting now value name).isSome = true ↔
    ∃ a, (c.values name).get value = some a ∧ a.isExpired now = false := by
  rw [sighting, Option.isSome_map, view_isSome]

theorem sighting_namespace {item : Sighting} (found : c.sighting now value name = some item) :
    item.namespace_ = name := by
  obtain ⟨view, -, rfl⟩ := Option.map_eq_some_iff.mp found
  rfl

/-- The names of what is shown are the names that relate. -/
theorem hits_names (l : List String) : (EarlyStop.hits (c.sighting now value) allowed l).map (·.namespace_) =
    l.filter fun name => allowed name && (c.sighting now value name).isSome := by
  induction l with
  | nil => rfl
  | cons name rest ih =>
      rw [EarlyStop.hits] at ih ⊢
      cases visible : allowed name with
      | false => simp [visible, ih]
      | true =>
          cases found : c.sighting now value name with
          | none => simp [visible, found, ih]
          | some item => simp [visible, found, ih, sighting_namespace found]

end Contents

/-! ## What a look finds -/

section Laid

/-- Memory and files fit together; without a store, everything is in memory. -/
structure Laid (names : ShardFiles) (dir : Dir) (db : Database) : Prop where
  fits : Consistent names dir (fun _ => True) { db with store := true }
  stored : db.store = true ∨ db.AllResident

variable {names : ShardFiles} {dir : Dir} {db : Database}

theorem Laid.consistent (laid : Laid names dir db) (stored : db.store = true) :
    Consistent names dir (fun _ => True) db := by
  obtain ⟨fits, -⟩ := laid
  rwa [← stored] at fits

theorem Consistent.laid (consistent : Consistent names dir (fun _ => True) db) : Laid names dir db := by
  refine ⟨?_, .inl consistent.store⟩
  rwa [← consistent.store]

/-- Fetching a namespace finds what is held there and leaves everything in its place. -/
theorem Laid.namespace_ (laid : Laid names dir db) (now : DateTime) (name : String) :
    Laid names dir (db.namespace_ (.sound names dir now) name).1 ∧
      held names dir (db.namespace_ (.sound names dir now) name).1 = held names dir db ∧
      (db.namespace_ (.sound names dir now) name).2.map (·.values) = held names dir db name := by
  rcases laid.stored with stored | resident
  · obtain ⟨looked, -, values⟩ := namespace_spec (laid.consistent stored) now name
    exact ⟨looked.consistent.laid, looked.held, values⟩
  · have keeps : db.Keeps db.node db.namespaces := ⟨resident, rfl, rfl⟩
    have touched := keeps.touch (w := .sound names dir now) (shardOf name)
    have same : ({ db.touch (.sound names dir now) (shardOf name) with store := true } : Database) =
        ({ db with store := true } : Database).touch (.sound names dir now) (shardOf name) := by
      simp only [Database.touch]
      split <;> rfl
    rw [keeps.namespace_]
    exact ⟨⟨same ▸ laid.fits.touch _ _, .inr touched.resident⟩, funext (held_touch _ _),
      (Database.held_resident resident name).symm⟩

theorem Laid.view (laid : Laid names dir db) (now : DateTime) (name value : String) :
    Laid names dir (db.view (.sound names dir now) name value 0 false).1 ∧
      held names dir (db.view (.sound names dir now) name value 0 false).1 = held names dir db ∧
      (db.view (.sound names dir now) name value 0 false).2 =
        Contents.view (held names dir db) now name value 0 false := by
  obtain ⟨after, same, values⟩ := laid.namespace_ now name
  simp only [Database.view, Contents.view, ← values]
  generalize db.namespace_ (.sound names dir now) name = fetched at after same ⊢
  obtain ⟨db₁, _ | ns⟩ := fetched <;> exact ⟨after, same, rfl⟩

theorem Laid.count (laid : Laid names dir db) (now : DateTime) (name value : String) :
    Laid names dir (db.count (.sound names dir now) name value).1 ∧
      held names dir (db.count (.sound names dir now) name value).1 = held names dir db := by
  obtain ⟨after, same, -⟩ := laid.namespace_ now name
  simp only [Database.count]
  generalize db.namespace_ (.sound names dir now) name = fetched at after same ⊢
  obtain ⟨db₁, _ | ns⟩ := fetched <;> exact ⟨after, same⟩

/-- On a database in order the search is one over what is held. -/
theorem Laid.searchNames {c : Contents} {now : DateTime} {value : String} {limit target : Nat}
    {allowed : String → Bool} {order : List (String × Bool)} {seen : Nat} {found : Sightings}
    (laid : Laid names dir db) (holds : held names dir db = c) (fresh : found.truncated = false) :
    let result := (Database.searchNames (.sound names dir now) value limit allowed target order seen found db).2
    (result.items, result.truncated) = EarlyStop.search (c.sighting now value) allowed target limit
      (order.map Prod.fst) seen found.items := by
  induction order generalizing db seen found with
  | nil => simp [Database.searchNames, EarlyStop.search, fresh]
  | cons next rest ih =>
      obtain ⟨name, fromDisk⟩ := next
      obtain ⟨after, same, answer⟩ := laid.view now name value
      have told : c.sighting now value name =
          (db.view (.sound names dir now) name value 0 false).2.map (.of name) := by
        rw [answer, holds, Contents.sighting]
      rw [List.map_cons, Database.searchNames, EarlyStop.search, told]
      by_cases done : 0 < target ∧ target ≤ seen
      · simp [done, fresh]
      rw [if_neg done, if_neg done]
      generalize db.view (.sound names dir now) name value 0 false = looked at after same ⊢
      obtain ⟨db₁, _ | view⟩ := looked
      · exact ih after (same.trans holds) fresh
      · dsimp only [Option.map_some]
        by_cases visible : allowed name = true
        · simp only [visible, Bool.not_true, Bool.false_eq_true, if_false]
          by_cases full : limit ≤ found.items.length
          · simp [full]
          · rw [if_neg full, if_neg full]
            exact ih after (same.trans holds) fresh
        · simp only [visible, Bool.not_false, if_true]
          exact ih after (same.trans holds) fresh

/-! ## The names searched -/

/-- A catalogued name is in the shard it is listed under. -/
theorem Laid.shardOf_listed (laid : Laid names dir db) {shard name : String} {meta_ : ShardMeta}
    (found : db.shards.get shard = some meta_) (listed : meta_.namespaces.contains name = true) :
    shardOf name = shard := by
  cases resident : meta_.resident with
  | true =>
      rw [laid.fits.listed shard meta_ found resident name] at listed
      simpa using (Bool.and_eq_true_iff.mp listed).2
  | false =>
      rw [(laid.fits.gone shard meta_ found resident).2.2 name, Option.isSome_iff_exists] at listed
      obtain ⟨vals, inFile⟩ := listed
      exact fileOf_own laid.fits (laid.fits.inPlay shard meta_ found) inFile

theorem mem_listed {resident : Bool} {name : String} : name ∈ db.listed resident ↔
    countsTowardsConsensus name = true ∧ ∃ shard meta_, db.shards.get shard = some meta_ ∧
      meta_.resident = resident ∧ meta_.namespaces.contains name = true := by
  simp only [Database.listed, List.mem_flatMap, List.mem_filter, Prod.exists, OrderedMap.mem_entries,
    OrderedMap.mem_keys, decide_eq_true_eq, OrderedMap.contains_iff]
  constructor
  · rintro ⟨shard, meta_, ⟨found, side⟩, listed, counts⟩
    exact ⟨counts, shard, meta_, found, side, listed⟩
  · rintro ⟨counts, shard, meta_, found, side, listed⟩
    exact ⟨shard, meta_, ⟨found, side⟩, listed, counts⟩

theorem Laid.listed_nodup (laid : Laid names dir db) (resident : Bool) : (db.listed resident).Nodup := by
  refine List.nodup_flatMap.mpr ⟨fun e _ => (OrderedMap.keys_nodup _).filter _, ?_⟩
  have distinct : db.shards.entries.Pairwise fun e e' => e.1 ≠ e'.1 :=
    db.shards.sorted.imp fun below => ne_of_lt below
  refine ((List.Pairwise.and_mem.mp distinct).imp ?_).filter _
  rintro ⟨shard, meta_⟩ ⟨shard', meta_'⟩ ⟨mem, mem', apart⟩ name listed listed'
  have here := laid.shardOf_listed (OrderedMap.mem_entries.mp mem)
    (OrderedMap.contains_iff.mpr (OrderedMap.mem_keys.mp (List.mem_of_mem_filter listed)))
  have there := laid.shardOf_listed (OrderedMap.mem_entries.mp mem')
    (OrderedMap.contains_iff.mpr (OrderedMap.mem_keys.mp (List.mem_of_mem_filter listed')))
  exact apart (here.symm.trans there)

/-- Every name that is held and counts is searched, in one of the two passes. -/
theorem Laid.mem_names (laid : Laid names dir db) {name : String} :
    name ∈ db.listed true ++ db.listed false ↔
      countsTowardsConsensus name = true ∧ (held names dir db name).isSome = true := by
  rw [List.mem_append, mem_listed, mem_listed, ← and_or_left, and_congr_right_iff]
  intro _
  have exists_ := namespaceExists_reads laid.fits name
  have same : held names dir { db with store := true } name = held names dir db name := rfl
  rw [← same, ← exists_, Database.namespaceExists]
  constructor
  · rintro (⟨shard, meta_, found, -, listed⟩ | ⟨shard, meta_, found, -, listed⟩)
    all_goals
      obtain rfl := laid.shardOf_listed found listed
      simp [found, listed]
  · intro known
    rw [← exists_or]
    refine ⟨shardOf name, ?_⟩
    rw [← exists_or]
    rcases Bool.or_eq_true_iff.mp known with here | listed
    · obtain ⟨meta_, found, resident⟩ := laid.fits.known name here
      refine ⟨meta_, .inl ⟨found, resident, ?_⟩⟩
      rw [laid.fits.listed _ meta_ found resident name, here]
      simp
    · cases found : db.shards.get (shardOf name) with
      | none => simp [found] at listed
      | some meta_ =>
          refine ⟨meta_, ?_⟩
          cases resident : meta_.resident with
          | true => exact .inl ⟨rfl, rfl, by simpa [found] using listed⟩
          | false => exact .inr ⟨rfl, rfl, by simpa [found] using listed⟩

theorem Laid.names_nodup (laid : Laid names dir db) : (db.listed true ++ db.listed false).Nodup := by
  refine (laid.listed_nodup true).append (laid.listed_nodup false) fun name here there => ?_
  obtain ⟨-, shard, meta_, found, resident, listed⟩ := mem_listed.mp here
  obtain ⟨-, shard', meta_', found', evicted, listed'⟩ := mem_listed.mp there
  obtain rfl := (laid.shardOf_listed found listed).symm.trans (laid.shardOf_listed found' listed')
  rw [found, Option.some.injEq] at found'
  rw [← found', resident] at evicted
  cases evicted

end Laid

/-! ## The search -/

theorem encard_list {α : Type*} [DecidableEq α] {l : List α} (nodup : l.Nodup) : {a | a ∈ l}.encard = l.length := by
  have same : {a | a ∈ l} = (l.toFinset : Set α) := by
    ext a
    simp
  rw [same, Set.encard_coe_eq_coe_finsetCard, List.toFinset_card_of_nodup nodup]

section Search

variable {names : ShardFiles} {dir : Dir} {db : Database} {now : DateTime} {walk : List String → List String}
  {value : String} {limit : Nat} {allowed : String → Bool}

theorem sightingsOf_sorted (db : Database) (w : World) (walk : List String → List String) (value : String) (limit : Nat)
    (allowed : String → Bool) :
    (db.sightingsOf w walk value limit allowed).2.items.Pairwise (·.namespace_ ≤ ·.namespace_) :=
  have : Std.Total fun a b : Sighting => a.namespace_ ≤ b.namespace_ := ⟨fun a b => le_total a.namespace_ b.namespace_⟩
  have : IsTrans Sighting fun a b => a.namespace_ ≤ b.namespace_ := ⟨fun _ _ _ => le_trans⟩
  List.pairwise_insertionSort _ _

/-- Holders are namespaces that store the value: a tally that covers these covers those. -/
theorem holders_accounted {c : Contents} {l : List String} {target : Nat} (nodup : l.Nodup)
    (counts : ∀ name ∈ l, countsTowardsConsensus name = true)
    (accounted : {name | c.Stores value name}.encard ≤ target) :
    l.countP (fun name => (c.sighting now value name).isSome) ≤ target := by
  have stored : {name | name ∈ l.filter fun name => (c.sighting now value name).isSome} ⊆
      {name | c.Stores value name} := by
    intro name holder
    obtain ⟨member, found⟩ := List.mem_filter.mp holder
    obtain ⟨a, entry, -⟩ := Contents.sighting_isSome.mp found
    exact ⟨counts name member, OrderedMap.contains_iff.mpr ⟨a, entry⟩⟩
  have covered := (Set.encard_le_encard stored).trans accounted
  rw [encard_list (nodup.filter _), ← List.countP_eq_length_filter] at covered
  exact_mod_cast covered

/-- The search shows the first of the names that relate, and is cut when they are more than the limit. -/
theorem sightingsOf_names (laid : Laid names dir db) (walks : ∀ l, (walk l).Perm l)
    (accounted : {name | Contents.Stores (held names dir db) value name}.encard ≤
      (db.count (.sound names dir now) allNamespace value).2) :
    ∃ related : List String, related.Nodup ∧
      (∀ name, name ∈ related ↔ Contents.Relates (held names dir db) now allowed value name) ∧
      ((db.sightingsOf (.sound names dir now) walk value limit allowed).2.items.map (·.namespace_)).Perm
        (related.take limit) ∧
      (db.sightingsOf (.sound names dir now) walk value limit allowed).2.truncated = decide (limit < related.length) := by
  obtain ⟨laid₁, same⟩ := laid.count now allNamespace value
  simp only [Database.sightingsOf]
  generalize db.count (.sound names dir now) allNamespace value = counted at accounted laid₁ same ⊢
  obtain ⟨db₁, target⟩ := counted
  dsimp only at accounted laid₁ same ⊢
  set c : Contents := held names dir db with holds
  set order := (walk (db₁.listed true)).map (·, false) ++ (walk (db₁.listed false)).map (·, true) with ordered
  have perm : (order.map Prod.fst).Perm (db₁.listed true ++ db₁.listed false) := by
    simp only [ordered, List.map_append, List.map_map, Function.comp_def, List.map_id']
    exact (walks _).append (walks _)
  have nodup : (order.map Prod.fst).Nodup := perm.nodup_iff.mpr laid₁.names_nodup
  have mem (name : String) : name ∈ order.map Prod.fst ↔ countsTowardsConsensus name = true ∧ (c name).isSome = true := by
    rw [perm.mem_iff, laid₁.mem_names, same]
  have holders := @holders_accounted now value c _ target nodup (fun name member => ((mem name).mp member).1) accounted
  have searched := @Laid.searchNames names dir db₁ c now value limit target allowed order 0 .default laid₁ same rfl
  rw [EarlyStop.search_eq (by simpa using holders) (Nat.zero_le _), Prod.mk.injEq] at searched
  obtain ⟨items, truncated⟩ := searched
  refine ⟨_, nodup.filter fun name => allowed name && (c.sighting now value name).isSome, fun name => ?_, ?_, ?_⟩
  · rw [List.mem_filter, mem, Bool.and_eq_true, Contents.sighting_isSome, Contents.Relates]
    constructor
    · rintro ⟨⟨counts, -⟩, visible, live⟩
      exact ⟨counts, visible, live⟩
    · rintro ⟨counts, visible, a, entry, live⟩
      refine ⟨⟨counts, ?_⟩, visible, a, entry, live⟩
      cases present : c name with
      | none => simp [Contents.values, present] at entry
      | some vals => rfl
  · rw [← Contents.hits_names, ← List.map_take]
    refine ((List.perm_insertionSort _ _).trans ?_).map _
    rw [items]
    simp [Sightings.default]
  · rw [truncated, ← Contents.hits_names, List.length_map]
    simp [Sightings.default]

/-- The relationship search finds everything: it lists, in order and once each, namespaces that
count, are visible and hold the value; all of them unless it says that it was cut; and it says
so exactly when they are more than the limit. -/
theorem sightings_of_finds (laid : Laid names dir db) (walks : ∀ l, (walk l).Perm l)
    (accounted : {name | Contents.Stores (held names dir db) value name}.encard ≤
      (db.count (.sound names dir now) allNamespace value).2) :
    let found := (db.sightingsOf (.sound names dir now) walk value limit allowed).2
    let relates := Contents.Relates (held names dir db) now allowed value
    found.items.Pairwise (·.namespace_ < ·.namespace_) ∧
      (∀ item ∈ found.items, relates item.namespace_) ∧
      (found.truncated = false → ∀ name, relates name → ∃ item ∈ found.items, item.namespace_ = name) ∧
      (found.truncated = true ↔ limit < {name | relates name}.encard) := by
  obtain ⟨related, nodup, mem, perm, truncated⟩ :=
    @sightingsOf_names names dir db now walk value limit allowed laid walks accounted
  dsimp only
  refine ⟨?_, fun item member => ?_, fun whole name relates => ?_, ?_⟩
  · have below := (sightingsOf_sorted db (.sound names dir now) walk value limit allowed)
    have once := List.pairwise_map.mp (perm.nodup_iff.mpr (nodup.sublist (List.take_sublist _ _)))
    exact below.imp₂ (fun _ _ le ne => lt_of_le_of_ne le ne) once
  · refine (mem _).mp (List.mem_of_mem_take (perm.mem_iff.mp ?_))
    exact List.mem_map_of_mem member
  · rw [whole, eq_comm, decide_eq_false_iff_not, Nat.not_lt] at truncated
    rw [List.take_of_length_le truncated] at perm
    exact List.mem_map.mp (perm.mem_iff.mpr ((mem name).mpr relates))
  · have same : {name | Contents.Relates (held names dir db) now allowed value name} = {name | name ∈ related} := by
      ext name
      exact (mem name).symm
    rw [truncated, decide_eq_true_eq, same, encard_list nodup]
    exact Nat.cast_lt.symm

theorem stores_le_listed (laid : Laid names dir db) (value : String) :
    {name | Contents.Stores (held names dir db) value name}.encard ≤
      ((db.listed true ++ db.listed false).length : ℕ∞) := by
  rw [← encard_list laid.names_nodup]
  refine Set.encard_le_encard fun name stores => laid.mem_names.mpr ⟨stores.1, ?_⟩
  have stored := stores.2
  cases present : held names dir db name with
  | none => simp [Contents.values, present, OrderedMap.contains] at stored
  | some vals => rfl

end Search

/-! ## One value in two shards, one of them evicted -/

def twoShards : ShardFiles where
  digest shard := if shard = "a" then 1 else if shard = "b" then 2 else 0
  used shard := shard = internalShard ∨ shard = "a" ∨ shard = "b"
  internal := .inl rfl
  apart := by
    rintro s t (rfl | rfl | rfl) (rfl | rfl | rfl) same <;> first | rfl | exact absurd same (by decide)

def sightedTimes (n : Nat) : Values :=
  OrderedMap.empty.insert "v" { Attribute.new "v" with counts := OrderedMap.empty.insert "local" n }

def sightedDir : Dir where
  legacy := none
  files := ((OrderedMap.empty.insert (twoShards.file internalShard)
    ⟨2, OrderedMap.empty.insert allNamespace (sightedTimes 2)⟩).insert (twoShards.file "a")
      ⟨2, OrderedMap.empty.insert "a/x" (sightedTimes 3)⟩).insert (twoShards.file "b")
        ⟨2, OrderedMap.empty.insert "b/y" (sightedTimes 5)⟩

theorem sightedDir_own : OwnFiles twoShards sightedDir := by
  rintro shard snap name vals (rfl | rfl | rfl) file found
  all_goals
    obtain rfl := Option.some.inj file
    rw [OrderedMap.get_insert] at found
    split_ifs at found with same
    · rw [same]
      decide
    · cases found

/-- The server that started from these files. -/
def sightedServer : Database :=
  ((restart sightedDir ⟨0, 0⟩ .storeEverything "local" .unixEpoch).toOption.getD
    (.withNode ⟨0, 0⟩ .storeEverything "local")).attachStore .default

/-- One shard has been evicted since. -/
def splitServer : Database := sightedServer.dropShard "b"

theorem splitServer_laid : Laid twoShards sightedDir splitServer := by
  have shard : ∀ f, sightedDir.files.contains f = true → ∃ s, twoShards.used s ∧ f = twoShards.file s := by
    intro f present
    simp only [sightedDir, OrderedMap.contains, OrderedMap.get_insert] at present
    split_ifs at present with b a internal
    · exact ⟨"b", .inr (.inr rfl), b⟩
    · exact ⟨"a", .inr (.inl rfl), a⟩
    · exact ⟨internalShard, .inl rfl, internal⟩
    · cases present
  have versions : ∀ f snap, sightedDir.files.get f = some snap → checkVersion snap.version = .ok () := by
    intro f snap found
    simp only [sightedDir, OrderedMap.get_insert] at found
    split_ifs at found
    all_goals first | (obtain rfl := Option.some.inj found; rfl) | cases found
  obtain ⟨data, loaded, get⟩ := load_over shard sightedDir_own versions (by rintro _ ⟨⟩)
  have restarted : sightedServer = (data.elim (Database.withNode ⟨0, 0⟩ .storeEverything "local")
      (.fromSnapshotAs · ⟨0, 0⟩ .storeEverything "local" .unixEpoch)).attachStore .default := by
    rw [sightedServer, restart, loaded]
    cases data <;> rfl
  have fileOf_get (name : String) : (data.elim ∅ (·.namespaces)).get name =
      (fileOf twoShards sightedDir (shardOf name)).get name := by
    rw [get]
    exact Option.or_none
  have consistent : Consistent twoShards sightedDir (fun _ => False) sightedServer := by
    rw [restarted]
    refine started_consistent loaded sightedDir_own (fun name vals found => ?_) (fun name _ => fileOf_get name) _ _ _ _ _
    rw [fileOf_get, fileOf] at found
    cases file : sightedDir.files.get (twoShards.file (shardOf name)) with
    | none => simp [file] at found
    | some snap =>
        obtain ⟨s, used, same⟩ := shard _ (OrderedMap.contains_iff.mpr ⟨snap, file⟩)
        rw [file] at found
        rw [sightedDir_own s snap name vals used (same ▸ file) found]
        exact used
  have found : sightedServer.shards.get "b" = some ⟨OrderedMap.empty.insert "b/y" (), true, 0⟩ := by decide +kernel
  exact ((dropShard_spec consistent found rfl (by decide +kernel) id (by decide)).1.weaken fun _ => False.elim).laid

/-- With room for both the search reads the evicted shard back, and with room for one it says
that there is more. -/
theorem sightings_of_finds_split :
    (splitServer.sightingsOf (.sound twoShards sightedDir .unixEpoch) id "v" 2 fun _ => true).2 =
        ⟨[⟨"a/x", "a", 3, 0, 0⟩, ⟨"b/y", "b", 5, 0, 0⟩], false, true⟩ ∧
      (∀ name, Contents.Relates (held twoShards sightedDir splitServer) .unixEpoch (fun _ => true) "v" name →
        name = "a/x" ∨ name = "b/y") ∧
      1 < {name | Contents.Relates (held twoShards sightedDir splitServer) .unixEpoch (fun _ => true) "v" name}.encard := by
  have finds := fun limit => @sightings_of_finds twoShards sightedDir splitServer .unixEpoch id "v" limit
    (fun _ => true) splitServer_laid (fun l => .refl l) ((stores_le_listed splitServer_laid "v").trans (by
      rw [Nat.cast_le]
      decide +kernel))
  have both : (splitServer.sightingsOf (.sound twoShards sightedDir .unixEpoch) id "v" 2 fun _ => true).2 =
      ⟨[⟨"a/x", "a", 3, 0, 0⟩, ⟨"b/y", "b", 5, 0, 0⟩], false, true⟩ := by decide +kernel
  refine ⟨both, fun name relates => ?_, (finds 1).2.2.2.mp (by decide +kernel)⟩
  obtain ⟨item, member, rfl⟩ := (finds 2).2.2.1 (by rw [both]) name relates
  rw [both] at member
  simp only [List.mem_cons, List.not_mem_nil, or_false] at member
  rcases member with rfl | rfl
  · exact .inl rfl
  · exact .inr rfl

end SightingDB
