import SightingDB.Store
import SightingDB.AttributeMerge

/-!
What the database holds, with memory and files forgotten, and what each operation does to
it. The operations of the store are shown to do exactly that, wherever the data is, and to
leave every shard in memory either marked or as its file says.
-/
namespace SightingDB

/-- What is held under each name. -/
abbrev Contents := String → Option Values

/-- Give back one count, dropping the entry when nothing remains. -/
def releaseIn (node value : String) (vals : Values) : Values :=
  match vals.get value with
  | none => vals
  | some a =>
      if (a.decrement node).2 = 0 then vals.erase value else vals.insert value (a.decrement node).1

theorem Namespace.release_values (ns : Namespace) (node value : String) :
    (ns.release node value).values = releaseIn node value ns.values := by
  simp only [Namespace.release, releaseIn]
  cases ns.values.get value with
  | none => rfl
  | some a =>
      dsimp only
      split <;> rfl

namespace Contents

variable (c : Contents)

def values (name : String) : Values := (c name).getD ∅

def cell (path value : String) : Attribute := ((c.values path).get value).getD (.new value)

def put (path : String) (vals : Values) : Contents := fun k => if k = path then some vals else c k

/-- Count a sighting in one namespace. -/
def record (origin path value : String) (when : DateTime) (ttl : Option Nat) (retention : Nat)
    (tags : String) : Contents :=
  c.put path ((c.values path).insert value ((c.cell path value).sighted origin when ttl retention tags))

/-- Count one more namespace for a value. -/
def tallyUp (node : String) (retention : Nat) (when : DateTime) (value : String) : Contents :=
  c.record node allNamespace value when none retention ""

/-- A sighting, and the tally it may raise. -/
def write (node : String) (retention : Nat) (origin path value : String) (when : DateTime)
    (consensus : Bool) (ttl : Option Nat) (tags : String) : Contents :=
  let c' := c.record origin path value when ttl retention tags
  if consensus && !(c.values path).contains value then c'.tallyUp node retention when value else c'

def merge (node : String) (retention : Nat) (now : DateTime) (path value : String) (incoming : Merge) :
    Contents :=
  let c' := c.put path ((c.values path).insert value ((c.cell path value).merge incoming node).1)
  if !(c.values path).contains value && countsTowardsConsensus path then
    c'.tallyUp node retention now value
  else c'

/-- Replace the tags of a value that is there. -/
def setTags (now : DateTime) (path value tags : String) : Contents :=
  match (c.values path).get value with
  | none => c
  | some a =>
      if a.isExpired now then c
      else c.put path ((c.values path).insert value (a.setTags tags now.timestampMillis))

def remove (name : String) : Contents := fun k => if k = name then none else c k

def release (node value : String) : Contents :=
  match c allNamespace with
  | none => c
  | some all => c.put allNamespace (releaseIn node value all)

def releaseAll (node : String) (values : List String) : Contents :=
  values.foldl (fun c value => c.release node value) c

def delete (node name : String) : Contents :=
  match c name with
  | none => c
  | some vals =>
      if countsTowardsConsensus name then (c.remove name).releaseAll node vals.keys else c.remove name

/-! ### Answers, which depend on nothing but the values -/

def view (now : DateTime) (path value : String) (consensus : Nat) (withStats : Bool) :
    Option AttributeView :=
  (c path).bind fun vals => (⟨vals, false⟩ : Namespace).view value consensus withStats now

def count (now : DateTime) (path value : String) : Nat :=
  (c path).elim 0 fun vals => (⟨vals, false⟩ : Namespace).count value now

def mergePage (now : DateTime) (path : String) (offset limit : Nat) : Option (Page (String × Merge)) :=
  (c path).map fun vals => (⟨vals, false⟩ : Namespace).mergePage offset limit now

def namespaceViews (now : DateTime) (name : String) : Option (List AttributeView) :=
  (c name).map fun vals => ((⟨vals, false⟩ : Namespace).allViews false now).map fun v =>
    { v with consensus := c.count now allNamespace v.value }

def valueCount (name : String) : Option Nat := (c name).map (·.size)

end Contents

/-- What an operation does that leaves the files alone: `f` to the contents. It may mark
shards and bring shards back, never the reverse. -/
structure Does (names : ShardFiles) (dir : Dir) (exempt : String → Prop) (f : Contents → Contents)
    (db db' : Database) : Prop where
  consistent : Consistent names dir exempt db'
  node : db'.node = db.node
  policy : db'.policy = db.policy
  held : held names dir db' = f (held names dir db)
  marked : ∀ shard, db.dirty.contains shard = true → db'.dirty.contains shard = true
  stays : ∀ shard, db.evicted shard = false → db'.evicted shard = false

section

variable {names : ShardFiles} {dir : Dir} {db db' db'' : Database} {exempt exempt' : String → Prop}
  {f g : Contents → Contents} {now : DateTime}

theorem Looks.does (looked : Looks names dir exempt db db') : Does names dir exempt id db db' :=
  ⟨looked.consistent, looked.node, looked.policy, looked.held, fun _ => by rw [looked.dirty]; exact id,
    looked.stays⟩

theorem Does.trans (first : Does names dir exempt f db db') (second : Does names dir exempt' g db' db'') :
    Does names dir exempt' (g ∘ f) db db'' :=
  ⟨second.consistent, second.node.trans first.node, second.policy.trans first.policy,
    by rw [second.held, first.held, Function.comp_apply],
    fun shard before => second.marked shard (first.marked shard before),
    fun shard here => second.stays shard (first.stays shard here)⟩

theorem Does.congr (done : Does names dir exempt f db db')
    (same : f (SightingDB.held names dir db) = g (SightingDB.held names dir db)) :
    Does names dir exempt g db db' :=
  { done with held := done.held.trans same }

/-- A shard that is marked needs no exemption. -/
theorem Consistent.of_dirty {shard : String}
    (consistent : Consistent names dir (fun s => exempt s ∨ s = shard) db)
    (dirty : db.dirty.contains shard = true) : Consistent names dir exempt db :=
  { consistent with
    clean := by
      intro s used notExempt clean
      refine consistent.clean s used (not_or.mpr ⟨notExempt, ?_⟩) clean
      rintro rfl
      rw [dirty] at clean
      cases clean }

theorem Consistent.of_exempt {shard : String}
    (consistent : Consistent names dir (fun s => exempt s ∨ s = shard) db) (free : exempt shard) :
    Consistent names dir exempt db :=
  consistent.weaken fun _ either => either.elim id fun same => same ▸ free

/-- Marking the shard of a namespace that has just been worked on. -/
theorem Does.markDirty {name : String}
    (done : Does names dir (fun shard => exempt shard ∨ shard = shardOf name) f db db')
    (here : db'.evicted (shardOf name) = false) (used : names.used (shardOf name)) :
    Does names dir exempt f db (db'.markDirty name) where
  consistent := done.consistent.markDirty here used
  node := done.node
  policy := done.policy
  held := done.held
  marked shard before := by
    have kept := done.marked shard before
    by_cases same : shard = shardOf name
    · simp [Database.markDirty, Database.markShardDirty, OrderedMap.contains, same]
    · simpa [Database.markDirty, Database.markShardDirty, OrderedMap.contains, OrderedMap.get_insert,
        same] using kept
  stays := done.stays

/-- Fetching a namespace and writing it back changed. -/
theorem Does.put (consistent : Consistent names dir exempt db) {name : String}
    (present : db.namespaces.contains name = true) (ns : Namespace) :
    Does names dir (fun shard => exempt shard ∨ shard = shardOf name) (·.put name ns.values) db
      (db.put name ns) where
  consistent := consistent.put present ns
  node := rfl
  policy := rfl
  held := funext (held_put name ns)
  marked _ := id
  stays _ := id

/-- Writing back what was there is harmless. -/
theorem Consistent.put_same (consistent : Consistent names dir exempt db) {name : String}
    {ns ns' : Namespace} (found : db.namespaces.get name = some ns) (same : ns'.values = ns.values) :
    Consistent names dir exempt (db.put name ns') := by
  have stored := consistent.put (OrderedMap.contains_iff.mpr ⟨ns, found⟩) ns'
  refine { stored with clean := ?_ }
  intro shard used notExempt clean here k mine
  have before := consistent.clean shard used notExempt clean here k mine
  by_cases isName : k = name
  · subst isName
    simpa [Database.put, same, found] using before
  · simpa [Database.put, OrderedMap.get_insert, isName] using before

theorem Contents.put_self {c : Contents} {name : String} {vals : Values} (found : c name = some vals) :
    c.put name vals = c := by
  funext k
  by_cases same : k = name <;> simp [Contents.put, same, found]

end

/-! ## Sightings -/

section Sightings

variable {names : ShardFiles} {dir : Dir} {db : Database} {exempt : String → Prop} {now : DateTime}

theorem Opens.here {name : String} {db' : Database} {ns : Namespace}
    (opened : Opens names dir exempt db name db' ns) : db'.evicted (shardOf name) = false :=
  opened.consistent.evicted_of_present (OrderedMap.contains_iff.mpr ⟨ns, opened.handle⟩)

/-- Opening a namespace and writing it back changed. -/
theorem Opens.put {name : String} {db' : Database} {ns : Namespace}
    (opened : Opens names dir exempt db name db' ns) (ns' : Namespace) :
    Does names dir (fun shard => exempt shard ∨ shard = shardOf name) (·.put name ns'.values) db
      (db'.put name ns') where
  consistent :=
    (opened.consistent.put (OrderedMap.contains_iff.mpr ⟨ns, opened.handle⟩) ns').weaken fun _ either =>
      either.elim id .inr
  node := opened.node
  policy := opened.policy
  held := by
    funext k
    rw [held_put, opened.held]
    by_cases same : k = name <;> simp [Contents.put, same]
  marked shard before := by
    rw [← opened.dirty] at before
    exact before
  stays := opened.stays

theorem Opens.contents {name : String} {db' : Database} {ns : Namespace}
    (opened : Opens names dir exempt db name db' ns) : ns.values = Contents.values (SightingDB.held names dir db) name :=
  opened.values

theorem recordIn_does (consistent : Consistent names dir exempt db) (now : DateTime) {path : String}
    (used : names.used (shardOf path)) (origin value : String) (when : DateTime) (ttl : Option Nat) (tags : String) :
    Does names dir (fun shard => exempt shard ∨ shard = shardOf path)
        (·.record origin path value when ttl db.policy.statsRetention tags) db
        (db.recordIn (.sound names dir now) origin path value when ttl tags).1 ∧
      (db.recordIn (.sound names dir now) origin path value when ttl tags).1.evicted (shardOf path) = false ∧
      (db.recordIn (.sound names dir now) origin path value when ttl tags).2.new =
        !(Contents.values (held names dir db) path).contains value := by
  have opened := namespaceOrCreate_spec consistent now used
  have stored := opened.put ((db.namespaceOrCreate (.sound names dir now) path).2.record origin value when
    ttl (db.namespaceOrCreate (.sound names dir now) path).1.policy.statsRetention tags).1
  refine ⟨stored.congr ?_, ?_, ?_⟩
  · simp only [Namespace.record_values, opened.contents, opened.policy, Contents.record, Contents.cell,
      Namespace.cell]
  · exact opened.here
  · simp only [Database.recordIn, Namespace.record_isNew, opened.contents]

/-- The tail of a write marks the shard it wrote to. -/
theorem logged_does {path : String}
    (consistent : Consistent names dir (fun shard => exempt shard ∨ shard = shardOf path) db)
    (here : db.evicted (shardOf path) = false) (used : names.used (shardOf path)) (now : DateTime)
    (value : String) : Does names dir exempt id db (db.logged (.sound names dir now) path value) := by
  have counted := count_looks consistent now allNamespace value
  exact counted.does.markDirty (counted.stays _ here) used

theorem writePlain_does (consistent : Consistent names dir exempt db) (now : DateTime) {path : String}
    (used : names.used (shardOf path)) (value : String) (when : DateTime) (ttl : Option Nat) :
    Does names dir exempt (·.record db.node path value when ttl db.policy.statsRetention "") db
      (db.writePlain (.sound names dir now) path value when ttl) := by
  obtain ⟨recorded, here, _⟩ := recordIn_does consistent now used db.node value when ttl ""
  exact recorded.trans (logged_does recorded.consistent here used now value)

/-- Counting one more namespace for a value. -/
theorem tally_does (consistent : Consistent names dir exempt db) (now when : DateTime) (value : String) :
    Does names dir exempt (·.tallyUp db.node db.policy.statsRetention when value) db
      (db.writePlain (.sound names dir now) allNamespace value when none) := by
  refine writePlain_does consistent now ?_ value when none
  rw [shardOf_all]
  exact names.internal

theorem write_default (db : Database) (w : World) (value : String) (when : DateTime) :
    db.write w allNamespace value when .default = db.writePlain w allNamespace value when none := by
  simp only [Database.write, Database.recordWrite, Database.writePlain, Database.ttlOf_all]
  simp only [WriteOpts.default, Bool.false_and, Bool.false_eq_true, if_false]

theorem recordWrite_does (consistent : Consistent names dir exempt db) (now : DateTime) {path : String}
    (used : names.used (shardOf path)) (origin value : String) (when : DateTime) (opts : WriteOpts) (tags : String) :
    Does names dir exempt
      (·.write db.node db.policy.statsRetention origin path value when opts.consensus (db.ttlOf path opts)
        tags) db
      (db.recordWrite (.sound names dir now) origin path value when opts tags).1 := by
  obtain ⟨recorded, here, isNew⟩ :=
    recordIn_does consistent now used origin value when (db.ttlOf path opts) tags
  simp only [Database.recordWrite, isNew, Database.ttlOf_all]
  split_ifs with tallied
  · have raised := tally_does recorded.consistent now when value
    have done := (recorded.trans raised).trans
      (logged_does raised.consistent (raised.stays _ here) used now value)
    refine done.congr ?_
    simp only [Contents.write, Function.comp_apply, id, tallied, if_true, recorded.node, recorded.policy]
  · refine (recorded.trans (logged_does recorded.consistent here used now value)).congr ?_
    simp only [Contents.write, Function.comp_apply, id, tallied, Bool.false_eq_true, if_false]

end Sightings

/-! ## Merging -/

namespace Attribute

/-- What a merge reports: a number of another server above ours, an edge of the seen window
that moves, tags or a lifetime that replace ours. -/
inductive News (a : Attribute) (p : Merge) (mine : String) : Prop
  | count {server : String} {n : Nat} (other : server ≠ mine) (found : p.counts.get server = some n)
      (above : (a.counts.get server).getD 0 < n)
  | bucket {server : String} {buckets : Buckets} {hour : Int} {n : Nat} (other : server ≠ mine)
      (found : p.stats.get server = some buckets) (entry : buckets.get hour = some n)
      (above : (((a.stats.get server).getD ∅).get hour).getD 0 < n)
  | first {t : DateTime} (known : DateTime.fromTimestamp p.firstSeen = some t)
      (moves : if a.unseen then t ≠ a.firstSeen else t < a.firstSeen)
  | last {t : DateTime} (known : DateTime.fromTimestamp p.lastSeen = some t)
      (moves : if a.unseen then t ≠ a.lastSeen else a.lastSeen < t)
  | replaced (later : a.tagsAt < p.tagsAt) (differ : p.tags ≠ a.tags)
  | added (tie : a.tagsAt = p.tagsAt) (some : p.tags ≠ "") (differ : unionTags a.tags p.tags ≠ a.tags)
  | lifetime (some : p.ttl ≠ 0) (shorter : a.ttl = 0 ∨ p.ttl < a.ttl)

/-- A payload that has nothing to add besides what a merge reports: no entry of another
server that is not here already, and no later replacement of the tags. -/
structure Knows (a : Attribute) (p : Merge) (mine : String) : Prop where
  counts : p.counts.erase mine ≤ a.counts
  stats : p.stats.erase mine ≤ a.stats
  tagsAt : p.tagsAt ≤ a.tagsAt

theorem raises_of_above {κ : Type} [LinearOrder κ] {ours theirs : OrderedMap κ Nat} {k : κ} {n : Nat}
    (found : theirs.get k = some n) (above : (ours.get k).getD 0 < n) : raises ours theirs = true :=
  List.any_eq_true.mpr ⟨(k, n), OrderedMap.mem_entries.mpr found, by simpa using above⟩

variable {a : Attribute} {p : Merge} {mine : String}

theorem News.changed (news : a.News p mine) : (a.merge p mine).2.changed = true := by
  rw [merge_changed]
  cases news with
  | @count server n other found above =>
      have kept : (p.counts.erase mine).get server = some n := by
        rw [OrderedMap.get_erase, if_neg other, found]
      simp [raises_of_above kept above]
  | @bucket server buckets hour n other found entry above =>
      have kept : (p.stats.erase mine).get server = some buckets := by
        rw [OrderedMap.get_erase, if_neg other, found]
      have raised : raisesStats a.stats (p.stats.erase mine) = true :=
        List.any_eq_true.mpr ⟨(server, buckets), OrderedMap.mem_entries.mpr kept, raises_of_above entry above⟩
      simp [raised]
  | @first t known moves =>
      have moved : firstEdge a.unseen a.firstSeen (DateTime.fromTimestamp p.firstSeen) ≠ a.firstSeen := by
        rw [known, firstEdge, Option.elim_some]
        split_ifs at moves ⊢
        · exact moves
        · exact fun same => absurd (min_eq_left_iff.mp same) (not_le.mpr moves)
      simp [moved]
  | @last t known moves =>
      have moved : lastEdge a.unseen a.lastSeen (DateTime.fromTimestamp p.lastSeen) ≠ a.lastSeen := by
        rw [known, lastEdge, Option.elim_some]
        split_ifs at moves ⊢
        · exact moves
        · exact fun same => absurd (max_eq_left_iff.mp same) (not_le.mpr moves)
      simp [moved]
  | replaced later differ =>
      have tags : (a.merge p mine).1.tags = p.tags := by simp [merge, mergeTags, later]
      simp [tags, differ]
  | added tie some differ =>
      have tags : (a.merge p mine).1.tags = unionTags a.tags p.tags := by
        simp [merge, mergeTags, tie, some, addTags]
      simp [tags, differ]
  | lifetime some shorter =>
      have moved : mergeTtl a.ttl p.ttl ≠ a.ttl := by
        simp only [mergeTtl]
        split_ifs <;> omega
      simp [moved]

/-- A merge that reports nothing leaves a value alone that knows the payload already. -/
theorem Knows.unchanged (knows : a.Knows p mine) (silent : (a.merge p mine).2.changed = false) :
    (a.merge p mine).1 = a := by
  rw [merge_changed] at silent
  simp only [Bool.or_eq_false_iff, decide_eq_false_iff_not, not_not] at silent
  obtain ⟨⟨⟨⟨_, first⟩, last⟩, tags⟩, ttl⟩ := silent
  have counts : (a.merge p mine).1.counts = a.counts := by rw [merge_counts, sup_eq_left.mpr knows.counts]
  have stats : (a.merge p mine).1.stats = a.stats := by rw [merge_stats, sup_eq_left.mpr knows.stats]
  have tagsAt : (a.merge p mine).1.tagsAt = a.tagsAt := by rw [merge_tagsAt, max_eq_left knows.tagsAt]
  exact Attribute.ext (merge_value a p mine) first last counts tags tagsAt ttl stats
    (merge_legacyCount a p mine) (merge_legacyStats a p mine)

end Attribute

section Merging

variable {names : ShardFiles} {dir : Dir} {db : Database} {exempt : String → Prop} {now : DateTime}

/-- A merge that cannot change anything without marking the shard. -/
def Heard (names : ShardFiles) (dir : Dir) (db : Database) (path value : String) (incoming : Merge) : Prop :=
  let c : Contents := held names dir db
  db.dirty.contains (shardOf path) = true ∨ (c.cell path value).News incoming db.node ∨
    ((c.values path).contains value = true ∧ (c.cell path value).Knows incoming db.node)

theorem merge_does (consistent : Consistent names dir exempt db) (now : DateTime) {path : String}
    (used : names.used (shardOf path)) {value : String} {incoming : Merge}
    (heard : exempt (shardOf path) ∨ Heard names dir db path value incoming) :
    Does names dir exempt (·.merge db.node db.policy.statsRetention now path value incoming) db
      (db.merge (.sound names dir now) path value incoming).1 := by
  have opened := namespaceOrCreate_spec consistent now used
  simp only [Database.merge]
  generalize db.namespaceOrCreate (.sound names dir now) path = fetched at opened ⊢
  obtain ⟨db₁, ns⟩ := fetched
  dsimp only at opened ⊢
  rw [Namespace.merge_isNew, Namespace.merge_outcome, opened.node]
  have stored := opened.put (ns.merge db.node value incoming).1
  have here : (db₁.put path (ns.merge db.node value incoming).1).evicted (shardOf path) = false := opened.here
  rw [Namespace.merge_values] at stored
  have cell : ns.cell value = Contents.cell (held names dir db) path value := by
    simp only [Namespace.cell, Contents.cell, opened.contents]
  have done : Does names dir (fun shard => exempt shard ∨ shard = shardOf path)
      (·.merge db.node db.policy.statsRetention now path value incoming) db
      (if !ns.values.contains value && countsTowardsConsensus path then
        (db₁.put path (ns.merge db.node value incoming).1).write (.sound names dir now) allNamespace value
          (World.sound names dir now).now .default
      else db₁.put path (ns.merge db.node value incoming).1) := by
    split_ifs with tallied
    · rw [write_default]
      refine (stored.trans (tally_does stored.consistent now now value)).congr ?_
      rw [opened.contents] at tallied
      simp only [Contents.merge, Function.comp_apply, tallied, if_true, stored.node, stored.policy, cell,
        opened.contents]
    · refine stored.congr ?_
      rw [opened.contents] at tallied
      simp only [Contents.merge, tallied, Bool.false_eq_true, if_false, cell, opened.contents]
  by_cases changed : ((ns.cell value).merge incoming db.node).2.changed = true
  · rw [if_pos changed]
    refine done.markDirty ?_ used
    split_ifs with tallied
    · rw [write_default]
      exact (tally_does stored.consistent now now value).stays _ here
    · exact here
  · rw [if_neg changed]
    refine { done with consistent := ?_ }
    rcases heard with free | dirty | news | ⟨present, knows⟩
    · exact done.consistent.of_exempt free
    · exact done.consistent.of_dirty (done.marked _ dirty)
    · rw [cell] at changed
      exact absurd news.changed changed
    · rw [← opened.contents] at present
      rw [← cell] at knows
      simp only [present, Bool.not_true, Bool.false_and, Bool.false_eq_true, if_false]
      obtain ⟨a, found⟩ := OrderedMap.contains_iff.mp present
      have isCell : ns.cell value = a := by simp [Namespace.cell, found]
      refine (opened.existing ?_).put_same opened.handle ?_
      · cases nothing : held names dir db path with
        | some vals => rfl
        | none => simp [opened.values, nothing] at found
      · rw [Namespace.merge_values, knows.unchanged (by simpa using changed), isCell,
          OrderedMap.insert_self _ found]

end Merging

/-! ## Tags, deletion and the tally given back -/

section Removing

variable {names : ShardFiles} {dir : Dir} {db : Database} {exempt : String → Prop} {now : DateTime}

theorem setTags_does (consistent : Consistent names dir exempt db) (now : DateTime)
    (path value tags : String) :
    Does names dir exempt (·.setTags now path value tags) db
      (db.setTags (.sound names dir now) path value tags).1 := by
  obtain ⟨looked, result, values⟩ := namespace_spec consistent now path
  simp only [Database.setTags]
  generalize db.namespace_ (.sound names dir now) path = fetched at looked result values ⊢
  obtain ⟨db₁, _ | ns⟩ := fetched
  · have nothing : held names dir db path = none := values.symm
    exact looked.does.congr (by simp [Contents.setTags, Contents.values, nothing])
  · have found : held names dir db path = some ns.values := values.symm
    have handle : db₁.namespaces.get path = some ns := result.symm
    have present : db₁.namespaces.contains path = true := OrderedMap.contains_iff.mpr ⟨ns, handle⟩
    have nowAt : (World.sound names dir now).now = now := rfl
    dsimp only at looked ⊢
    rw [nowAt]
    -- Whatever is not there, or no longer visible, is put back as it was.
    have untouched : Does names dir exempt id db (db₁.put path ns) :=
      { looked.does with
        consistent := looked.consistent.put_same handle rfl
        held := by
          rw [(Does.put looked.consistent present ns).held, looked.held]
          exact Contents.put_self found }
    cases cell : ns.values.get value with
    | none =>
        rw [show ns.retag value tags now = (ns, false) by simp [Namespace.retag, cell]]
        refine untouched.congr ?_
        simp [Contents.setTags, Contents.values, found, cell]
    | some a =>
        by_cases expired : a.isExpired now = true
        · rw [show ns.retag value tags now = (ns, false) by simp [Namespace.retag, cell, expired]]
          refine untouched.congr ?_
          simp [Contents.setTags, Contents.values, found, cell, expired]
        · rw [show ns.retag value tags now =
              ({ ns with values := ns.values.insert value (a.setTags tags now.timestampMillis) }, true) by
            simp [Namespace.retag, cell, expired]]
          refine ((looked.does.trans (Does.put looked.consistent present _)).markDirty ?_ ?_).congr ?_
          · exact looked.consistent.evicted_of_present present
          · exact looked.consistent.used_of_present present
          · simp [Contents.setTags, Contents.values, found, cell, expired]

/-- A namespace taken out of memory and out of the catalogue. -/
theorem Does.erase (consistent : Consistent names dir exempt db) {name : String}
    (present : db.namespaces.contains name = true) :
    Does names dir (fun shard => exempt shard ∨ shard = shardOf name) (·.remove name) db
      (({ db with namespaces := db.namespaces.erase name } : Database).uncatalogue name) := by
  obtain ⟨meta_, found, resident⟩ := consistent.known name present
  have gone : (({ db with namespaces := db.namespaces.erase name } : Database).uncatalogue name) =
      { db with
        namespaces := db.namespaces.erase name
        shards := db.shards.insert (shardOf name)
          { meta_ with namespaces := meta_.namespaces.erase name } } := by
    simp [Database.uncatalogue, found]
  rw [gone]
  have evicted : ∀ k, Database.evicted { db with
      namespaces := db.namespaces.erase name
      shards := db.shards.insert (shardOf name)
        { meta_ with namespaces := meta_.namespaces.erase name } } k = db.evicted k := by
    intro k
    by_cases same : k = shardOf name
    · subst same
      simp [Database.evicted, found]
    · simp [Database.evicted, OrderedMap.get_insert, same]
  refine ⟨@Consistent.changes names dir db exempt _ _ (shardOf name) _ consistent
    ⟨rfl, rfl, rfl, consistent.inPlay _ meta_ found, OrderedMap.get_insert_self _ _ _, ?_, ?_, ?_, ?_, ?_, fun _ => resident⟩
    fun _ _ => .inl, rfl, rfl, ?_, fun _ => id, ?_⟩
  · intro k other
    simp [OrderedMap.get_insert, other]
  · intro k other
    have apart : k ≠ name := fun same => other (congrArg shardOf same)
    simp [OrderedMap.get_erase, apart]
  · exact fun _ notExempt => absurd (.inr rfl) notExempt
  · intro away
    rw [resident] at away
    cases away
  · intro _ k
    have before := consistent.listed _ meta_ found resident k
    simp only [OrderedMap.contains, OrderedMap.get_erase] at before ⊢
    split_ifs
    · simp
    · exact before
  · funext k
    simp only [SightingDB.held, OrderedMap.get_erase, evicted, Contents.remove]
    by_cases isName : k = name
    · subst isName
      simp [not_evicted_of_resident found resident]
    · simp [isName]
  · intro k here
    rw [evicted]
    exact here

/-- An entry of the tally that giving back does not alter. -/
def Settled (node value : String) (c : Contents) : Prop :=
  ∀ all a, c allNamespace = some all → all.get value = some a → a.counts.get node = none ∧ a.count ≠ 0

theorem Settled.release {node value : String} {c : Contents} (settled : Settled node value c) :
    c.release node value = c := by
  simp only [Contents.release]
  cases found : c allNamespace with
  | none => rfl
  | some all =>
      have same : releaseIn node value all = all := by
        simp only [releaseIn]
        cases entry : all.get value with
        | none => rfl
        | some a =>
            obtain ⟨absent, positive⟩ := settled all a found entry
            have still : a.decrement node = (a, a.count) := by simp [Attribute.decrement, absent]
            simp [still, positive, OrderedMap.insert_self all entry]
      dsimp only
      rw [same]
      exact Contents.put_self found

/-- Whether giving back values of the tally leaves its shard marked, or as it was. -/
def Accounted (names : ShardFiles) (dir : Dir) (db : Database) (values : List String) : Prop :=
  db.dirty.contains internalShard = true ∨ ∀ v ∈ values, Settled db.node v (held names dir db)

theorem releaseConsensus_does (consistent : Consistent names dir exempt db) (now : DateTime)
    (value : String) (free : exempt internalShard ∨ Accounted names dir db [value]) :
    Does names dir exempt (·.release db.node value) db
      (db.releaseConsensus (.sound names dir now) value) := by
  obtain ⟨looked, result, values⟩ := namespace_spec consistent now allNamespace
  simp only [Database.releaseConsensus]
  generalize db.namespace_ (.sound names dir now) allNamespace = fetched at looked result values ⊢
  obtain ⟨db₁, _ | all⟩ := fetched
  · have nothing : held names dir db allNamespace = none := values.symm
    exact looked.does.congr (by simp [Contents.release, nothing])
  · have found : held names dir db allNamespace = some all.values := values.symm
    have handle : db₁.namespaces.get allNamespace = some all := result.symm
    dsimp only at looked ⊢
    rw [looked.node]
    have done := (looked.does.trans (Does.put looked.consistent
      (OrderedMap.contains_iff.mpr ⟨all, handle⟩) (all.release db.node value))).congr
      (g := (·.release db.node value)) (by simp [Contents.release, found, Namespace.release_values])
    rw [shardOf_all] at done
    refine { done with consistent := ?_ }
    rcases free with free | dirty | settled
    · exact done.consistent.of_exempt free
    · exact done.consistent.of_dirty (done.marked _ dirty)
    · refine looked.consistent.put_same handle ?_
      have same := congrFun (settled value List.mem_cons_self).release allNamespace
      simpa [Contents.release, Contents.put, found, Namespace.release_values] using same

theorem releaseAll_does (consistent : Consistent names dir exempt db) (now : DateTime) (values : List String)
    (free : exempt internalShard ∨ Accounted names dir db values) :
    Does names dir exempt (·.releaseAll db.node values) db
      (values.foldl (fun db value => db.releaseConsensus (.sound names dir now) value) db) := by
  induction values generalizing db with
  | nil => exact (Looks.refl consistent).does
  | cons value rest ih =>
      have done := releaseConsensus_does consistent now value
        (free.imp_right fun accounted => accounted.imp_right fun settled v member =>
          settled v (by simp_all))
      have later : exempt internalShard ∨
          Accounted names dir (db.releaseConsensus (.sound names dir now) value) rest := by
        rcases free with free | dirty | settled
        · exact .inl free
        · exact .inr (.inl (done.marked _ dirty))
        · refine .inr (.inr fun v member => ?_)
          rw [done.node, done.held, (settled value List.mem_cons_self).release]
          exact settled v (List.mem_cons_of_mem _ member)
      refine (done.trans (ih done.consistent later)).congr ?_
      rw [Function.comp_apply, done.node]
      rfl

/-- A deletion that leaves the shard of the tally marked, or as it was. -/
def Repaid (names : ShardFiles) (dir : Dir) (db : Database) (name : String) : Prop :=
  countsTowardsConsensus name = false ∨ shardOf name = internalShard ∨
    Accounted names dir db (Contents.values (held names dir db) name).keys

theorem delete_does (consistent : Consistent names dir exempt db) (now : DateTime) (name : String)
    (repaid : exempt internalShard ∨ Repaid names dir db name) :
    Does names dir exempt (·.delete db.node name) db (db.delete (.sound names dir now) name).1 := by
  obtain ⟨looked, result, values⟩ := namespace_spec consistent now name
  simp only [Database.delete]
  generalize db.namespace_ (.sound names dir now) name = fetched at looked result values ⊢
  obtain ⟨db₁, _ | ns⟩ := fetched
  · have nothing : held names dir db name = none := values.symm
    exact looked.does.congr (by simp [Contents.delete, nothing])
  · have found : held names dir db name = some ns.values := values.symm
    have handle : db₁.namespaces.get name = some ns := result.symm
    have present : db₁.namespaces.contains name = true := OrderedMap.contains_iff.mpr ⟨ns, handle⟩
    dsimp only at looked ⊢
    have swap : ((({ db₁ with namespaces := db₁.namespaces.erase name } : Database).markDirty name).uncatalogue
        name) = ((({ db₁ with namespaces := db₁.namespaces.erase name } : Database).uncatalogue
          name).markDirty name) := by
      simp only [Database.uncatalogue, Database.markDirty, Database.markShardDirty]
      split <;> rfl
    rw [swap]
    have erased := Does.erase looked.consistent present
    have stayed := erased.stays (shardOf name) (looked.consistent.evicted_of_present present)
    have removed := (looked.does.trans erased).markDirty stayed (looked.consistent.used_of_present present)
    split_ifs with counts
    · have later : exempt internalShard ∨ Accounted names dir
          ((({ db₁ with namespaces := db₁.namespaces.erase name } : Database).uncatalogue name).markDirty name)
          ns.valueNames := by
        rcases repaid with free | notCounted | own | dirty | settled
        · exact .inl free
        · rw [counts] at notCounted
          cases notCounted
        · refine .inr (.inl ?_)
          simp [Database.markDirty, Database.markShardDirty, OrderedMap.contains, own]
        · exact .inr (.inl (removed.marked _ dirty))
        · refine .inr (.inr fun v member => ?_)
          rw [removed.node, removed.held]
          intro all a entry
          refine settled v (by simpa [Contents.values, found, Namespace.valueNames] using member) all a ?_
          simp only [Function.comp_apply, id, Contents.remove] at entry
          split_ifs at entry
          exact entry
      refine (removed.trans (releaseAll_does removed.consistent now ns.valueNames later)).congr ?_
      simp only [Contents.delete, Function.comp_apply, id, found, counts, if_true, removed.node,
        Namespace.valueNames]
    · refine removed.congr ?_
      simp [Contents.delete, found, counts]

end Removing

/-! ## Reading -/

section Reading

variable {names : ShardFiles} {dir : Dir} {db : Database} {exempt : String → Prop}

theorem view_reads (consistent : Consistent names dir exempt db) (now : DateTime) (path value : String)
    (consensus : Nat) (withStats : Bool) :
    Looks names dir exempt db (db.view (.sound names dir now) path value consensus withStats).1 ∧
      (db.view (.sound names dir now) path value consensus withStats).2 =
        Contents.view (held names dir db) now path value consensus withStats := by
  obtain ⟨looked, _, values⟩ := namespace_spec consistent now path
  simp only [Database.view, Contents.view, ← values]
  generalize db.namespace_ (.sound names dir now) path = fetched at looked ⊢
  obtain ⟨db₁, _ | ns⟩ := fetched <;> exact ⟨looked, rfl⟩

theorem count_reads (consistent : Consistent names dir exempt db) (now : DateTime) (path value : String) :
    Looks names dir exempt db (db.count (.sound names dir now) path value).1 ∧
      (db.count (.sound names dir now) path value).2 = Contents.count (held names dir db) now path value := by
  obtain ⟨looked, _, values⟩ := namespace_spec consistent now path
  simp only [Database.count, Contents.count, ← values]
  generalize db.namespace_ (.sound names dir now) path = fetched at looked ⊢
  obtain ⟨db₁, _ | ns⟩ := fetched <;> exact ⟨looked, rfl⟩

theorem mergePage_reads (consistent : Consistent names dir exempt db) (now : DateTime) (path : String)
    (offset limit : Nat) :
    Looks names dir exempt db (db.mergePage (.sound names dir now) path offset limit).1 ∧
      (db.mergePage (.sound names dir now) path offset limit).2 =
        Contents.mergePage (held names dir db) now path offset limit := by
  obtain ⟨looked, _, values⟩ := namespace_spec consistent now path
  simp only [Database.mergePage, Contents.mergePage, ← values]
  generalize db.namespace_ (.sound names dir now) path = fetched at looked ⊢
  obtain ⟨db₁, _ | ns⟩ := fetched <;> exact ⟨looked, rfl⟩

/-- The map and the catalogue together know every name that is held, and no other. -/
theorem namespaceExists_reads (consistent : Consistent names dir exempt db) (name : String) :
    db.namespaceExists name = (held names dir db name).isSome := by
  simp only [Database.namespaceExists, held]
  cases resident : db.namespaces.get name with
  | some ns => simp [OrderedMap.contains, resident]
  | none =>
      have absent : db.namespaces.contains name = false := OrderedMap.not_contains_iff.mpr resident
      rw [absent, Bool.false_or]
      cases found : db.shards.get (shardOf name) with
      | none => simp [Database.evicted, found]
      | some meta_ =>
          by_cases away : meta_.resident = false
          · simp [Database.evicted, found, away, (consistent.gone _ meta_ found away).2.2 name]
          · have here : meta_.resident = true := by simpa using away
            simp [Database.evicted, found, here, consistent.listed _ meta_ found here name, absent]

theorem withConsensus_reads (consistent : Consistent names dir exempt db) (now : DateTime)
    (views : List AttributeView) :
    Looks names dir exempt db (db.withConsensus (.sound names dir now) views).1 ∧
      (db.withConsensus (.sound names dir now) views).2 = views.map fun v =>
        { v with consensus := Contents.count (held names dir db) now allNamespace v.value } := by
  induction views generalizing db with
  | nil => exact ⟨Looks.refl consistent, rfl⟩
  | cons v rest ih =>
      obtain ⟨looked, counted⟩ := count_reads consistent now allNamespace v.value
      obtain ⟨looked', filled⟩ := ih looked.consistent
      refine ⟨looked.trans looked', ?_⟩
      simp only [Database.withConsensus, List.map_cons, counted, filled, looked.held]

theorem namespaceViews_reads (consistent : Consistent names dir exempt db) (now : DateTime) (name : String) :
    Looks names dir exempt db (db.namespaceViews (.sound names dir now) name).1 ∧
      (db.namespaceViews (.sound names dir now) name).2 =
        Contents.namespaceViews (held names dir db) now name := by
  obtain ⟨looked, _, values⟩ := namespace_spec consistent now name
  simp only [Database.namespaceViews, Contents.namespaceViews, ← values]
  generalize db.namespace_ (.sound names dir now) name = fetched at looked ⊢
  obtain ⟨db₁, _ | ns⟩ := fetched
  · exact ⟨looked, rfl⟩
  · obtain ⟨looked', filled⟩ := withConsensus_reads looked.consistent now (ns.allViews false now)
    refine ⟨looked.trans looked', ?_⟩
    rw [looked.held] at filled
    exact congrArg some filled

theorem valueCount_reads (consistent : Consistent names dir exempt db) (now : DateTime) (name : String) :
    Looks names dir exempt db (db.valueCount (.sound names dir now) name).1 ∧
      (db.valueCount (.sound names dir now) name).2.map (·.values) =
        Contents.valueCount (held names dir db) name := by
  have touched := Looks.touch consistent (.sound names dir now) (shardOf name)
  simp only [Database.valueCount, Database.touch_namespaces]
  cases resident : db.namespaces.get name with
  | some ns => exact ⟨touched, by simp [Contents.valueCount, held, resident, Namespace.len]⟩
  | none =>
      obtain ⟨looked, _, values⟩ := namespace_spec touched.consistent now name
      rw [touched.held] at values
      simp only [Contents.valueCount, ← values]
      generalize (db.touch (.sound names dir now) (shardOf name)).namespace_ (.sound names dir now) name =
        fetched at looked ⊢
      obtain ⟨db₁, _ | ns⟩ := fetched <;> exact ⟨touched.trans looked, rfl⟩

end Reading

end SightingDB
