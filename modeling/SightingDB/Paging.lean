import SightingDB.Saving

/-!
Eviction against never evicting. Two servers get the same requests and one of them also
evicts; what they hold stays the same as far as files can tell, so no answer differs.
-/
namespace SightingDB

/-! ## What files keep is enough -/

namespace Attribute

variable (a : Attribute)

@[simp] theorem stored_value : a.stored.value = a.value := rfl

@[simp] theorem stored_firstSeen : a.stored.firstSeen = a.firstSeen.truncate := rfl

@[simp] theorem stored_lastSeen : a.stored.lastSeen = a.lastSeen.truncate := rfl

@[simp] theorem stored_counts : a.stored.counts = a.counts := rfl

@[simp] theorem stored_tags : a.stored.tags = a.tags := rfl

@[simp] theorem stored_tagsAt : a.stored.tagsAt = a.tagsAt := rfl

@[simp] theorem stored_ttl : a.stored.ttl = a.ttl := rfl

@[simp] theorem stored_stats : a.stored.stats = a.stats := rfl

@[simp] theorem stored_legacyCount : a.stored.legacyCount = 0 := rfl

@[simp] theorem stored_legacyStats : a.stored.legacyStats = ∅ := rfl

@[simp] theorem stored_count : a.stored.count = a.count := rfl

@[simp] theorem stored_isExpired (now : DateTime) : a.stored.isExpired now = a.isExpired now := by
  simp [isExpired, expiresAt]

@[simp] theorem stored_view (consensus : Nat) (withStats : Bool) :
    a.stored.view consensus withStats = a.view consensus withStats := by
  simp [view, mergedStats]

@[simp] theorem stored_asMerge : a.stored.asMerge = a.asMerge := by
  simp [asMerge]

@[simp] theorem stored_new (value : String) : (Attribute.new value).stored = Attribute.new value := rfl

theorem trimStats_stats_congr {a b : Attribute} (same : a.stats = b.stats) (node : String) (keep : Nat) :
    (a.trimStats node keep).stats = (b.trimStats node keep).stats := by
  simp only [trimStats, same]
  cases b.stats.get node with
  | none => exact same
  | some buckets =>
      dsimp only
      split
      · exact same
      · rfl

/-- The buckets after a sighting depend on the buckets before it only. -/
theorem increment_stats_congr {a b : Attribute} (same : a.stats = b.stats) (node : String) (when : DateTime)
    (retention : Nat) : (a.increment node when retention).stats = (b.increment node when retention).stats := by
  simp only [increment]
  refine trimStats_stats_congr ?_ node retention
  simp only [makeStats]
  split_ifs <;> simp [same]

section Sighted

variable (node : String) (when : DateTime) (ttl : Option Nat) (retention : Nat) (tags : String)

theorem sighted_firstSeen : (a.sighted node when ttl retention tags).firstSeen =
    if a.count = 0 then when else min a.firstSeen when := by
  rw [sighted_eq, increment_firstSeen]
  by_cases none : a.count = 0
  · rw [if_pos none]
    exact if_pos none
  · rw [if_neg none]
    exact if_neg none

theorem sighted_lastSeen : (a.sighted node when ttl retention tags).lastSeen =
    if a.count = 0 then when else max a.lastSeen when := by
  rw [sighted_eq, increment_lastSeen]
  by_cases none : a.count = 0
  · rw [if_pos none]
    exact if_pos none
  · rw [if_neg none]
    exact if_neg none

/-- A sighting of what was read back is a sighting of what was written. -/
theorem sighted_stored :
    (a.stored.sighted node when ttl retention tags).stored = (a.sighted node when ttl retention tags).stored := by
  ext1
  · simp [sighted_eq]
  · simp only [stored_firstSeen, sighted_firstSeen]
    by_cases none : a.count = 0
    · rw [if_pos (show a.stored.count = 0 from none), if_pos none]
    · rw [if_neg (show ¬ a.stored.count = 0 from none), if_neg none, DateTime.truncate_min,
        DateTime.truncate_min, DateTime.truncate_truncate]
  · simp only [stored_lastSeen, sighted_lastSeen]
    by_cases none : a.count = 0
    · rw [if_pos (show a.stored.count = 0 from none), if_pos none]
    · rw [if_neg (show ¬ a.stored.count = 0 from none), if_neg none, DateTime.truncate_max,
        DateTime.truncate_max, DateTime.truncate_truncate]
  · simp [sighted_eq]
  · simp [sighted_eq]
  · simp [sighted_eq]
  · simp [sighted_eq]
  · rw [stored_stats, stored_stats, sighted_eq, sighted_eq]
    refine increment_stats_congr ?_ node when retention
    rfl
  · simp only [stored_legacyCount]
  · simp only [stored_legacyStats]

end Sighted

theorem unseen_stored {a : Attribute} (timely : a.Timely) : a.stored.unseen = a.unseen := by
  have epoch : decide (a.firstSeen.truncate = .unixEpoch) = decide (a.firstSeen = .unixEpoch) := by
    refine decide_eq_decide.mpr ⟨timely, fun same => ?_⟩
    rw [same]
    rfl
  simp only [unseen, stored_count]
  exact congrArg _ epoch

theorem truncate_firstEdge (unseen : Bool) (ours : DateTime) (secs : Int) :
    (firstEdge unseen ours.truncate (DateTime.fromTimestamp secs)).truncate =
      (firstEdge unseen ours (DateTime.fromTimestamp secs)).truncate := by
  cases DateTime.fromTimestamp secs with
  | none => simp [firstEdge]
  | some t => cases unseen <;> simp [firstEdge, DateTime.truncate_min]

theorem truncate_lastEdge (unseen : Bool) (ours : DateTime) (secs : Int) :
    (lastEdge unseen ours.truncate (DateTime.fromTimestamp secs)).truncate =
      (lastEdge unseen ours (DateTime.fromTimestamp secs)).truncate := by
  cases DateTime.fromTimestamp secs with
  | none => simp [lastEdge]
  | some t => cases unseen <;> simp [lastEdge, DateTime.truncate_max]

theorem merge_tags_congr {a b : Attribute} (tags : a.tags = b.tags) (tagsAt : a.tagsAt = b.tagsAt) (p : Merge)
    (mine : String) : (a.merge p mine).1.tags = (b.merge p mine).1.tags := by
  simp only [merge, mergeTags, addTags, tags, tagsAt]
  split_ifs <;> rfl

/-- Merging into what was read back is merging into what was written. -/
theorem merge_stored {a : Attribute} (timely : a.Timely) (p : Merge) (mine : String) :
    (a.stored.merge p mine).1.stored = (a.merge p mine).1.stored := by
  ext1
  · simp
  · simp only [stored_firstSeen, merge_firstSeen, unseen_stored timely, truncate_firstEdge]
  · simp only [stored_lastSeen, merge_lastSeen, unseen_stored timely, truncate_lastEdge]
  · simp
  · simp only [stored_tags]
    exact merge_tags_congr (stored_tags a) (stored_tagsAt a) p mine
  · simp [merge_tagsAt]
  · simp
  · simp
  · simp only [stored_legacyCount]
  · simp only [stored_legacyStats]

theorem setTags_stored (tags : String) (at_ : Int) :
    (a.stored.setTags tags at_).stored = (a.setTags tags at_).stored := by
  simp [setTags, stored]

theorem decrement_stored (node : String) :
    (a.stored.decrement node).1.stored = (a.decrement node).1.stored ∧
      (a.stored.decrement node).2 = (a.decrement node).2 := by
  simp only [decrement, stored_counts]
  cases a.counts.get node with
  | none => exact ⟨stored_stored a, rfl⟩
  | some mine =>
      dsimp only
      split_ifs <;> exact ⟨by simp [stored], rfl⟩

/-! ## Times in the second of the epoch -/

theorem Timely.of_firstSeen {a b : Attribute} (timely : a.Timely) (same : b.firstSeen = a.firstSeen) : b.Timely := by
  unfold Timely
  rw [same]
  exact timely

end Attribute

/-- A time that is not strictly inside the first second after the epoch. -/
def DateTime.Timely (d : DateTime) : Prop := d.truncate = .unixEpoch → d = .unixEpoch

theorem DateTime.Timely.min {d e : DateTime} (hd : d.Timely) (he : e.Timely) : (min d e).Timely := by
  rcases min_choice d e with same | same <;> rw [same]
  · exact hd
  · exact he

theorem DateTime.timely_fromTimestamp {secs : Int} {d : DateTime} (known : fromTimestamp secs = some d) :
    d.Timely := by
  intro epoch
  rw [truncate_fromTimestamp known] at epoch
  exact epoch

namespace Attribute

variable {a : Attribute}

theorem Timely.sighted (timely : a.Timely) {when : DateTime} (then_ : when.Timely) (node : String)
    (ttl : Option Nat) (retention : Nat) (tags : String) :
    (a.sighted node when ttl retention tags).Timely := by
  unfold Attribute.Timely
  rw [sighted_firstSeen]
  split_ifs
  · exact then_
  · exact DateTime.Timely.min timely then_

theorem Timely.merge (timely : a.Timely) (p : Merge) (mine : String) : (a.merge p mine).1.Timely := by
  unfold Attribute.Timely
  rw [merge_firstSeen]
  cases known : DateTime.fromTimestamp p.firstSeen with
  | none => exact timely
  | some t =>
      have then_ := DateTime.timely_fromTimestamp known
      cases a.unseen with
      | true => exact then_
      | false => exact DateTime.Timely.min timely then_

theorem Timely.decrement (timely : a.Timely) (node : String) : (a.decrement node).1.Timely := by
  refine timely.of_firstSeen ?_
  simp only [Attribute.decrement]
  split
  · rfl
  · split_ifs <;> rfl

theorem timely_new (value : String) : (Attribute.new value).Timely := fun _ => rfl

end Attribute

/-! ## Contents as files would keep them -/

theorem onDisk_insert (vals : Values) (v : String) (a : Attribute) :
    onDisk (vals.insert v a) = (onDisk vals).insert v a.stored := by
  refine OrderedMap.ext_get fun k => ?_
  simp only [onDisk, OrderedMap.get_mapValues, OrderedMap.get_insert]
  split_ifs <;> rfl

theorem onDisk_erase (vals : Values) (v : String) : onDisk (vals.erase v) = (onDisk vals).erase v := by
  refine OrderedMap.ext_get fun k => ?_
  simp only [onDisk, OrderedMap.get_mapValues, OrderedMap.get_erase]
  split_ifs <;> rfl

theorem get_onDisk (vals : Values) (v : String) : (onDisk vals).get v = (vals.get v).map Attribute.stored :=
  OrderedMap.get_mapValues _ _ _

theorem contains_onDisk (vals : Values) (v : String) : (onDisk vals).contains v = vals.contains v := by
  simp [OrderedMap.contains, get_onDisk]

theorem keys_onDisk (vals : Values) : (onDisk vals).keys = vals.keys := by
  simp [onDisk, OrderedMap.mapValues, OrderedMap.keys]

theorem releaseIn_onDisk (node v : String) (vals : Values) :
    onDisk (releaseIn node v (onDisk vals)) = onDisk (releaseIn node v vals) := by
  simp only [releaseIn, get_onDisk]
  cases vals.get v with
  | none => simp
  | some a =>
      obtain ⟨same, remaining⟩ := a.decrement_stored node
      simp only [Option.map_some, remaining]
      split_ifs
      · rw [onDisk_erase, onDisk_onDisk, onDisk_erase]
      · rw [onDisk_insert, onDisk_onDisk, same, onDisk_insert]

namespace Contents

variable (c : Contents)

/-- What files would keep of it. -/
def kept : Contents := fun name => (c name).map onDisk

@[simp] theorem kept_kept : c.kept.kept = c.kept := by
  funext name
  simp only [kept]
  cases c name <;> simp

theorem values_kept (name : String) : c.kept.values name = onDisk (c.values name) := by
  simp only [kept, values]
  cases c name <;> rfl

theorem cell_kept (path value : String) : c.kept.cell path value = (c.cell path value).stored := by
  simp only [cell, values_kept, get_onDisk]
  cases (c.values path).get value <;> rfl

theorem kept_put (path : String) (vals : Values) : (c.put path vals).kept = c.kept.put path (onDisk vals) := by
  funext name
  simp only [kept, put]
  split_ifs <;> rfl

theorem record_kept (origin path value : String) (when : DateTime) (ttl : Option Nat) (retention : Nat)
    (tags : String) :
    (c.kept.record origin path value when ttl retention tags).kept =
      (c.record origin path value when ttl retention tags).kept := by
  simp only [record, kept_put, values_kept, cell_kept, onDisk_insert, onDisk_onDisk, kept_kept,
    Attribute.sighted_stored]

theorem write_kept (node : String) (retention : Nat) (origin path value : String) (when : DateTime)
    (consensus : Bool) (ttl : Option Nat) (tags : String) :
    (c.kept.write node retention origin path value when consensus ttl tags).kept =
      (c.write node retention origin path value when consensus ttl tags).kept := by
  have recorded := c.record_kept origin path value when ttl retention tags
  simp only [write, values_kept, contains_onDisk]
  split_ifs
  · rw [tallyUp, tallyUp, ← record_kept, recorded, record_kept]
  · exact recorded

theorem cell_timely {c : Contents} (timely : c.Timely) (path value : String) : (c.cell path value).Timely := by
  simp only [cell, values]
  cases held : c path with
  | none => exact Attribute.timely_new value
  | some vals =>
      cases found : vals.get value with
      | none => simpa [found] using Attribute.timely_new value
      | some a => simpa [found] using timely path vals value a held found

theorem merge_kept {c : Contents} (timely : c.Timely) (node : String) (retention : Nat) (now : DateTime)
    (path value : String) (incoming : Merge) :
    (c.kept.merge node retention now path value incoming).kept =
      (c.merge node retention now path value incoming).kept := by
  have merged : (c.kept.put path ((c.kept.values path).insert value
      ((c.kept.cell path value).merge incoming node).1)).kept =
      (c.put path ((c.values path).insert value ((c.cell path value).merge incoming node).1)).kept := by
    simp only [kept_put, values_kept, cell_kept, onDisk_insert, onDisk_onDisk, kept_kept,
      Attribute.merge_stored (cell_timely timely path value)]
  simp only [merge, values_kept, contains_onDisk] at merged ⊢
  split_ifs
  · rw [tallyUp, tallyUp, ← record_kept, merged, record_kept]
  · exact merged

theorem setTags_kept (now : DateTime) (path value tags : String) :
    (c.kept.setTags now path value tags).kept = (c.setTags now path value tags).kept := by
  simp only [setTags, values_kept, get_onDisk]
  cases (c.values path).get value with
  | none => exact c.kept_kept
  | some a =>
      simp only [Option.map_some, Attribute.stored_isExpired]
      split_ifs
      · exact c.kept_kept
      · simp only [kept_put, onDisk_insert, onDisk_onDisk, kept_kept, Attribute.setTags_stored]

theorem kept_remove (name : String) : (c.remove name).kept = c.kept.remove name := by
  funext k
  simp only [kept, remove]
  split_ifs <;> rfl

theorem release_kept (node value : String) : (c.kept.release node value).kept = (c.release node value).kept := by
  have entry : c.kept allNamespace = (c allNamespace).map onDisk := rfl
  simp only [release, entry]
  cases c allNamespace with
  | none => exact c.kept_kept
  | some all => simp only [Option.map_some, kept_put, kept_kept, releaseIn_onDisk]

theorem releaseAll_kept (node : String) (values : List String) :
    (c.kept.releaseAll node values).kept = (c.releaseAll node values).kept := by
  induction values generalizing c with
  | nil => exact c.kept_kept
  | cons value rest ih =>
      simp only [releaseAll, List.foldl_cons] at ih ⊢
      rw [← ih, release_kept, ih]

theorem delete_kept (node name : String) : (c.kept.delete node name).kept = (c.delete node name).kept := by
  have entry : c.kept name = (c name).map onDisk := rfl
  simp only [delete, entry]
  cases c name with
  | none => exact c.kept_kept
  | some vals =>
      simp only [Option.map_some, keys_onDisk, ← kept_remove]
      split_ifs
      · exact releaseAll_kept _ node vals.keys
      · exact kept_kept _

/-! ### Answers -/

theorem view_kept (now : DateTime) (path value : String) (consensus : Nat) (withStats : Bool) :
    c.kept.view now path value consensus withStats = c.view now path value consensus withStats := by
  simp only [view, kept]
  cases c path with
  | none => rfl
  | some vals =>
      simp only [Option.map_some, Option.bind_some, Namespace.view, get_onDisk]
      cases vals.get value <;> simp

theorem count_kept (now : DateTime) (path value : String) : c.kept.count now path value = c.count now path value := by
  simp only [count, kept]
  cases c path with
  | none => rfl
  | some vals =>
      simp only [Option.map_some, Option.elim_some, Namespace.count, get_onDisk]
      cases vals.get value <;> simp

theorem live_onDisk (vals : Values) (now : DateTime) :
    ((onDisk vals).entries.filter fun e => !e.2.isExpired now) =
      (vals.entries.filter fun e => !e.2.isExpired now).map fun e => (e.1, e.2.stored) := by
  simp only [onDisk, OrderedMap.mapValues, List.filter_map, Function.comp_def, Attribute.stored_isExpired]

theorem mergePage_kept (now : DateTime) (path : String) (offset limit : Nat) :
    c.kept.mergePage now path offset limit = c.mergePage now path offset limit := by
  simp only [mergePage, kept]
  cases c path with
  | none => rfl
  | some vals =>
      simp only [Option.map_some, Namespace.mergePage, live_onDisk, ← List.map_drop, ← List.map_take,
        List.map_map, Function.comp_def, Attribute.stored_asMerge, List.length_map]

theorem namespaceViews_kept (now : DateTime) (name : String) :
    c.kept.namespaceViews now name = c.namespaceViews now name := by
  simp only [namespaceViews, count_kept]
  simp only [kept]
  cases c name with
  | none => rfl
  | some vals =>
      simp only [Option.map_some, Namespace.allViews, live_onDisk, List.map_map, Function.comp_def,
        Attribute.stored_view]

theorem valueCount_kept (name : String) : c.kept.valueCount name = c.valueCount name := by
  simp only [valueCount, kept]
  cases c name with
  | none => rfl
  | some vals => simp [onDisk, OrderedMap.mapValues, OrderedMap.size]

end Contents

theorem Query.answer_kept (q : Query) (c : Contents) (now : DateTime) : q.answer c.kept now = q.answer c now := by
  cases q with
  | view path value consensus withStats => exact congrArg Answer.view (c.view_kept now path value consensus withStats)
  | count path value => exact congrArg Answer.count (c.count_kept now path value)
  | mergePage path offset limit => exact congrArg Answer.page (c.mergePage_kept now path offset limit)
  | namespaceExists name => exact congrArg Answer.exists_ (by simp [Contents.kept])
  | namespaceViews name => exact congrArg Answer.views (c.namespaceViews_kept now name)
  | valueCount name => exact congrArg Answer.values (c.valueCount_kept name)

/-! ## Times stay timely -/

namespace Contents.Timely

variable {c : Contents}

theorem put (timely : c.Timely) {path : String} {vals : Values}
    (new : ∀ v a, vals.get v = some a → a.Timely) : (c.put path vals).Timely := by
  intro name vals' v a held found
  simp only [Contents.put] at held
  split_ifs at held
  · obtain rfl := Option.some.inj held
    exact new v a found
  · exact timely name vals' v a held found

theorem values (timely : c.Timely) (path v : String) (a : Attribute) (found : (c.values path).get v = some a) :
    a.Timely := by
  simp only [Contents.values] at found
  cases held : c path with
  | none => simp [held] at found
  | some vals => exact timely path vals v a held (by simpa [held] using found)

theorem put_insert (timely : c.Timely) (path value : String) {a : Attribute} (new : a.Timely) :
    (c.put path ((c.values path).insert value a)).Timely := by
  refine timely.put fun v b found => ?_
  rw [OrderedMap.get_insert] at found
  split_ifs at found
  · obtain rfl := Option.some.inj found
    exact new
  · exact timely.values path v b found

theorem record (timely : c.Timely) {when : DateTime} (then_ : when.Timely) (origin path value : String)
    (ttl : Option Nat) (retention : Nat) (tags : String) :
    (c.record origin path value when ttl retention tags).Timely :=
  timely.put_insert path value ((cell_timely timely path value).sighted then_ origin ttl retention tags)

theorem release (timely : c.Timely) (node value : String) : (c.release node value).Timely := by
  simp only [Contents.release]
  cases held : c allNamespace with
  | none => exact timely
  | some all =>
      refine timely.put fun v a found => ?_
      simp only [releaseIn] at found
      cases entry : all.get value with
      | none =>
          rw [entry] at found
          exact timely allNamespace all v a held found
      | some b =>
          simp only [entry] at found
          split_ifs at found
          · rw [OrderedMap.get_erase] at found
            split_ifs at found
            exact timely allNamespace all v a held found
          · rw [OrderedMap.get_insert] at found
            split_ifs at found
            · obtain rfl := Option.some.inj found
              exact (timely allNamespace all value b held entry).decrement node
            · exact timely allNamespace all v a held found

theorem remove (timely : c.Timely) (name : String) : (c.remove name).Timely := by
  intro k vals v a held found
  simp only [Contents.remove] at held
  split_ifs at held
  exact timely k vals v a held found

theorem releaseAll (timely : c.Timely) (node : String) (values : List String) :
    (c.releaseAll node values).Timely := by
  induction values generalizing c with
  | nil => exact timely
  | cons value rest ih => exact ih (timely.release node value)

end Contents.Timely

/-- A request whose times are timely. -/
def Request.Timely (now : DateTime) : Request → Prop
  | .write _ _ _ when _ _ => when.Timely
  | .merge _ _ _ => now.Timely
  | _ => True

theorem Request.effect_timely {c : Contents} (timely : c.Timely) (db : Database) {now : DateTime} {r : Request}
    (then_ : r.Timely now) : (r.effect db now c).Timely := by
  cases r with
  | write origin path value when opts tags =>
      have recorded := timely.record then_ origin path value (db.ttlOf path opts) db.policy.statsRetention tags
      simp only [effect, Contents.write]
      split_ifs
      · exact recorded.record then_ db.node allNamespace value none _ ""
      · exact recorded
  | merge path value incoming =>
      have merged := timely.put_insert path value
        ((Contents.cell_timely timely path value).merge incoming db.node)
      simp only [effect, Contents.merge]
      split_ifs
      · exact merged.record then_ db.node allNamespace value none _ ""
      · exact merged
  | setTags path value tags =>
      simp only [effect, Contents.setTags]
      cases found : (c.values path).get value with
      | none => exact timely
      | some a =>
          dsimp only
          split_ifs
          · exact timely
          · exact timely.put_insert path value
              ((timely.values path value a found).of_firstSeen (by simp [Attribute.setTags]))
  | delete name =>
      simp only [effect, Contents.delete]
      cases c name with
      | none => exact timely
      | some vals =>
          dsimp only
          split_ifs
          · exact (timely.remove name).releaseAll db.node vals.keys
          · exact timely.remove name
  | read query => exact timely

/-- A request cannot tell contents apart that files would keep alike. -/
theorem Request.effect_kept {c : Contents} (timely : c.Timely) (db : Database) (now : DateTime) (r : Request) :
    (r.effect db now c.kept).kept = (r.effect db now c).kept := by
  cases r with
  | write origin path value when opts tags => exact c.write_kept _ _ _ _ _ _ _ _ _
  | merge path value incoming => exact Contents.merge_kept timely _ _ _ _ _ _
  | setTags path value tags => exact c.setTags_kept _ _ _ _
  | delete name => exact c.delete_kept _ _
  | read query => exact c.kept_kept

theorem Request.effect_congr {db db' : Database} (node : db'.node = db.node) (policy : db'.policy = db.policy)
    (now : DateTime) (r : Request) : r.effect db' now = r.effect db now := by
  have ttl : ∀ path opts, db'.ttlOf path opts = db.ttlOf path opts := by
    intro path opts
    simp only [Database.ttlOf, policy]
  cases r <;> simp only [effect, node, policy, ttl]

/-! ## Runs with and without eviction -/

/-- A request, or a pass of the evictor. -/
inductive Event
  | request (r : Request)
  | evictIdle (at_ : Int)
  deriving DecidableEq

def Event.isRequest : Event → Bool
  | .request _ => true
  | .evictIdle _ => false

namespace Paged

variable (names : ShardFiles)

def serve (m : Machine) (now : DateTime) : Event → Machine × Option Answer
  | .request r =>
      let (db, answer) := r.apply m.db (.sound names m.dir now)
      (⟨db, m.dir⟩, answer)
  | .evictIdle at_ =>
      let (db, dir, _) := m.db.evictIdle (.sound names m.dir now) at_
      (⟨db, dir⟩, none)

/-- The answers given along a run. -/
def answers (m : Machine) : List (DateTime × Event) → List Answer
  | [] => []
  | (now, e) :: rest =>
      let (m, answer) := serve names m now e
      answer.toList ++ answers m rest

/-- The requests of a run, without the evictions. -/
def requests (events : List (DateTime × Event)) : List (DateTime × Event) := events.filter (·.2.isRequest)

/-- An event that changes no shard that can be evicted without marking it. -/
def Fit (m : Machine) (now : DateTime) : Event → Prop
  | .request r => r.Marks names m.dir (· = internalShard) m.db ∧ r.Timely now
  | .evictIdle _ => True

def FitAll (m : Machine) : List (DateTime × Event) → Prop
  | [] => True
  | (now, e) :: rest => Fit names m now e ∧ FitAll (serve names m now e).1 rest

/-- One server evicts and the other does not, and files could not tell what they hold apart. -/
structure Mirrors (m m' : Machine) : Prop where
  evicting : Consistent names m.dir (· = internalShard) m.db
  still : Consistent names m'.dir (fun _ => True) m'.db
  node : m.db.node = m'.db.node
  policy : m.db.policy = m'.db.policy
  alike : Contents.kept (held names m.dir m.db) = Contents.kept (held names m'.dir m'.db)
  timely : Contents.Timely (held names m.dir m.db)
  timely' : Contents.Timely (held names m'.dir m'.db)
  whole : Whole m.dir

variable {names}

theorem serve_request (m : Machine) (now : DateTime) (r : Request) : serve names m now (.request r) =
    (⟨(r.apply m.db (.sound names m.dir now)).1, m.dir⟩, (r.apply m.db (.sound names m.dir now)).2) := rfl

theorem marks_still {dir : Dir} {db : Database} {r : Request} (marks : r.Marks names dir (· = internalShard) db)
    (dir' : Dir) (db' : Database) : r.Marks names dir' (fun _ => True) db' := by
  cases r with
  | write origin path value when opts tags => exact marks
  | merge path value incoming => exact ⟨marks.1, .inl trivial⟩
  | delete name => exact .inl trivial
  | setTags path value tags => trivial
  | read query => trivial

theorem Mirrors.request {m m' : Machine} (mirrors : Mirrors names m m') {now : DateTime} {r : Request}
    (fit : Fit names m now (.request r)) :
    Mirrors names (serve names m now (.request r)).1 (serve names m' now (.request r)).1 ∧
      (serve names m now (.request r)).2 = (serve names m' now (.request r)).2 := by
  obtain ⟨done, answered⟩ := r.does mirrors.evicting now fit.1
  obtain ⟨done', answered'⟩ := r.does mirrors.still now (marks_still fit.1 m'.dir m'.db)
  have same := Request.effect_congr mirrors.node mirrors.policy now r
  rw [serve_request, serve_request]
  refine ⟨⟨done.consistent, done'.consistent, ?_, ?_, ?_, ?_, ?_, mirrors.whole⟩, ?_⟩
  · exact done.node.trans (mirrors.node.trans done'.node.symm)
  · exact done.policy.trans (mirrors.policy.trans done'.policy.symm)
  · rw [done.held, done'.held, ← Request.effect_kept mirrors.timely, ← Request.effect_kept mirrors.timely',
      mirrors.alike, same]
  · rw [done.held]
    exact Request.effect_timely mirrors.timely m.db fit.2
  · rw [done'.held]
    exact Request.effect_timely mirrors.timely' m'.db fit.2
  · rw [answered, answered']
    cases r with
    | read query =>
        change some _ = some _
        rw [← query.answer_kept, mirrors.alike, query.answer_kept]
    | _ => rfl

theorem Mirrors.evict {m m' : Machine} (mirrors : Mirrors names m m') (now : DateTime) (at_ : Int) :
    Mirrors names (serve names m now (.evictIdle at_)).1 m' := by
  have evicts := evictIdle_evicts mirrors.evicting (fun _ => id) now at_
  refine ⟨evicts.consistent, mirrors.still, evicts.node.trans mirrors.node, evicts.policy.trans mirrors.policy,
    ?_, evicts.timely mirrors.whole mirrors.timely, mirrors.timely', evicts.whole mirrors.whole⟩
  exact (funext evicts.alike).trans mirrors.alike

theorem Mirrors.answers_eq {m m' : Machine} (mirrors : Mirrors names m m') {events : List (DateTime × Event)}
    (fit : FitAll names m events) : answers names m events = answers names m' (requests events) := by
  induction events generalizing m m' with
  | nil => rfl
  | cons e rest ih =>
      obtain ⟨now, event⟩ := e
      cases event with
      | request r =>
          obtain ⟨next, same⟩ := mirrors.request fit.1
          have later := ih next fit.2
          simp only [answers, requests, Event.isRequest, List.filter_cons, if_true] at later ⊢
          rw [same, later]
      | evictIdle at_ =>
          have later := ih (mirrors.evict now at_) fit.2
          simpa [answers, requests, Event.isRequest, serve] using later

/-! ## From the start -/

theorem extend_whole {acc more : Stored} (whole : acc.Whole) (more_ : more.Whole) : Stored.Whole (extend acc more) := by
  intro name vals v a found
  rw [get_extend] at found
  cases new : more.get name with
  | none =>
      rw [new, Option.none_or] at found
      exact whole name vals v a found
  | some vals' =>
      rw [new, Option.some_or] at found
      obtain rfl := Option.some.inj found
      exact more_ name vals' v a new

theorem loadFiles_whole {l : List (String × Snapshot)} (files : ∀ e ∈ l, e.2.namespaces.Whole) {acc acc' : Stored}
    (whole : acc.Whole) (loaded : loadFiles l acc = .ok acc') : acc'.Whole := by
  induction l generalizing acc with
  | nil =>
      cases loaded
      exact whole
  | cons e rest ih =>
      simp only [loadFiles] at loaded
      cases version : checkVersion e.2.version with
      | error err =>
          rw [version] at loaded
          cases loaded
      | ok u =>
          rw [version] at loaded
          exact ih (fun e' member => files e' (List.mem_cons_of_mem _ member))
            (extend_whole whole (files e List.mem_cons_self)) loaded

theorem load_whole {dir : Dir} (whole : Whole dir) {data : Option Snapshot} (loaded : load dir = .ok data) :
    Stored.Whole (data.elim ∅ (·.namespaces)) := by
  refine loadFiles_whole (fun e member => whole.files e.1 e.2 (OrderedMap.mem_entries.mp member)) ?_
    (load_run loaded)
  have nothing : Stored.Whole ∅ := fun name vals v a absent => by simp at absent
  cases legacy : dir.legacy with
  | none => exact nothing
  | some old => exact extend_whole nothing (whole.legacy old legacy)

/-- Evictions at any point of a run, under any tiers, change no answer. The server starts
from any directory in which each namespace of a shard that can be evicted is read from that
shard's own file. -/
theorem eviction_is_invisible (names : ShardFiles) (dir : Dir) (policy : DatabasePolicy) (stores : StoragePolicy)
    (node : String) (booted : DateTime) (tiers : TierPolicy) (events : List (DateTime × Event))
    {data : Option Snapshot} (loaded : load dir = .ok data) (whole : Whole dir) (own : OwnFiles names dir)
    (inPlay : ∀ name vals, (data.elim ∅ (·.namespaces)).get name = some vals → names.used (shardOf name))
    (faithful : ∀ name, ¬ shardOf name = internalShard →
      (data.elim ∅ (·.namespaces)).get name = (fileOf names dir (shardOf name)).get name) {db : Database}
    (started : restart dir policy stores node booted = .ok db)
    (fit : FitAll names ⟨db.attachStore tiers, dir⟩ events) :
    answers names ⟨db.attachStore tiers, dir⟩ events = answers names ⟨db.attachStore tiers, dir⟩ (requests events) := by
  obtain ⟨data', loaded', rfl⟩ := load_of_restart started
  obtain rfl : data = data' := Except.ok.inj (loaded.symm.trans loaded')
  have consistent : Consistent names dir (· = internalShard) _ :=
    started_consistent loaded own inPlay faithful policy stores node booted tiers
  have timely : Contents.Timely (held names dir ((data.elim (Database.withNode policy stores node)
      (.fromSnapshotAs · policy stores node booted)).attachStore tiers)) := by
    intro name vals v a found entry
    simp only [held] at found
    split at found
    · rename_i ns resident
      obtain rfl := Option.some.inj found
      change (data.elim (Database.withNode policy stores node)
        (.fromSnapshotAs · policy stores node booted)).namespaces.get name = some ns at resident
      rw [started_get] at resident
      obtain ⟨stored, inData, rfl⟩ := Option.map_eq_some_iff.mp resident
      exact (load_whole whole loaded).timely inData entry
    · split_ifs at found
      obtain ⟨stored, inFile, rfl⟩ := Option.map_eq_some_iff.mp found
      exact (whole.fileOf (shardOf name)).timely inFile entry
  exact Mirrors.answers_eq ⟨consistent, consistent.weaken fun _ _ => trivial, rfl, rfl, rfl, timely, timely,
    whole⟩ fit

/-- Nothing is allowed to sit idle. -/
def cold : TierPolicy := ⟨.cold, ∅, 0⟩

/-- A value is written, evicted and asked for. -/
def revisited : List (DateTime × Event) :=
  [(.unixEpoch, .request (.write "local" "a/x" "v" .unixEpoch ⟨true, none⟩ "t")), (.unixEpoch, .evictIdle 0),
    (.unixEpoch, .request (.read (.count "a/x" "v")))]

theorem eviction_is_invisible_revisited : ∃ db,
    restart ⟨none, ∅⟩ ⟨0, 0⟩ .storeEverything "local" .unixEpoch = .ok db ∧
      answers .sample ⟨db.attachStore cold, ⟨none, ∅⟩⟩ revisited = [.count 1] ∧
      answers .sample ⟨db.attachStore cold, ⟨none, ∅⟩⟩ revisited =
        answers .sample ⟨db.attachStore cold, ⟨none, ∅⟩⟩ (requests revisited) := by
  refine ⟨_, rfl, by decide, ?_⟩
  refine eviction_is_invisible .sample ⟨none, ∅⟩ ⟨0, 0⟩ .storeEverything "local" .unixEpoch cold revisited rfl
    ⟨by simp, by simp⟩ ?_ ?_ (fun _ _ => rfl) rfl ?_
  · intro shard snap name vals _ found
    simp at found
  · intro name vals found
    simp at found
  · exact ⟨⟨.inr (by decide), fun _ => rfl⟩, trivial, ⟨trivial, trivial⟩, trivial⟩

/-- A value of an older build, in the one file that build kept. -/
def legacyDir : Dir where
  legacy := some ⟨1, OrderedMap.empty.insert "a/x"
    (OrderedMap.empty.insert "v" { Attribute.new "v" with legacyCount := 1 })⟩
  files := ∅

/-- It is evicted before anything has been written, and asked for. -/
def neverWritten : List (DateTime × Event) :=
  [(.unixEpoch, .evictIdle 0), (.unixEpoch, .request (.read (.count "a/x" "v")))]

/-- The shard has no file yet, so what was dropped is nowhere. -/
theorem legacy_values_are_lost : ∃ db, restart legacyDir ⟨0, 0⟩ .storeEverything "local" .unixEpoch = .ok db ∧
    answers .sample ⟨db.attachStore cold, legacyDir⟩ neverWritten ≠
      answers .sample ⟨db.attachStore cold, legacyDir⟩ (requests neverWritten) := by
  refine ⟨_, rfl, ?_⟩
  decide

end Paged

end SightingDB
