import SightingDB.Contents
import SightingDB.Acts

/-!
When a merge says truly whether it changed anything. The shard of the namespace is marked for
the next save by that answer, and the answer is put together by hand, field by field.
-/
namespace SightingDB

/-- The value has come to be there, or a field of its record has moved. -/
def Altered : Option Attribute → Option Attribute → Prop
  | some before, some after => before.counts ≠ after.counts ∨ before.stats ≠ after.stats ∨
      before.firstSeen ≠ after.firstSeen ∨ before.lastSeen ≠ after.lastSeen ∨ before.tags ≠ after.tags ∨
      before.tagsAt ≠ after.tagsAt ∨ before.ttl ≠ after.ttl
  | none, some _ => True
  | _, none => False

instance : ∀ before after : Option Attribute, Decidable (Altered before after)
  | some _, some _ => inferInstanceAs (Decidable (_ ∨ _))
  | none, some _ => .isTrue trivial
  | some _, none => .isFalse id
  | none, none => .isFalse id

namespace Attribute

variable {a : Attribute} {p : Merge} {mine : String}

/-- Nothing of the record is different exactly when it is the same record. -/
theorem altered_merge_iff : Altered (some a) (some (a.merge p mine).1) ↔ (a.merge p mine).1 ≠ a := by
  constructor
  · intro altered same
    rw [same] at altered
    simp [Altered] at altered
  · intro differ
    by_contra still
    simp only [Altered, not_or, not_not] at still
    obtain ⟨counts, stats, first, last, tags, tagsAt, ttl⟩ := still
    exact differ (Attribute.ext (merge_value a p mine) first.symm last.symm counts.symm tags.symm tagsAt.symm ttl.symm
      stats.symm (merge_legacyCount a p mine) (merge_legacyStats a p mine))

theorem above_of_raises {κ : Type} [LinearOrder κ] {ours theirs : OrderedMap κ Nat} (raised : raises ours theirs = true) :
    ∃ k n, theirs.get k = some n ∧ (ours.get k).getD 0 < n := by
  obtain ⟨e, member, above⟩ := List.any_eq_true.mp raised
  exact ⟨e.1, e.2, OrderedMap.mem_entries.mp member, of_decide_eq_true above⟩

theorem kept_erase {ν : Type} {m : OrderedMap String ν} {server : String} {v : ν} (kept : (m.erase mine).get server = some v) :
    server ≠ mine ∧ m.get server = some v := by
  rw [OrderedMap.get_erase] at kept
  split_ifs at kept with own
  exact ⟨own, kept⟩

/-- What is reported is one of the things a payload can have to say. -/
theorem news_of_changed (changed : (a.merge p mine).2.changed = true) : a.News p mine := by
  rw [merge_changed] at changed
  simp only [Bool.or_eq_true, decide_eq_true_iff] at changed
  rcases changed with ((((counts | stats) | first) | last) | tags) | ttl
  · obtain ⟨server, n, kept, above⟩ := above_of_raises counts
    obtain ⟨other, found⟩ := kept_erase kept
    exact .count other found above
  · obtain ⟨⟨server, buckets⟩, member, raised⟩ := List.any_eq_true.mp stats
    obtain ⟨other, found⟩ := kept_erase (OrderedMap.mem_entries.mp member)
    obtain ⟨hour, n, entry, above⟩ := above_of_raises raised
    exact .bucket other found entry above
  · rw [merge_firstSeen] at first
    cases known : DateTime.fromTimestamp p.firstSeen with
    | none => simp [known, firstEdge] at first
    | some t =>
        rw [known, firstEdge, Option.elim_some] at first
        refine .first known ?_
        split_ifs at first ⊢
        · exact first
        · exact lt_of_not_ge fun below => first (min_eq_left below)
  · rw [merge_lastSeen] at last
    cases known : DateTime.fromTimestamp p.lastSeen with
    | none => simp [known, lastEdge] at last
    | some t =>
        rw [known, lastEdge, Option.elim_some] at last
        refine .last known ?_
        split_ifs at last ⊢
        · exact last
        · exact lt_of_not_ge fun below => last (max_eq_left below)
  · rcases lt_trichotomy a.tagsAt p.tagsAt with later | tie | earlier
    · exact .replaced later (by simpa [merge, mergeTags, later] using tags)
    · by_cases blank : p.tags = ""
      · simp [merge, mergeTags, tie, blank] at tags
      · exact .added tie blank (by simpa [merge, mergeTags, tie, blank, addTags] using tags)
    · simp [merge, mergeTags, earlier, not_lt_of_gt earlier] at tags
  · rw [merge_ttl, mergeTtl] at ttl
    refine .lifetime ?_ ?_ <;> split_ifs at ttl <;> omega

theorem changed_iff : (a.merge p mine).2.changed = true ↔ a.News p mine := ⟨news_of_changed, News.changed⟩

/-- A payload that changes nothing has nothing that is not there already. -/
theorem knows_of_same (same : (a.merge p mine).1 = a) : a.Knows p mine where
  counts := sup_eq_left.mp ((merge_counts a p mine).symm.trans (congrArg Attribute.counts same))
  stats := sup_eq_left.mp ((merge_stats a p mine).symm.trans (congrArg Attribute.stats same))
  tagsAt := max_eq_left_iff.mp ((merge_tagsAt a p mine).symm.trans (congrArg Attribute.tagsAt same))

/-- Nothing is reported unless something is different. -/
theorem differs_of_changed (changed : (a.merge p mine).2.changed = true) : (a.merge p mine).1 ≠ a := by
  intro same
  have knows := knows_of_same same
  rw [merge_changed, same, raises_of_le knows.counts, raisesStats_of_le knows.stats] at changed
  simp at changed

end Attribute

/-- The record a namespace holds for a value once a payload has been merged. -/
theorem Namespace.get_merge (ns : Namespace) (node value : String) (p : Merge) :
    (ns.merge node value p).1.values.get value = some ((ns.cell value).merge p node).1 := by
  rw [Namespace.merge_values]
  exact OrderedMap.get_insert_self _ _ _

/-- The namespace a merge works on. -/
def Database.opened (db : Database) (w : World) (path : String) : Namespace := (db.namespaceOrCreate w path).2

/-- What is stored for a value, and what a payload makes of it. -/
def Database.stored (db : Database) (w : World) (path value : String) : Option Attribute :=
  (db.opened w path).values.get value

def Database.storedAfter (db : Database) (w : World) (path value : String) (p : Merge) : Option Attribute :=
  ((db.opened w path).merge db.node value p).1.values.get value

theorem Database.merge_outcome (db : Database) (w : World) (path value : String) (p : Merge) :
    (db.merge w path value p).2 = (((db.opened w path).cell value).merge p db.node).2 := by
  have node : (db.namespaceOrCreate w path).1.node = db.node :=
    (@namespaceOrCreate_moves w (fun _ => True) (fun _ => True) True db path trivial fun _ => trivial).1.config.2
  rw [← node]
  rfl

/-- For a database that agrees with its directory this is what is held before and afterwards. -/
theorem held_merge {names : ShardFiles} {dir : Dir} {db : Database} {exempt : String → Prop}
    (consistent : Consistent names dir exempt db) (now : DateTime) {path : String} (used : names.used (shardOf path))
    (value : String) (p : Merge) :
    ((held names dir db path).getD ∅).get value = db.stored (.sound names dir now) path value ∧
    ((held names dir (db.merge (.sound names dir now) path value p).1 path).getD ∅).get value =
      db.storedAfter (.sound names dir now) path value p := by
  have opened := namespaceOrCreate_spec consistent now used
  have loud : (exempt (shardOf path) ∨ shardOf path = shardOf path) ∨ Heard names dir db path value p := .inl (.inr rfl)
  have done := @merge_does names dir db (fun shard => exempt shard ∨ shard = shardOf path)
    (consistent.weaken fun _ before => .inl before) now path used value p loud
  refine ⟨by rw [Database.stored, Database.opened, opened.values], ?_⟩
  have merged : held names dir (db.merge (.sound names dir now) path value p).1 path =
      some ((db.opened (.sound names dir now) path).merge db.node value p).1.values := by
    rw [done.held, Namespace.merge_values, Namespace.cell, Database.opened, opened.contents]
    simp only [Contents.merge]
    split_ifs with tallied
    · obtain ⟨-, counted⟩ := Bool.and_eq_true_iff.mp tallied
      have other : path ≠ allNamespace := by
        rintro rfl
        exact absurd counted (by decide)
      simp [Contents.tallyUp, Contents.record, Contents.put, other, Contents.cell]
    · simp [Contents.put, Contents.cell]
  rw [merged]
  rfl

/-- A merge reports a change exactly when it makes one, provided the payload has something of
what is reported, or else the value is there and the payload has nothing new besides: no entry of
another server that is missing here, not even a zero or an empty one, and no later replacement. -/
theorem merge_reports_iff (db : Database) (w : World) (path value : String) (p : Merge) :
    ((db.merge w path value p).2.changed = true ↔ Altered (db.stored w path value) (db.storedAfter w path value p)) ↔
    ((db.opened w path).cell value).News p db.node ∨
      (db.opened w path).values.contains value = true ∧ ((db.opened w path).cell value).Knows p db.node := by
  rw [Database.merge_outcome, Database.stored, Database.storedAfter, Namespace.get_merge, Attribute.changed_iff]
  generalize db.opened w path = ns
  cases found : ns.values.get value with
  | none =>
      have absent : ns.values.contains value = false := by simp [OrderedMap.contains, found]
      simp [Altered, absent]
  | some a =>
      have here : ns.values.contains value = true := OrderedMap.contains_iff.mpr ⟨a, found⟩
      have cell : ns.cell value = a := by simp [Namespace.cell, found]
      rw [cell, Attribute.altered_merge_iff]
      by_cases news : a.News p db.node
      · exact iff_of_true ⟨fun _ => Attribute.differs_of_changed news.changed, fun _ => news⟩ (.inl news)
      · have silent : (a.merge p db.node).2.changed = false :=
          Bool.eq_false_iff.mpr fun changed => news (Attribute.news_of_changed changed)
        simp only [news, here, false_iff, not_not, true_and, false_or]
        exact ⟨Attribute.knows_of_same, fun knows => knows.unchanged silent⟩

/-- A payload without an entry creates the value and reports nothing. -/
theorem merge_reports_nothing :
    ¬ ∀ (db : Database) (w : World) (path value : String) (p : Merge),
      (db.merge w path value p).2.changed = true ↔ Altered (db.stored w path value) (db.storedAfter w path value p) := by
  intro claim
  have absent := claim (.withNode ⟨0, 0⟩ .storeEverything "a") .sample "feeds" "v" ⟨∅, ∅, 0, 0, "", 0, 0⟩
  exact absurd (absent.mpr (by decide)) (by decide)

end SightingDB
