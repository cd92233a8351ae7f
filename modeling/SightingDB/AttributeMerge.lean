import SightingDB.Attribute
import SightingDB.Lib.MapJoin
import SightingDB.Lib.Stamped

/-!
What one merge does to each field, and what that says about merging twice or the other
way round. Counts and buckets join, tags follow the later replacement, the shortest
lifetime wins. The seen window is the exception: it is seeded instead of widened while
the value still looks unseen, so it depends on what was merged before.
-/
namespace SightingDB

/-- The tags of a payload with the time they were last replaced. -/
def Merge.tagState (p : Merge) : Stamped Int (Finset String) := ⟨p.tagsAt, tagSet p.tags⟩

namespace Attribute

/-! ## Counts and buckets -/

/-- Whether the incoming map holds anything above ours. -/
def raises {κ : Type} [LinearOrder κ] (ours theirs : OrderedMap κ Nat) : Bool :=
  theirs.entries.any fun e => (ours.get e.1).getD 0 < e.2

theorem raises_of_le {κ : Type} [LinearOrder κ] {ours theirs : OrderedMap κ Nat}
    (below : theirs ≤ ours) : raises ours theirs = false := by
  refine List.any_eq_false.mpr fun e member => ?_
  obtain ⟨w, found, le⟩ := OrderedMap.le_iff_get.mp below e.1 e.2 (OrderedMap.mem_entries.mp member)
  simpa [found] using le

theorem foldl_raiseEntry {κ : Type} [LinearOrder κ] (ours theirs : OrderedMap κ Nat) (flag : Bool) :
    theirs.entries.foldl raiseEntry (ours, flag) = (ours ⊔ theirs, flag || raises ours theirs) := by
  have step : (raiseEntry : OrderedMap κ Nat × Bool → κ × Nat → _) = fun acc e =>
      (acc.1.insert e.1 ((acc.1.get e.1).elim e.2 (· ⊔ e.2)),
        acc.2 || decide ((acc.1.get e.1).getD 0 < e.2)) := by
    funext acc e
    simp only [raiseEntry]
    cases found : acc.1.get e.1 with
    | none =>
        by_cases positive : 0 < e.2
        · simp [positive]
        · simp [Nat.eq_zero_of_not_pos positive]
    | some w =>
        by_cases above : w < e.2
        · simp [above, max_eq_right above.le]
        · simp [above, max_eq_left (not_lt.mp above)]
  rw [step, OrderedMap.foldl_insert_flag (fun held (v : Nat) => held.elim v (· ⊔ v))
    (fun held v => decide (held.getD 0 < v)) _ theirs.keys_nodup]
  rfl

/-- A loop that skips the receiver's own entry runs over the others. -/
theorem foldl_skip_mine {α ν : Type} (mine : String) (m : OrderedMap String ν)
    (step : α → String × ν → α) (start : α) :
    m.entries.foldl (fun acc e => if e.1 = mine then acc else step acc e) start =
      (m.erase mine).entries.foldl step start := by
  simp only [OrderedMap.erase, OrderedMap.filter, List.foldl_filter]
  congr
  funext acc e
  by_cases same : e.1 = mine <;> simp [same]

theorem mergeCounts_fst (mine : String) (ours theirs : Counts) :
    (mergeCounts mine ours theirs).1 =
      (ours ⊔ theirs.erase mine, raises ours (theirs.erase mine)) := by
  have project : ∀ (l : List (String × Nat)) (acc : (Counts × Bool) × Nat),
      (l.foldl (fun acc e => if e.1 = mine then (acc.1, acc.2 + 1) else (raiseEntry acc.1 e, acc.2))
        acc).1 = l.foldl (fun acc e => if e.1 = mine then acc else raiseEntry acc e) acc.1 := by
    intro l
    induction l with
    | nil => intro acc; rfl
    | cons e rest ih =>
        intro acc
        by_cases same : e.1 = mine <;> simp [same, ih]
  simp only [mergeCounts, project, foldl_skip_mine, foldl_raiseEntry, Bool.false_or]

/-- Whether any bucket of the incoming statistics holds more than ours. -/
def raisesStats (ours theirs : OrderedMap String Buckets) : Bool :=
  theirs.entries.any fun e => raises ((ours.get e.1).getD ∅) e.2

theorem raisesStats_of_le {ours theirs : OrderedMap String Buckets} (below : theirs ≤ ours) :
    raisesStats ours theirs = false := by
  refine List.any_eq_false.mpr fun e member => ?_
  obtain ⟨w, found, le⟩ := OrderedMap.le_iff_get.mp below e.1 e.2 (OrderedMap.mem_entries.mp member)
  simp [found, raises_of_le le]

theorem mergeStats_eq (mine : String) (ours theirs : OrderedMap String Buckets) (flag : Bool) :
    mergeStats mine ours theirs flag =
      (ours ⊔ theirs.erase mine, flag || raisesStats ours (theirs.erase mine)) := by
  have step : mergeBuckets = fun acc e =>
      (acc.1.insert e.1 ((acc.1.get e.1).elim e.2 (· ⊔ e.2)),
        acc.2 || raises ((acc.1.get e.1).getD ∅) e.2) := by
    funext acc e
    simp only [mergeBuckets, foldl_raiseEntry]
    cases acc.1.get e.1 with
    | none => simp [← OrderedMap.bot_eq_empty]
    | some held => rfl
  rw [mergeStats, foldl_skip_mine, step, OrderedMap.foldl_insert_flag
    (fun held (v : Buckets) => held.elim v (· ⊔ v)) (fun held v => raises (held.getD ∅) v) _
    (theirs.erase mine).keys_nodup]
  rfl

/-! ## The seen window -/

/-- The first edge after a merge: seeded while unseen, otherwise only moved earlier. A time
outside the calendar leaves it alone. -/
def firstEdge (unseen : Bool) (ours : DateTime) (theirs : Option DateTime) : DateTime :=
  theirs.elim ours fun t => if unseen then t else min ours t

/-- The last edge after a merge, the other way round. -/
def lastEdge (unseen : Bool) (ours : DateTime) (theirs : Option DateTime) : DateTime :=
  theirs.elim ours fun t => if unseen then t else max ours t

theorem mergeFirst_fst (unseen : Bool) (ours : DateTime) (theirs : Int) :
    (mergeFirst unseen ours theirs).1 = firstEdge unseen ours (DateTime.fromTimestamp theirs) := by
  simp only [mergeFirst, mergeEdge, firstEdge]
  cases DateTime.fromTimestamp theirs with
  | none => rfl
  | some t =>
      cases unseen with
      | true => simp
      | false =>
          by_cases further : t < ours
          · simp [further, min_eq_right further.le]
          · simp [further, min_eq_left (not_lt.mp further)]

theorem mergeLast_fst (unseen : Bool) (ours : DateTime) (theirs : Int) :
    (mergeLast unseen ours theirs).1 = lastEdge unseen ours (DateTime.fromTimestamp theirs) := by
  simp only [mergeLast, mergeEdge, lastEdge]
  cases DateTime.fromTimestamp theirs with
  | none => rfl
  | some t =>
      cases unseen with
      | true => simp
      | false =>
          by_cases further : ours < t
          · simp [further, max_eq_right further.le]
          · simp [further, max_eq_left (not_lt.mp further)]

/-- An edge is reported changed exactly when it is a different instant. -/
theorem mergeEdge_snd (further : DateTime → DateTime → Bool) (unseen : Bool) (ours : DateTime)
    (theirs : Int) :
    (mergeEdge further unseen ours theirs).2 =
      decide ((mergeEdge further unseen ours theirs).1 ≠ ours) := by
  cases known : DateTime.fromTimestamp theirs with
  | none => simp [mergeEdge, known]
  | some t => by_cases taken : unseen || further t ours <;> simp [mergeEdge, known, taken]

/-! ## Tags -/

/-- The tags held with the time they were last replaced. -/
def tagState (a : Attribute) : Stamped Int (Finset String) := ⟨a.tagsAt, tagSet a.tags⟩

theorem tagState_mergeTags (a : Attribute) (p : Merge) :
    (a.mergeTags p).tagState = a.tagState ⊔ p.tagState := by
  rcases lt_trichotomy a.tagsAt p.tagsAt with later | tie | later
  · rw [Stamped.sup_of_lt (x := a.tagState) (y := p.tagState) later]
    simp [mergeTags, later, tagState, Merge.tagState]
  · rw [Stamped.sup_of_eq (x := a.tagState) (y := p.tagState) tie]
    by_cases blank : p.tags = ""
    · simp [mergeTags, tie, tagState, Merge.tagState, blank]
    · simp [mergeTags, tie, tagState, Merge.tagState, blank, addTags, tagSet_unionTags]
  · rw [Stamped.sup_of_gt (x := a.tagState) (y := p.tagState) later]
    simp [mergeTags, later, not_lt_of_gt later, tagState]

/-- A payload whose tags lie below ours is absorbed without touching the text. -/
theorem mergeTags_of_le {a : Attribute} {p : Merge} (below : p.tagState ≤ a.tagState) :
    a.mergeTags p = a := by
  rcases Stamped.le_iff.mp below with earlier | ⟨tie, inside⟩
  · have earlier : p.tagsAt < a.tagsAt := earlier
    simp [mergeTags, earlier, not_lt_of_gt earlier]
  · have tie : p.tagsAt = a.tagsAt := tie
    simp [mergeTags, tie, addTags, unionTags_of_subset inside]

theorem mergeTags_ignores (a : Attribute) (p : Merge) :
    a.mergeTags p = { a with tags := (a.mergeTags p).tags, tagsAt := (a.mergeTags p).tagsAt } := by
  simp only [mergeTags, addTags]
  split_ifs <;> rfl

@[simp] theorem mergeTags_value (a : Attribute) (p : Merge) : (a.mergeTags p).value = a.value := by
  rw [mergeTags_ignores]

@[simp] theorem mergeTags_firstSeen (a : Attribute) (p : Merge) : (a.mergeTags p).firstSeen = a.firstSeen := by
  rw [mergeTags_ignores]

@[simp] theorem mergeTags_lastSeen (a : Attribute) (p : Merge) : (a.mergeTags p).lastSeen = a.lastSeen := by
  rw [mergeTags_ignores]

@[simp] theorem mergeTags_counts (a : Attribute) (p : Merge) : (a.mergeTags p).counts = a.counts := by
  rw [mergeTags_ignores]

@[simp] theorem mergeTags_stats (a : Attribute) (p : Merge) : (a.mergeTags p).stats = a.stats := by
  rw [mergeTags_ignores]

@[simp] theorem mergeTags_legacyCount (a : Attribute) (p : Merge) : (a.mergeTags p).legacyCount = a.legacyCount := by
  rw [mergeTags_ignores]

@[simp] theorem mergeTags_legacyStats (a : Attribute) (p : Merge) : (a.mergeTags p).legacyStats = a.legacyStats := by
  rw [mergeTags_ignores]

/-! ## Lifetime -/

theorem mergeTtl_comm (x y : Nat) : mergeTtl x y = mergeTtl y x := by
  simp only [mergeTtl]
  split_ifs <;> omega

theorem mergeTtl_assoc (x y z : Nat) : mergeTtl (mergeTtl x y) z = mergeTtl x (mergeTtl y z) := by
  simp only [mergeTtl]
  split_ifs <;> omega

theorem mergeTtl_self (x : Nat) : mergeTtl x x = x := by
  simp [mergeTtl]

/-! ## The whole merge, field by field -/

section Fields

variable (a : Attribute) (p : Merge) (mine : String)

@[simp] theorem merge_value : (a.merge p mine).1.value = a.value := by
  simp only [merge, mergeTags_value]

@[simp] theorem merge_legacyCount : (a.merge p mine).1.legacyCount = a.legacyCount := by
  simp only [merge, mergeTags_legacyCount]

@[simp] theorem merge_legacyStats : (a.merge p mine).1.legacyStats = a.legacyStats := by
  simp only [merge, mergeTags_legacyStats]

@[simp] theorem merge_counts : (a.merge p mine).1.counts = a.counts ⊔ p.counts.erase mine := by
  simp only [merge, mergeTags_counts, mergeCounts_fst]

@[simp] theorem merge_stats : (a.merge p mine).1.stats = a.stats ⊔ p.stats.erase mine := by
  simp only [merge, mergeTags_stats, mergeStats_eq]

@[simp] theorem merge_firstSeen : (a.merge p mine).1.firstSeen =
    firstEdge a.unseen a.firstSeen (DateTime.fromTimestamp p.firstSeen) := by
  simp only [merge, mergeTags_firstSeen, mergeFirst_fst]

@[simp] theorem merge_lastSeen : (a.merge p mine).1.lastSeen =
    lastEdge a.unseen a.lastSeen (DateTime.fromTimestamp p.lastSeen) := by
  simp only [merge, mergeTags_lastSeen, mergeLast_fst]

@[simp] theorem merge_ttl : (a.merge p mine).1.ttl = mergeTtl a.ttl p.ttl := rfl

@[simp] theorem merge_tagState : (a.merge p mine).1.tagState = a.tagState ⊔ p.tagState :=
  tagState_mergeTags _ p

theorem merge_tagsAt : (a.merge p mine).1.tagsAt = max a.tagsAt p.tagsAt := by
  have tags := congrArg Stamped.stamp (merge_tagState a p mine)
  rwa [Stamped.stamp_sup] at tags

theorem merge_tags_of_le (below : p.tagState ≤ a.tagState) : (a.merge p mine).1.tags = a.tags := by
  simp only [merge]
  rw [mergeTags_of_le]
  exact below

/-- A merge reports a change when some number rose, an edge or the lifetime moved, or the
tag text is different. An entry that arrives at zero is not one of these. -/
theorem merge_changed : (a.merge p mine).2.changed =
    (raises a.counts (p.counts.erase mine) || raisesStats a.stats (p.stats.erase mine) ||
      decide ((a.merge p mine).1.firstSeen ≠ a.firstSeen) ||
      decide ((a.merge p mine).1.lastSeen ≠ a.lastSeen) ||
      decide ((a.merge p mine).1.tags ≠ a.tags) || decide ((a.merge p mine).1.ttl ≠ a.ttl)) := by
  simp only [merge, mergeCounts_fst, mergeStats_eq, mergeFirst, mergeLast, mergeEdge_snd,
    mergeTags_firstSeen, mergeTags_lastSeen]

end Fields

/-- Merge a sequence of payloads, oldest first. -/
def mergeAll (a : Attribute) (payloads : List Merge) (mine : String) : Attribute :=
  payloads.foldl (fun a p => (a.merge p mine).1) a

end Attribute
end SightingDB
