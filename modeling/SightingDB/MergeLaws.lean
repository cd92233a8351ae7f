import SightingDB.AttributeMerge

/-!
Order and repetition of merges. Every field but the seen window obeys both laws
outright; the window obeys them exactly under the conditions named here.
-/
namespace SightingDB

/-- Two records that differ at most in the order their tags are written in. -/
structure SameRecord (a b : Attribute) : Prop where
  value : a.value = b.value
  counts : a.counts = b.counts
  stats : a.stats = b.stats
  firstSeen : a.firstSeen = b.firstSeen
  lastSeen : a.lastSeen = b.lastSeen
  ttl : a.ttl = b.ttl
  tagsAt : a.tagsAt = b.tagsAt
  tags : tagSet a.tags = tagSet b.tags
  legacyCount : a.legacyCount = b.legacyCount
  legacyStats : a.legacyStats = b.legacyStats

namespace Attribute

/-- Whether a value would still look unseen with `p` merged: the greater of every server's
counts add up to nothing in `u64`, and the earliest time known is the epoch itself. -/
def unseenAfter (a : Attribute) (p : Merge) (mine : String) : Bool :=
  (a.counts ⊔ p.counts.erase mine).total % u64Size = 0 &&
    firstEdge a.unseen a.firstSeen (DateTime.fromTimestamp p.firstSeen) = .unixEpoch

theorem unseen_merge (a : Attribute) (p : Merge) (mine : String) :
    (a.merge p mine).1.unseen = a.unseenAfter p mine := by
  rw [unseen, count, unseenAfter, merge_counts, merge_firstSeen]

theorem firstEdge_of_unseenAfter (a : Attribute) (p : Merge) (mine : String)
    (still : a.unseenAfter p mine = true) :
    firstEdge a.unseen a.firstSeen (DateTime.fromTimestamp p.firstSeen) = .unixEpoch := by
  simp only [unseenAfter, Bool.and_eq_true, decide_eq_true_eq] at still
  exact still.2

/-! ## Order -/

/-- When the first edge does not depend on which of two payloads comes first. `p` and `q`
are their first edges, `old` is whether the value looks unseen before both, `afterP` and
`afterQ` after the one. -/
def FirstOrderFree (ours : DateTime) (old afterP afterQ : Bool) :
    Option DateTime → Option DateTime → Prop
  | none, none => True
  | some s, none => old = afterQ ∨ s ≤ ours
  | none, some t => old = afterP ∨ t ≤ ours
  | some s, some t =>
      (afterP = true → afterQ = false → t ≤ .unixEpoch) ∧
      (afterP = false → afterQ = true → s ≤ .unixEpoch) ∧
      (afterP = true → afterQ = true → s = t)

/-- The same for the last edge. -/
def LastOrderFree (ours : DateTime) (old afterP afterQ : Bool) :
    Option DateTime → Option DateTime → Prop
  | none, none => True
  | some s, none => old = afterQ ∨ ours ≤ s
  | none, some t => old = afterP ∨ ours ≤ t
  | some s, some t =>
      (afterP = true → afterQ = false → s ≤ t ∧ (old = true ∨ ours ≤ t)) ∧
      (afterP = false → afterQ = true → t ≤ s ∧ (old = true ∨ ours ≤ s)) ∧
      (afterP = true → afterQ = true → s = t)

/-- When merging `p` and `q` into `a` does not depend on their order. -/
def OrderFree (a : Attribute) (p q : Merge) (mine : String) : Prop :=
  FirstOrderFree a.firstSeen a.unseen (a.unseenAfter p mine) (a.unseenAfter q mine)
      (DateTime.fromTimestamp p.firstSeen) (DateTime.fromTimestamp q.firstSeen) ∧
    LastOrderFree a.lastSeen a.unseen (a.unseenAfter p mine) (a.unseenAfter q mine)
      (DateTime.fromTimestamp p.lastSeen) (DateTime.fromTimestamp q.lastSeen)

section Edges

variable {ours : DateTime} {old afterP afterQ : Bool} {p q : Option DateTime}

/-- Looking unseen after a merge pins the first edge to the epoch, which is all the
two sides need to know of each other. -/
theorem firstEdge_comm_iff (seedP : afterP = true → firstEdge old ours p = .unixEpoch)
    (seedQ : afterQ = true → firstEdge old ours q = .unixEpoch) :
    firstEdge afterP (firstEdge old ours p) q = firstEdge afterQ (firstEdge old ours q) p ↔
      FirstOrderFree ours old afterP afterQ p q := by
  rcases p with _ | s <;> rcases q with _ | t
  · simp [firstEdge, FirstOrderFree]
  · cases old <;> cases afterP <;> simp [firstEdge, FirstOrderFree, eq_comm]
  · cases old <;> cases afterQ <;> simp [firstEdge, FirstOrderFree, eq_comm]
  · cases afterP <;> cases afterQ
    · cases old <;> simp [firstEdge, FirstOrderFree, min_comm, min_left_comm]
    · have epoch := seedQ rfl
      have both : firstEdge false (firstEdge old ours (some s)) (some t) = min DateTime.unixEpoch s := by
        rw [← epoch]
        cases old <;> simp [firstEdge, min_comm, min_left_comm]
      rw [both]
      simp [firstEdge, FirstOrderFree]
    · have epoch := seedP rfl
      have both : firstEdge false (firstEdge old ours (some t)) (some s) = min DateTime.unixEpoch t := by
        rw [← epoch]
        cases old <;> simp [firstEdge, min_comm, min_left_comm]
      rw [both]
      simp [firstEdge, FirstOrderFree, eq_comm]
    · simp [firstEdge, FirstOrderFree, eq_comm]

theorem max_max_eq_middle {x y z : DateTime} : max (max x y) z = y ↔ z ≤ y ∧ x ≤ y := by
  simp [le_antisymm_iff, and_comm]

theorem lastEdge_comm_iff (ours : DateTime) (old afterP afterQ : Bool) (p q : Option DateTime) :
    lastEdge afterP (lastEdge old ours p) q = lastEdge afterQ (lastEdge old ours q) p ↔
      LastOrderFree ours old afterP afterQ p q := by
  rcases p with _ | s <;> rcases q with _ | t
  · simp [lastEdge, LastOrderFree]
  · cases old <;> cases afterP <;> simp [lastEdge, LastOrderFree, eq_comm]
  · cases old <;> cases afterQ <;> simp [lastEdge, LastOrderFree, eq_comm]
  · cases afterP <;> cases afterQ
    · cases old <;> simp [lastEdge, LastOrderFree, max_comm, max_left_comm]
    · cases old <;> simp [lastEdge, LastOrderFree, max_max_eq_middle]
    · rw [eq_comm]
      cases old <;> simp [lastEdge, LastOrderFree, max_max_eq_middle]
    · cases old <;> simp [lastEdge, LastOrderFree, eq_comm]

end Edges

/-- Merging two payloads gives the same record either way round exactly when the seen
window does not tell them apart. -/
theorem merge_order_free (a : Attribute) (p q : Merge) (mine : String) :
    SameRecord ((a.merge p mine).1.merge q mine).1 ((a.merge q mine).1.merge p mine).1 ↔
      a.OrderFree p q mine := by
  have first := firstEdge_comm_iff (a.firstEdge_of_unseenAfter p mine) (a.firstEdge_of_unseenAfter q mine)
  have last := lastEdge_comm_iff a.lastSeen a.unseen (a.unseenAfter p mine) (a.unseenAfter q mine)
    (DateTime.fromTimestamp p.lastSeen) (DateTime.fromTimestamp q.lastSeen)
  have tags : ((a.merge p mine).1.merge q mine).1.tagState =
      ((a.merge q mine).1.merge p mine).1.tagState := by
    simp only [merge_tagState, sup_right_comm]
  constructor
  · intro same
    have edges := And.intro same.firstSeen same.lastSeen
    simp only [merge_firstSeen, merge_lastSeen, unseen_merge] at edges
    exact ⟨first.mp edges.1, last.mp edges.2⟩
  · rintro ⟨firstFree, lastFree⟩
    refine {
      value := by simp
      counts := by simp only [merge_counts, sup_right_comm]
      stats := by simp only [merge_stats, sup_right_comm]
      firstSeen := by
        simp only [merge_firstSeen, unseen_merge]
        exact first.mpr firstFree
      lastSeen := by
        simp only [merge_lastSeen, unseen_merge]
        exact last.mpr lastFree
      ttl := by
        simp only [merge_ttl, mergeTtl_assoc, mergeTtl_comm p.ttl]
      tagsAt := congrArg Stamped.stamp tags
      tags := congrArg Stamped.content tags
      legacyCount := by simp
      legacyStats := by simp }

/-- A payload without counts that reaches back to the epoch leaves the value looking
unseen, so what comes after it seeds the window again. -/
theorem merge_order_matters :
    ¬ SameRecord
      (((new "v").merge ⟨∅, ∅, 0, 200, "", 0, 0⟩ "here").1.merge
        ⟨OrderedMap.empty.insert "there" 1, ∅, 50, 100, "", 0, 0⟩ "here").1
      (((new "v").merge ⟨OrderedMap.empty.insert "there" 1, ∅, 50, 100, "", 0, 0⟩ "here").1.merge
        ⟨∅, ∅, 0, 200, "", 0, 0⟩ "here").1 := by
  intro same
  exact absurd same.lastSeen (by decide)

/-! ## Repetition -/

/-- When a second delivery of `p` is a no-op: the value no longer looks unseen after the
first, or the second seeding finds both edges where the first left them. -/
def StaysPut (a : Attribute) (p : Merge) (mine : String) : Prop :=
  a.unseenAfter p mine = true → a.unseen = true ∨
    (∀ s ∈ DateTime.fromTimestamp p.firstSeen, s ≤ .unixEpoch) ∧
      ∀ t ∈ DateTime.fromTimestamp p.lastSeen, a.lastSeen ≤ t

/-- Everything a payload says, its window apart, is already known. -/
structure Covers (a : Attribute) (p : Merge) (mine : String) : Prop where
  counts : p.counts.erase mine ≤ a.counts
  stats : p.stats.erase mine ≤ a.stats
  tags : p.tagState ≤ a.tagState
  ttl : mergeTtl a.ttl p.ttl = a.ttl

theorem covers_merge_self (a : Attribute) (p : Merge) (mine : String) :
    (a.merge p mine).1.Covers p mine where
  counts := by simp only [merge_counts, le_sup_right]
  stats := by simp only [merge_stats, le_sup_right]
  tags := by simp only [merge_tagState, le_sup_right]
  ttl := by simp only [merge_ttl, mergeTtl_assoc, mergeTtl_self]

/-- Knowledge is never lost to a later merge. -/
theorem Covers.merge {a : Attribute} {p : Merge} {mine : String} (covers : a.Covers p mine)
    (q : Merge) : (a.merge q mine).1.Covers p mine where
  counts := by simpa only [merge_counts] using covers.counts.trans le_sup_left
  stats := by simpa only [merge_stats] using covers.stats.trans le_sup_left
  tags := by simpa only [merge_tagState] using covers.tags.trans le_sup_left
  ttl := by
    rw [merge_ttl, mergeTtl_assoc, mergeTtl_comm q.ttl, ← mergeTtl_assoc, covers.ttl]

theorem Covers.mergeAll {a : Attribute} {p : Merge} {mine : String} (covers : a.Covers p mine)
    (later : List Merge) : (a.mergeAll later mine).Covers p mine := by
  induction later generalizing a with
  | nil => exact covers
  | cons q rest ih => exact ih (covers.merge q)

/-- What a delivery leaves alone whatever was merged since the payload first arrived. -/
structure Absorbs (a : Attribute) (p : Merge) (mine : String) : Prop where
  counts : (a.merge p mine).1.counts = a.counts
  stats : (a.merge p mine).1.stats = a.stats
  tagsAt : (a.merge p mine).1.tagsAt = a.tagsAt
  ttl : (a.merge p mine).1.ttl = a.ttl

theorem Covers.absorbs {a : Attribute} {p : Merge} {mine : String} (covers : a.Covers p mine) :
    a.Absorbs p mine where
  counts := by simpa only [merge_counts, sup_eq_left] using covers.counts
  stats := by simpa only [merge_stats, sup_eq_left] using covers.stats
  tagsAt := by
    have tags : (a.merge p mine).1.tagState = a.tagState := by
      simpa only [merge_tagState, sup_eq_left] using covers.tags
    exact congrArg Stamped.stamp tags
  ttl := by simpa only [merge_ttl] using covers.ttl

/-- A covered payload changes nothing but, possibly, the window. -/
theorem Covers.idle_iff {a : Attribute} {p : Merge} {mine : String} (covers : a.Covers p mine) :
    (SameRecord (a.merge p mine).1 a ∧ (a.merge p mine).2.changed = false) ↔
      (a.merge p mine).1.firstSeen = a.firstSeen ∧ (a.merge p mine).1.lastSeen = a.lastSeen := by
  have absorbs := covers.absorbs
  have text := merge_tags_of_le a p mine covers.tags
  constructor
  · rintro ⟨same, _⟩
    exact ⟨same.firstSeen, same.lastSeen⟩
  · rintro ⟨first, last⟩
    refine ⟨⟨?_, absorbs.counts, absorbs.stats, first, last, absorbs.ttl, absorbs.tagsAt,
      congrArg tagSet text, ?_, ?_⟩, ?_⟩
    · simp
    · simp
    · simp
    · rw [merge_changed, raises_of_le covers.counts, raisesStats_of_le covers.stats, first, last, text,
        absorbs.ttl]
      simp

theorem firstEdge_twice_iff {ours : DateTime} {old after : Bool} {p : Option DateTime}
    (seed : after = true → firstEdge old ours p = .unixEpoch) :
    firstEdge after (firstEdge old ours p) p = firstEdge old ours p ↔
      (after = true → old = true ∨ ∀ s ∈ p, s ≤ .unixEpoch) := by
  cases p with
  | none => simp [firstEdge]
  | some s =>
      cases after with
      | false => cases old <;> simp [firstEdge]
      | true =>
          cases old with
          | true => simp [firstEdge]
          | false =>
              have epoch : min ours s = .unixEpoch := seed rfl
              have above : DateTime.unixEpoch ≤ s := epoch ▸ min_le_right ours s
              have pinned : s = .unixEpoch ↔ s ≤ .unixEpoch := ⟨le_of_eq, fun below => le_antisymm below above⟩
              simp [firstEdge, epoch, pinned]

theorem lastEdge_twice_iff (ours : DateTime) (old after : Bool) (p : Option DateTime) :
    lastEdge after (lastEdge old ours p) p = lastEdge old ours p ↔
      (after = true → old = true ∨ ∀ t ∈ p, ours ≤ t) := by
  cases p with
  | none => simp [lastEdge]
  | some t => cases after <;> cases old <;> simp [lastEdge]

/-- A second delivery in a row is a no-op and says so exactly when the window stays put;
a delivery at any later point changes no number, no replacement time and no lifetime. -/
theorem merge_redelivered (a : Attribute) (p : Merge) (mine : String) :
    ((SameRecord ((a.merge p mine).1.merge p mine).1 (a.merge p mine).1 ∧
        ((a.merge p mine).1.merge p mine).2.changed = false) ∧
      ∀ before after : List Merge, (a.mergeAll (before ++ p :: after) mine).Absorbs p mine) ↔
      a.StaysPut p mine := by
  have later : ∀ before after : List Merge,
      (a.mergeAll (before ++ p :: after) mine).Absorbs p mine := by
    intro before after
    simp only [mergeAll, List.foldl_append, List.foldl_cons]
    exact ((covers_merge_self _ p mine).mergeAll after).absorbs
  have first := firstEdge_twice_iff (a.firstEdge_of_unseenAfter p mine)
  have last := lastEdge_twice_iff a.lastSeen a.unseen (a.unseenAfter p mine)
    (DateTime.fromTimestamp p.lastSeen)
  rw [and_iff_left later, (covers_merge_self a p mine).idle_iff]
  simp only [merge_firstSeen, merge_lastSeen, unseen_merge, first, last, StaysPut, or_and_left,
    imp_and]

/-- After a first merge left the window closed, a payload that reaches back to the epoch
widens it once and then, still looking unseen, seeds it anew. -/
theorem merge_twice_moves_window :
    let a := ((new "v").merge ⟨∅, ∅, 100, 500, "", 0, 0⟩ "here").1
    let p : Merge := ⟨∅, ∅, 0, 50, "", 0, 0⟩
    ¬ (SameRecord ((a.merge p "here").1.merge p "here").1 (a.merge p "here").1 ∧
        ((a.merge p "here").1.merge p "here").2.changed = false) := by
  intro a p idle
  exact absurd idle.2 (by decide)

end Attribute
end SightingDB
