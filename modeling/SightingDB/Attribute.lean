import SightingDB.Lib.OrderedMap
import SightingDB.Clock
import SightingDB.Tags
import Mathlib.Data.Int.Order.Lemmas

/-!
One value observed in a namespace, with the bookkeeping kept about it: sightings per
server, hourly buckets per server, the seen window, tags and expiry.

Totals are `u64` and wrap in a release build, so every addition is taken modulo `2 ^ 64`.
-/
namespace SightingDB

/-- Sightings per node id. -/
abbrev Counts := OrderedMap String Nat

/-- Sightings per hour start, in Unix seconds. -/
abbrev Buckets := OrderedMap Int Nat

def u64Size : Nat := 2 ^ 64

def i64Max : Int := 2 ^ 63 - 1

/-- Statistics are bucketed per hour. -/
def statsBucketSecs : Int := 3600

@[ext] structure Attribute where
  value : String
  firstSeen : DateTime
  lastSeen : DateTime
  counts : Counts
  tags : String
  tagsAt : Int
  ttl : Nat
  stats : OrderedMap String Buckets
  legacyCount : Nat
  legacyStats : Buckets
  deriving DecidableEq

/-- One value as a peer holds it, for merging into a local copy. -/
structure Merge where
  counts : Counts
  stats : OrderedMap String Buckets
  firstSeen : Int
  lastSeen : Int
  tags : String
  tagsAt : Int
  ttl : Nat
  deriving DecidableEq

/-- What a merge changed. -/
structure Merged where
  changed : Bool
  ignoredSelf : Nat
  count : Nat
  deriving DecidableEq

/-- The wire representation of an attribute. -/
structure AttributeView where
  value : String
  firstSeen : Int
  lastSeen : Int
  count : Nat
  tags : String
  ttl : Nat
  consensus : Nat
  stats : Option Buckets
  deriving DecidableEq

namespace Attribute

def new (value : String) : Attribute where
  value := value
  firstSeen := .unixEpoch
  lastSeen := .unixEpoch
  counts := ∅
  tags := ""
  tagsAt := 0
  ttl := 0
  stats := ∅
  legacyCount := 0
  legacyStats := ∅

/-- Every server's sightings added together, in `u64`. -/
def count (a : Attribute) : Nat := a.counts.total % u64Size

/-- `*map.entry(key).or_insert(0) += n` in `u64`. -/
def addTo {κ : Type} [LinearOrder κ] (m : OrderedMap κ Nat) (k : κ) (n : Nat) : OrderedMap κ Nat :=
  m.insert k (((m.get k).getD 0 + n) % u64Size)

/-- Fold a total written by an older build into `node`'s entry. -/
def migrate (a : Attribute) (node : String) : Attribute :=
  let a := if 0 < a.legacyCount then
      { a with counts := addTo a.counts node a.legacyCount, legacyCount := 0 }
    else a
  if a.legacyStats.entries ≠ [] then
    let buckets := a.legacyStats.entries.foldl (fun acc e => addTo acc e.1 e.2)
      ((a.stats.get node).getD ∅)
    { a with stats := a.stats.insert node buckets, legacyStats := ∅ }
  else a

def makeStats (a : Attribute) (node : String) (when : DateTime) : Attribute :=
  let bucket := when.timestamp / statsBucketSecs * statsBucketSecs
  { a with stats := a.stats.insert node (addTo ((a.stats.get node).getD ∅) bucket 1) }

/-- Drop the oldest buckets of one node, keeping `keep` of them; 0 keeps all. -/
def trimStats (a : Attribute) (node : String) (keep : Nat) : Attribute :=
  match a.stats.get node with
  | none => a
  | some buckets =>
      if keep = 0 ∨ buckets.size ≤ keep then a
      else
        let oldest := buckets.keys.take (buckets.size - keep)
        { a with stats := a.stats.insert node (oldest.foldl OrderedMap.erase buckets) }

/-- Record one sighting at `when`, counted as `node`'s contribution. -/
def increment (a : Attribute) (node : String) (when : DateTime) (statsRetention : Nat) :
    Attribute :=
  let a := if a.count = 0 then { a with firstSeen := when, lastSeen := when }
    else
      let a := if when < a.firstSeen then { a with firstSeen := when } else a
      if a.lastSeen < when then { a with lastSeen := when } else a
  let a := (a.makeStats node when).trimStats node statsRetention
  { a with counts := addTo a.counts node 1 }

/-- Undo one sighting of `node`, returning the total that remains. -/
def decrement (a : Attribute) (node : String) : Attribute × Nat :=
  let a := match a.counts.get node with
    | none => a
    | some mine =>
        if mine - 1 = 0 then { a with counts := a.counts.erase node }
        else { a with counts := a.counts.insert node (mine - 1) }
  (a, a.count)

def setTtl (a : Attribute) (ttl : Nat) : Attribute := { a with ttl := ttl }

/-- Merge `tags` into the set already held, dropping repeats. -/
def addTags (a : Attribute) (tags : String) : Attribute :=
  { a with tags := unionTags a.tags tags }

/-- Replace the whole set; the time of the replacement never goes backwards. -/
def setTags (a : Attribute) (tags : String) (at_ : Int) : Attribute :=
  { a with tags := joinTags (cleanTags tags), tagsAt := max a.tagsAt at_ }

/-- What recording a sighting does to the value's cell, on the fast and on the slow path. -/
def sighted (a : Attribute) (node : String) (when : DateTime) (ttl : Option Nat)
    (retention : Nat) (tags : String) : Attribute :=
  let a := match ttl with
    | none => a
    | some ttl => a.setTtl ttl
  let a := if tags = "" then a else a.addTags tags
  a.increment node when retention

/-- This value as a peer should be offered it. -/
def asMerge (a : Attribute) : Merge where
  counts := a.counts
  stats := a.stats
  firstSeen := a.firstSeen.timestamp
  lastSeen := a.lastSeen.timestamp
  tags := a.tags
  tagsAt := a.tagsAt
  ttl := a.ttl

/-- Whether the value still looks as `new` left it, tested before anything is merged. -/
def unseen (a : Attribute) : Bool := a.count = 0 && a.firstSeen = .unixEpoch

/-- `entry(key).or_insert(0)`, raised when the incoming number is greater. -/
def raiseEntry {κ : Type} [LinearOrder κ] (acc : OrderedMap κ Nat × Bool) (e : κ × Nat) :
    OrderedMap κ Nat × Bool :=
  let entry := (acc.1.get e.1).getD 0
  if entry < e.2 then (acc.1.insert e.1 e.2, true) else (acc.1.insert e.1 entry, acc.2)

def mergeCounts (mine : String) (ours theirs : Counts) : (Counts × Bool) × Nat :=
  theirs.entries.foldl
    (fun acc e => if e.1 = mine then (acc.1, acc.2 + 1) else (raiseEntry acc.1 e, acc.2))
    ((ours, false), 0)

def mergeBuckets (acc : OrderedMap String Buckets × Bool) (e : String × Buckets) :
    OrderedMap String Buckets × Bool :=
  let merged := e.2.entries.foldl raiseEntry ((acc.1.get e.1).getD ∅, acc.2)
  (acc.1.insert e.1 merged.1, merged.2)

def mergeStats (mine : String) (ours theirs : OrderedMap String Buckets) (changed : Bool) :
    OrderedMap String Buckets × Bool :=
  theirs.entries.foldl (fun acc e => if e.1 = mine then acc else mergeBuckets acc e) (ours, changed)

/-- One edge of the seen window: taken from the peer when it is a representable time and
the value was unseen or the peer's edge lies further out. -/
def mergeEdge (further : DateTime → DateTime → Bool) (unseen : Bool) (ours : DateTime)
    (theirs : Int) : DateTime × Bool :=
  match DateTime.fromTimestamp theirs with
  | none => (ours, false)
  | some theirs =>
      if unseen || further theirs ours then (theirs, decide (theirs ≠ ours)) else (ours, false)

def mergeFirst : Bool → DateTime → Int → DateTime × Bool := mergeEdge fun theirs ours => theirs < ours

def mergeLast : Bool → DateTime → Int → DateTime × Bool := mergeEdge fun theirs ours => ours < theirs

/-- A union of tags, except where one side replaced its set more recently. -/
def mergeTags (a : Attribute) (incoming : Merge) : Attribute :=
  if a.tagsAt < incoming.tagsAt then { a with tags := incoming.tags, tagsAt := incoming.tagsAt }
  else if incoming.tagsAt < a.tagsAt then a
  else if incoming.tags ≠ "" then a.addTags incoming.tags
  else a

/-- The shortest of the non-zero ones, with zero meaning never. -/
def mergeTtl (ours theirs : Nat) : Nat :=
  if ours = 0 then theirs else if theirs = 0 then ours else min ours theirs

/-- Fold a peer's copy of this value into ours. An entry under `mine` is ignored. -/
def merge (a : Attribute) (incoming : Merge) (mine : String) : Attribute × Merged :=
  let unseen := a.unseen
  let ((counts, countsChanged), ignoredSelf) := mergeCounts mine a.counts incoming.counts
  let (stats, statsChanged) := mergeStats mine a.stats incoming.stats countsChanged
  let (firstSeen, firstChanged) := mergeFirst unseen a.firstSeen incoming.firstSeen
  let (lastSeen, lastChanged) := mergeLast unseen a.lastSeen incoming.lastSeen
  let tagged := { a with
    counts := counts, stats := stats, firstSeen := firstSeen, lastSeen := lastSeen }.mergeTags incoming
  let ttl := mergeTtl a.ttl incoming.ttl
  let merged := { tagged with ttl := ttl }
  (merged,
    { changed := statsChanged || firstChanged || lastChanged || decide (tagged.tags ≠ a.tags) ||
        decide (ttl ≠ a.ttl)
      ignoredSelf := ignoredSelf
      count := merged.count })

/-- When this attribute stops being visible; the sum saturates in `i64`. -/
def expiresAt (a : Attribute) : Option Int :=
  if 0 < a.ttl then some (min i64Max (a.lastSeen.timestamp + min i64Max (a.ttl : Int))) else none

/-- A TTL is measured from the last sighting. -/
def isExpired (a : Attribute) (now : DateTime) : Bool :=
  match a.expiresAt with
  | none => false
  | some deadline => deadline < now.timestamp

/-- Every server's buckets added together. -/
def mergedStats (a : Attribute) : Buckets :=
  a.stats.entries.foldl
    (fun merged e => e.2.entries.foldl (fun merged b => addTo merged b.1 b.2) merged) ∅

def view (a : Attribute) (consensus : Nat) (withStats : Bool) : AttributeView where
  value := a.value
  firstSeen := a.firstSeen.timestamp
  lastSeen := a.lastSeen.timestamp
  count := a.count
  tags := a.tags
  ttl := a.ttl
  consensus := consensus
  stats := if withStats then some a.mergedStats else none

/-! ## What a sighting does, field by field -/

section Fields

variable (a : Attribute) (node : String) (when : DateTime) (retention : Nat)

theorem trimStats_ignores (keep : Nat) :
    a.trimStats node keep = { a with stats := (a.trimStats node keep).stats } := by
  simp only [trimStats]
  split
  · rfl
  · split_ifs <;> rfl

@[simp] theorem trimStats_zero : a.trimStats node 0 = a := by
  simp only [trimStats]
  split <;> simp

@[simp] theorem increment_counts : (a.increment node when retention).counts = addTo a.counts node 1 := by
  simp only [increment]
  rw [trimStats_ignores]
  simp only [makeStats]
  split_ifs <;> rfl

@[simp] theorem increment_firstSeen : (a.increment node when retention).firstSeen =
    if a.count = 0 then when else min a.firstSeen when := by
  simp only [increment]
  rw [trimStats_ignores]
  simp only [makeStats]
  split_ifs with none earlier later later
  · rfl
  · exact (min_eq_right earlier.le).symm
  · exact (min_eq_right earlier.le).symm
  · exact (min_eq_left (not_lt.mp earlier)).symm
  · exact (min_eq_left (not_lt.mp earlier)).symm

@[simp] theorem increment_lastSeen : (a.increment node when retention).lastSeen =
    if a.count = 0 then when else max a.lastSeen when := by
  simp only [increment]
  rw [trimStats_ignores]
  simp only [makeStats]
  split_ifs with none earlier later later
  · rfl
  · exact (max_eq_right later.le).symm
  · exact (max_eq_left (not_lt.mp later)).symm
  · exact (max_eq_right later.le).symm
  · exact (max_eq_left (not_lt.mp later)).symm

/-- Without a retention limit a sighting only adds to its own hour. -/
theorem increment_stats_unlimited : (a.increment node when 0).stats =
    a.stats.insert node (addTo ((a.stats.get node).getD ∅)
      (when.timestamp / statsBucketSecs * statsBucketSecs) 1) := by
  simp only [increment, trimStats_zero, makeStats]
  split_ifs <;> rfl

/-- A sighting leaves tags, lifetime and what an older build left alone. -/
theorem increment_ignores : a.increment node when retention =
    { a with
      firstSeen := (a.increment node when retention).firstSeen
      lastSeen := (a.increment node when retention).lastSeen
      counts := (a.increment node when retention).counts
      stats := (a.increment node when retention).stats } := by
  simp only [increment]
  rw [trimStats_ignores]
  simp only [makeStats]
  split_ifs <;> rfl

@[simp] theorem increment_value : (a.increment node when retention).value = a.value := by
  rw [increment_ignores]

@[simp] theorem increment_tags : (a.increment node when retention).tags = a.tags := by
  rw [increment_ignores]

@[simp] theorem increment_tagsAt : (a.increment node when retention).tagsAt = a.tagsAt := by
  rw [increment_ignores]

@[simp] theorem increment_ttl : (a.increment node when retention).ttl = a.ttl := by
  rw [increment_ignores]

@[simp] theorem increment_legacyCount : (a.increment node when retention).legacyCount = a.legacyCount := by
  rw [increment_ignores]

@[simp] theorem increment_legacyStats : (a.increment node when retention).legacyStats = a.legacyStats := by
  rw [increment_ignores]

/-- Lifetime and tags are set before the sighting is counted; neither can see the other. -/
theorem sighted_eq (ttl : Option Nat) (tags : String) :
    a.sighted node when ttl retention tags =
      { a with
        ttl := ttl.getD a.ttl
        tags := if tags = "" then a.tags else unionTags a.tags tags }.increment node when retention := by
  simp only [sighted, setTtl, addTags]
  cases ttl <;> by_cases blank : tags = "" <;> simp [blank]

@[simp] theorem setTags_counts (tags : String) (at_ : Int) : (a.setTags tags at_).counts = a.counts := by
  simp only [setTags]

@[simp] theorem setTags_stats (tags : String) (at_ : Int) : (a.setTags tags at_).stats = a.stats := by
  simp only [setTags]

@[simp] theorem setTags_tagsAt (tags : String) (at_ : Int) :
    (a.setTags tags at_).tagsAt = max a.tagsAt at_ := by
  simp only [setTags]

/-- Without a lifetime nothing expires. -/
theorem isExpired_of_ttl {a : Attribute} (never : a.ttl = 0) (now : DateTime) :
    a.isExpired now = false := by
  simp [isExpired, expiresAt, never]

theorem decrement_snd : (a.decrement node).2 = (a.decrement node).1.count := rfl

/-- Giving back what one server put in leaves everything but its own entry. -/
theorem decrement_fst {a : Attribute} {node : String} {mine : Nat}
    (found : a.counts.get node = some mine) :
    (a.decrement node).1 = { a with counts :=
      if mine - 1 = 0 then a.counts.erase node else a.counts.insert node (mine - 1) } := by
  simp only [decrement, found]
  split <;> rfl

end Fields

end Attribute
end SightingDB
