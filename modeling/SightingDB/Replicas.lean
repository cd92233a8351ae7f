import SightingDB.AttributeMerge
import SightingDB.Lib.Gossip
import Mathlib.Order.WithBot
import Mathlib.Order.Lattice
import Mathlib.Order.OrderDual

/-!
One value replicated over any number of servers. Each server counts under its own id,
replaces tags at its own clock, and exchanges copies with the others; copies are late,
repeated, out of order or lost.

The invariant behind everything is that each server is the authority on its own entry:
no copy anywhere says more about a server than the server itself.
-/
namespace SightingDB

/-! ## What a copy says, as a join semilattice -/

/-- A lifetime, ordered by caution: zero, which means never, is below every other and a
shorter one is above a longer one. -/
@[ext] structure Lifetime where
  secs : Nat
  deriving DecidableEq

namespace Lifetime

instance : Max Lifetime := ⟨fun x y => ⟨Attribute.mergeTtl x.secs y.secs⟩⟩

instance : SemilatticeSup Lifetime := SemilatticeSup.mk'
  (fun x y => Lifetime.ext (Attribute.mergeTtl_comm x.secs y.secs))
  (fun x y z => Lifetime.ext (Attribute.mergeTtl_assoc x.secs y.secs z.secs))
  (fun x => Lifetime.ext (Attribute.mergeTtl_self x.secs))

theorem mk_sup (x y : Nat) : (⟨x⟩ : Lifetime) ⊔ ⟨y⟩ = ⟨Attribute.mergeTtl x y⟩ := rfl

end Lifetime

/-- Everything a copy says: counts, buckets, window in seconds, tags, lifetime. -/
abbrev Summary :=
  Counts × OrderedMap String Buckets × Intᵒᵈ × Int × Stamped Int (Finset String) × Lifetime

/-- The part of it that local operations never take back. -/
abbrev Knowledge := Counts × OrderedMap String Buckets × Intᵒᵈ × Int × Int

def Merge.summary (p : Merge) : Summary :=
  (p.counts, p.stats, OrderDual.toDual p.firstSeen, p.lastSeen, p.tagState, ⟨p.ttl⟩)

def Attribute.summary (a : Attribute) : Summary := a.asMerge.summary

def Summary.knowledge : Summary → Knowledge
  | (counts, stats, first, last, tags, _) => (counts, stats, first, last, tags.stamp)

theorem Summary.knowledge_sup (x y : Summary) :
    Summary.knowledge (x ⊔ y) = Summary.knowledge x ⊔ Summary.knowledge y := by
  obtain ⟨_, _, _, _, _, _⟩ := x
  obtain ⟨_, _, _, _, _, _⟩ := y
  simp [Summary.knowledge]

namespace Attribute

/-- A merge is a join of what the two copies say, once the value has been seen, the
sender knows no more about the receiver than it does itself, and the times are times. -/
theorem summary_merge {a : Attribute} {p : Merge} {mine : String} (seen : a.unseen = false)
    (counts : ∀ c, p.counts.get mine = some c → ∃ c', a.counts.get mine = some c' ∧ c ≤ c')
    (stats : ∀ b, p.stats.get mine = some b → ∃ b', a.stats.get mine = some b' ∧ b ≤ b')
    {first last : DateTime} (hfirst : p.firstSeen = first.timestamp)
    (hlast : p.lastSeen = last.timestamp) :
    (a.merge p mine).1.summary = a.summary ⊔ p.summary := by
  have tags : (a.merge p mine).1.tagState = a.tagState ⊔ p.tagState := merge_tagState a p mine
  have edge : (a.merge p mine).1.firstSeen.timestamp = min a.firstSeen.timestamp p.firstSeen := by
    simp [hfirst, DateTime.fromTimestamp_timestamp, firstEdge, seen, DateTime.timestamp_min]
  have edge' : (a.merge p mine).1.lastSeen.timestamp = max a.lastSeen.timestamp p.lastSeen := by
    simp [hlast, DateTime.fromTimestamp_timestamp, lastEdge, seen, DateTime.timestamp_max]
  simp only [summary, Merge.summary, asMerge, Prod.mk_sup_mk, Prod.mk.injEq]
  refine ⟨?_, ?_, congrArg OrderDual.toDual edge, edge', tags, ?_⟩
  · rw [merge_counts, OrderedMap.sup_erase_of_covered counts]
  · rw [merge_stats, OrderedMap.sup_erase_of_covered stats]
  · rw [merge_ttl, Lifetime.mk_sup]

/-- A value merged for the first time is the copy it came from. -/
theorem summary_merge_new (value : String) {p : Merge} {mine : String}
    (counts : p.counts.get mine = none) (stats : p.stats.get mine = none) (clock : 0 ≤ p.tagsAt)
    {first last : DateTime} (hfirst : p.firstSeen = first.timestamp)
    (hlast : p.lastSeen = last.timestamp) :
    ((new value).merge p mine).1.summary = p.summary := by
  have unseen : (new value).unseen = true := by rfl
  have blank : (new value).tagState ≤ p.tagState := by
    refine Stamped.le_iff.mpr ?_
    rcases clock.lt_or_eq with later | tie
    · exact .inl later
    · exact .inr ⟨tie, by simp [tagState, new]⟩
  have tags : ((new value).merge p mine).1.tagState = p.tagState := by
    rw [merge_tagState, sup_eq_right.mpr blank]
  have edge : ((new value).merge p mine).1.firstSeen.timestamp = p.firstSeen := by
    simp [hfirst, DateTime.fromTimestamp_timestamp, firstEdge, unseen]
  have edge' : ((new value).merge p mine).1.lastSeen.timestamp = p.lastSeen := by
    simp [hlast, DateTime.fromTimestamp_timestamp, lastEdge, unseen]
  simp only [summary, Merge.summary, asMerge, Prod.mk.injEq]
  refine ⟨?_, ?_, congrArg OrderDual.toDual edge, edge', tags, ?_⟩
  · rw [merge_counts, OrderedMap.erase_absent _ counts]
    exact bot_sup_eq p.counts
  · rw [merge_stats, OrderedMap.erase_absent _ stats]
    exact bot_sup_eq p.stats
  · rw [merge_ttl]
    simp [new, mergeTtl]

end Attribute

/-! ## Runs -/

/-- What every server holds of the value, and every copy taken so far with its sender. -/
structure Replicas (ι : Type) where
  replica : ι → Option Attribute
  sent : List (ι × Merge)

namespace Replicas

inductive Event (ι : Type)
  | sight (i : ι) (when : DateTime) (ttl : Option Nat) (tags : String)
  | setTags (i : ι) (tags : String) (at_ : Int)
  | take (i : ι)
  | deliver (j : ι) (k : Nat)
  deriving DecidableEq

/-- Whether an event only moves copies about. -/
def Event.isExchange {ι : Type} : Event ι → Bool
  | .sight .. => false
  | .setTags .. => false
  | .take _ => true
  | .deliver .. => true

def Event.isSighting {ι : Type} : Event ι → Bool
  | .sight .. => true
  | _ => false

variable {ι : Type} (ids : ι → String) (value : String)

def start : Replicas ι := ⟨fun _ => none, []⟩

/-- A server's own contribution, as it holds it. -/
def ownCount (s : Replicas ι) (i : ι) : Option Nat := (s.replica i).bind (·.counts.get (ids i))

def ownStats (s : Replicas ι) (i : ι) : Option Buckets := (s.replica i).bind (·.stats.get (ids i))

/-- What holds after any run of `n` sightings. `truth` and `hours` gather every server's own
entries in one map. -/
structure Honest (s : Replicas ι) (n : Nat) (truth : Counts) (hours : OrderedMap String Buckets) :
    Prop where
  total : truth.total = n
  hourly : ∀ node buckets b h, hours.get node = some buckets → buckets.get b = some h → h ≤ n
  ownCount : ∀ i, s.ownCount ids i = truth.get (ids i)
  ownStats : ∀ i, s.ownStats ids i = hours.get (ids i)
  counts : ∀ i a, s.replica i = some a → a.counts ≤ truth
  stats : ∀ i a, s.replica i = some a → a.stats ≤ hours
  seen : ∀ i a, s.replica i = some a → 0 < a.counts.total
  clock : ∀ i a, s.replica i = some a → 0 ≤ a.tagsAt
  copy : ∀ e ∈ s.sent, ∃ a : Attribute, e.2 = a.asMerge ∧ a.counts ≤ truth ∧ a.stats ≤ hours ∧
    0 < a.counts.total ∧ 0 ≤ a.tagsAt
  behind : ∀ e ∈ s.sent, ∃ a, s.replica e.1 = some a ∧
    Summary.knowledge e.2.summary ≤ Summary.knowledge a.summary

theorem honest_start : Honest ids (start : Replicas ι) 0 ∅ ∅ where
  total := rfl
  hourly := by simp
  ownCount _ := rfl
  ownStats _ := rfl
  counts := by simp [start]
  stats := by simp [start]
  seen := by simp [start]
  clock := by simp [start]
  copy := by simp [start]
  behind := by simp [start]

/-- The cell a sighting or a merge works on, made when the value is not held yet. -/
def cell (s : Replicas ι) (i : ι) : Attribute := (s.replica i).getD (.new value)

/-- One more under a key. -/
def raisedBy {κ : Type} [LinearOrder κ] (m : OrderedMap κ Nat) (k : κ) : OrderedMap κ Nat :=
  m.insert k ((m.get k).getD 0 + 1)

theorem le_raisedBy {κ : Type} [LinearOrder κ] (m : OrderedMap κ Nat) (k : κ) :
    m ≤ raisedBy m k :=
  OrderedMap.le_insert m _ _ fun c found => by simp [found]

theorem le_insert_raisedBy (m : OrderedMap String Buckets) (node : String) (hour : Int) :
    m ≤ m.insert node (raisedBy ((m.get node).getD ∅) hour) :=
  OrderedMap.le_insert m _ _ fun own found => by
    simpa [found] using le_raisedBy own hour

section Cell

variable {ids} {s : Replicas ι} {n : Nat} {truth : Counts} {hours : OrderedMap String Buckets}

theorem Honest.cell_counts (honest : Honest ids s n truth hours) (i : ι) :
    (s.cell value i).counts ≤ truth ∧ (s.cell value i).counts.get (ids i) = truth.get (ids i) := by
  rw [← honest.ownCount i]
  cases held : s.replica i with
  | none => simpa [cell, Replicas.ownCount, held, Attribute.new] using OrderedMap.empty_le truth
  | some a => simpa [cell, Replicas.ownCount, held] using honest.counts i a held

theorem Honest.cell_stats (honest : Honest ids s n truth hours) (i : ι) :
    (s.cell value i).stats ≤ hours ∧ (s.cell value i).stats.get (ids i) = hours.get (ids i) := by
  rw [← honest.ownStats i]
  cases held : s.replica i with
  | none => simpa [cell, Replicas.ownStats, held, Attribute.new] using OrderedMap.empty_le hours
  | some a => simpa [cell, Replicas.ownStats, held] using honest.stats i a held

theorem Honest.cell_clock (honest : Honest ids s n truth hours) (i : ι) :
    0 ≤ (s.cell value i).tagsAt := by
  cases held : s.replica i with
  | none => simp [cell, held, Attribute.new]
  | some a => simpa [cell, held] using honest.clock i a held

/-- Below `2 ^ 64` sightings a value that is held never reads as a count of zero. -/
theorem Honest.count_ne_zero (honest : Honest ids s n truth hours) (few : n < u64Size) {i : ι}
    {a : Attribute} (held : s.replica i = some a) : a.count ≠ 0 := by
  have bound := OrderedMap.total_mono (honest.counts i a held)
  have positive := honest.seen i a held
  rw [honest.total] at bound
  rw [Attribute.count, Nat.mod_eq_of_lt (by omega)]
  omega

theorem Honest.copy_counts (honest : Honest ids s n truth hours) {e : ι × Merge}
    (member : e ∈ s.sent) (j : ι) :
    (∀ c, e.2.counts.get (ids j) = some c →
        ∃ c', (s.cell value j).counts.get (ids j) = some c' ∧ c ≤ c') ∧
      ∀ b, e.2.stats.get (ids j) = some b →
        ∃ b', (s.cell value j).stats.get (ids j) = some b' ∧ b ≤ b' := by
  obtain ⟨a, payload, counts, stats, _⟩ := honest.copy e member
  rw [(honest.cell_counts value j).2, (honest.cell_stats value j).2, payload]
  exact ⟨OrderedMap.le_iff_get.mp counts (ids j), OrderedMap.le_iff_get.mp stats (ids j)⟩

/-- Delivering a copy joins what it says to what the receiver holds, if anything. -/
theorem Honest.summary_deliver (honest : Honest ids s n truth hours) (few : n < u64Size)
    {e : ι × Merge} (member : e ∈ s.sent) (j : ι) :
    ((((s.cell value j).merge e.2 (ids j)).1.summary : Summary) : WithBot Summary) =
      (s.replica j).elim ⊥ (fun a => (a.summary : WithBot Summary)) ⊔ e.2.summary := by
  obtain ⟨a, payload, _, _, _, clock⟩ := honest.copy e member
  obtain ⟨counts, stats⟩ := honest.copy_counts value member j
  have first : e.2.firstSeen = a.firstSeen.timestamp := by rw [payload]; rfl
  have last : e.2.lastSeen = a.lastSeen.timestamp := by rw [payload]; rfl
  cases held : s.replica j with
  | none =>
      simp only [cell, held, Option.getD_none, Option.elim_none, bot_sup_eq] at counts stats ⊢
      refine congrArg _ (Attribute.summary_merge_new value ?_ ?_ (by rw [payload]; exact clock)
        first last)
      · exact Option.eq_none_iff_forall_ne_some.mpr fun c found => by simpa [Attribute.new] using counts c found
      · exact Option.eq_none_iff_forall_ne_some.mpr fun b found => by simpa [Attribute.new] using stats b found
  | some b =>
      have seen : b.unseen = false := by
        simp [Attribute.unseen, honest.count_ne_zero few held]
      simp only [cell, held, Option.getD_some, Option.elim_some] at counts stats ⊢
      rw [Attribute.summary_merge seen counts stats first last, WithBot.coe_sup]

theorem Honest.take (honest : Honest ids s n truth hours) {i : ι} {a : Attribute}
    (held : s.replica i = some a) :
    Honest ids { s with sent := s.sent ++ [(i, a.asMerge)] } n truth hours :=
  { honest with
    copy := by
      intro e member
      rcases List.mem_append.mp member with old | new
      · exact honest.copy e old
      · obtain rfl := List.mem_singleton.mp new
        exact ⟨a, rfl, honest.counts i a held, honest.stats i a held, honest.seen i a held,
          honest.clock i a held⟩
    behind := by
      intro e member
      rcases List.mem_append.mp member with old | new
      · exact honest.behind e old
      · obtain rfl := List.mem_singleton.mp new
        exact ⟨a, held, le_rfl⟩ }

theorem Honest.own_le (honest : Honest ids s n truth hours) (node : String) :
    (truth.get node).getD 0 ≤ n := by
  cases found : truth.get node with
  | none => simp
  | some c => simpa [← honest.total] using OrderedMap.le_total truth found

theorem Honest.bucket_le (honest : Honest ids s n truth hours) (node : String) {b : Int} {h : Nat}
    (found : ((hours.get node).getD ∅).get b = some h) : h ≤ n := by
  cases held : hours.get node with
  | none => simp [held] at found
  | some own => exact honest.hourly node own b h held (by simpa [held] using found)

theorem Honest.hour_le (honest : Honest ids s n truth hours) (node : String) (b : Int) :
    (((hours.get node).getD ∅).get b).getD 0 ≤ n := by
  cases found : ((hours.get node).getD ∅).get b with
  | none => simp
  | some h => simpa using honest.bucket_le node found

/-- No hour of the truth counts more than the sightings, the new one included. -/
theorem Honest.hourly_raised (honest : Honest ids s n truth hours) (node : String) (hour : Int) :
    ∀ node' own b h,
      (hours.insert node (raisedBy ((hours.get node).getD ∅) hour)).get node' = some own →
      own.get b = some h → h ≤ n + 1 := by
  intro node' own b h held found
  rw [OrderedMap.get_insert] at held
  split_ifs at held with same
  · obtain rfl := Option.some.inj held
    rw [raisedBy, OrderedMap.get_insert] at found
    split_ifs at found with hit
    · obtain rfl := Option.some.inj found
      have := honest.hour_le node hour
      omega
    · exact (honest.bucket_le node found).trans (Nat.le_succ n)
  · exact (honest.hourly node' own b h held found).trans (Nat.le_succ n)

end Cell

variable [DecidableEq ι]

def put (s : Replicas ι) (i : ι) (a : Attribute) : Replicas ι :=
  { s with replica := Function.update s.replica i (some a) }

/-- Nobody replaces tags of or offers a value it does not hold, and a copy goes to others. -/
def step (s : Replicas ι) : Event ι → Option (Replicas ι)
  | .sight i when ttl tags => some (s.put i ((s.cell value i).sighted (ids i) when ttl 0 tags))
  | .setTags i tags at_ => (s.replica i).map fun a => s.put i (a.setTags tags at_)
  | .take i => (s.replica i).map fun a => { s with sent := s.sent ++ [(i, a.asMerge)] }
  | .deliver j k =>
      match s.sent[k]? with
      | none => none
      | some (i, p) => if i = j then none else some (s.put j ((s.cell value j).merge p (ids j)).1)

def run (s : Replicas ι) : List (Event ι) → Option (Replicas ι)
  | [] => some s
  | e :: rest => (step ids value s e).bind fun s' => run s' rest

@[simp] theorem put_sent (s : Replicas ι) (i : ι) (a : Attribute) : (s.put i a).sent = s.sent := rfl

theorem put_replica (s : Replicas ι) (i j : ι) (a : Attribute) :
    (s.put i a).replica j = if j = i then some a else s.replica j := by
  simp only [put, Function.update_apply]

variable {ids value}

section Put

variable {s : Replicas ι} {n n' : Nat} {truth truth' : Counts}
  {hours hours' : OrderedMap String Buckets} {i : ι} {a : Attribute}

/-- One server changing its copy keeps everyone honest, if nobody else's own entries move,
its own are what it says they are, and it takes nothing back. -/
theorem Honest.put (honest : Honest ids s n truth hours) (total : truth'.total = n')
    (hourly : ∀ node buckets b h, hours'.get node = some buckets → buckets.get b = some h → h ≤ n')
    (above : truth ≤ truth') (later : hours ≤ hours')
    (others : ∀ j, j ≠ i → truth'.get (ids j) = truth.get (ids j))
    (otherHours : ∀ j, j ≠ i → hours'.get (ids j) = hours.get (ids j))
    (own : a.counts.get (ids i) = truth'.get (ids i))
    (ownHours : a.stats.get (ids i) = hours'.get (ids i))
    (counts : a.counts ≤ truth') (stats : a.stats ≤ hours') (seen : 0 < a.counts.total)
    (clock : 0 ≤ a.tagsAt)
    (grown : ∀ b, s.replica i = some b →
      Summary.knowledge b.summary ≤ Summary.knowledge a.summary) :
    Honest ids (s.put i a) n' truth' hours' where
  total := total
  hourly := hourly
  ownCount j := by
    by_cases same : j = i
    · subst same
      simp [Replicas.ownCount, put_replica, own]
    · rw [others j same, ← honest.ownCount j]
      simp [Replicas.ownCount, put_replica, same]
  ownStats j := by
    by_cases same : j = i
    · subst same
      simp [Replicas.ownStats, put_replica, ownHours]
    · rw [otherHours j same, ← honest.ownStats j]
      simp [Replicas.ownStats, put_replica, same]
  counts j b held := by
    rw [put_replica] at held
    split_ifs at held with same
    · exact Option.some.inj held ▸ counts
    · exact (honest.counts j b held).trans above
  stats j b held := by
    rw [put_replica] at held
    split_ifs at held with same
    · exact Option.some.inj held ▸ stats
    · exact (honest.stats j b held).trans later
  seen j b held := by
    rw [put_replica] at held
    split_ifs at held with same
    · exact Option.some.inj held ▸ seen
    · exact honest.seen j b held
  clock j b held := by
    rw [put_replica] at held
    split_ifs at held with same
    · exact Option.some.inj held ▸ clock
    · exact honest.clock j b held
  copy e member := by
    obtain ⟨b, payload, le, leStats, rest⟩ := honest.copy e member
    exact ⟨b, payload, le.trans above, leStats.trans later, rest⟩
  behind e member := by
    obtain ⟨b, held, le⟩ := honest.behind e member
    rw [put_replica]
    split_ifs with same
    · subst same
      exact ⟨a, rfl, le.trans (grown b held)⟩
    · exact ⟨b, held, le⟩

end Put

section Steps

variable {s t : Replicas ι} {n : Nat} {truth : Counts} {hours : OrderedMap String Buckets}

theorem addTo_eq {κ : Type} [LinearOrder κ] {m : OrderedMap κ Nat} {k : κ} {x : Nat}
    (small : (m.get k).getD 0 + x < u64Size) :
    Attribute.addTo m k x = m.insert k ((m.get k).getD 0 + x) := by
  rw [Attribute.addTo, Nat.mod_eq_of_lt small]

/-- A sighting of a value already counted only adds to what is known. -/
theorem knowledge_sighted {a : Attribute} {node : String} {when : DateTime} {ttl : Option Nat}
    {tags : String} (seen : a.count ≠ 0)
    (counts : a.counts ≤ Attribute.addTo a.counts node 1)
    (stats : a.stats ≤ (a.sighted node when ttl 0 tags).stats) :
    Summary.knowledge a.summary ≤ Summary.knowledge (a.sighted node when ttl 0 tags).summary := by
  have seen' : ∀ (ttl : Nat) (tags : String), { a with ttl := ttl, tags := tags }.count ≠ 0 :=
    fun _ _ => seen
  simp only [Summary.knowledge, Attribute.summary, Attribute.asMerge, Merge.summary, Merge.tagState,
    Prod.mk_le_mk]
  refine ⟨?_, stats, ?_, ?_, ?_⟩
  · simpa [Attribute.sighted_eq] using counts
  · refine OrderDual.toDual_le_toDual.mpr (DateTime.timestamp_mono ?_)
    simp [Attribute.sighted_eq, seen']
  · refine DateTime.timestamp_mono ?_
    simp [Attribute.sighted_eq, seen']
  · simp [Attribute.sighted_eq]

/-- What a sighting writes under the node's own name, where neither addition wraps. -/
theorem sighted_counts_small {a : Attribute} {node : String} (when : DateTime) (ttl : Option Nat)
    (tags : String) (small : (a.counts.get node).getD 0 + 1 < u64Size) :
    (a.sighted node when ttl 0 tags).counts =
      a.counts.insert node ((a.counts.get node).getD 0 + 1) := by
  rw [Attribute.sighted_eq, Attribute.increment_counts]
  exact addTo_eq small

theorem sighted_stats_small {a : Attribute} {node : String} {when : DateTime} (ttl : Option Nat)
    (tags : String)
    (small : (((a.stats.get node).getD ∅).get
      (when.timestamp / statsBucketSecs * statsBucketSecs)).getD 0 + 1 < u64Size) :
    (a.sighted node when ttl 0 tags).stats =
      a.stats.insert node (raisedBy ((a.stats.get node).getD ∅)
        (when.timestamp / statsBucketSecs * statsBucketSecs)) := by
  rw [Attribute.sighted_eq, Attribute.increment_stats_unlimited]
  exact congrArg (a.stats.insert node) (addTo_eq small)

theorem Honest.sight (honest : Honest ids s n truth hours) (distinct : Function.Injective ids)
    (few : n + 1 < u64Size) (i : ι) (when : DateTime) (ttl : Option Nat) (tags : String) :
    ∃ truth' hours', Honest ids
      (s.put i ((s.cell value i).sighted (ids i) when ttl 0 tags)) (n + 1) truth' hours' := by
  obtain ⟨countsBelow, ownCounts⟩ := honest.cell_counts value i
  obtain ⟨statsBelow, ownStats⟩ := honest.cell_stats value i
  let hour := when.timestamp / statsBucketSecs * statsBucketSecs
  let truth' := raisedBy truth (ids i)
  let hours' := hours.insert (ids i) (raisedBy ((hours.get (ids i)).getD ∅) hour)
  have countBound := honest.own_le (ids i)
  have hourBound := honest.hour_le (ids i) hour
  -- Neither addition wraps, so the copy is written exactly as the truth is.
  have counts : ((s.cell value i).sighted (ids i) when ttl 0 tags).counts =
      (s.cell value i).counts.insert (ids i) ((truth.get (ids i)).getD 0 + 1) := by
    rw [sighted_counts_small when ttl tags (by rw [ownCounts]; omega), ownCounts]
  have stats : ((s.cell value i).sighted (ids i) when ttl 0 tags).stats =
      (s.cell value i).stats.insert (ids i) (raisedBy ((hours.get (ids i)).getD ∅) hour) := by
    rw [sighted_stats_small ttl tags
      (by rw [ownStats]; exact (Nat.add_le_add_right hourBound 1).trans_lt few), ownStats]
  refine ⟨truth', hours', honest.put ?_ (honest.hourly_raised (ids i) hour) (le_raisedBy truth _)
    (le_insert_raisedBy hours _ _) ?_ ?_ ?_ ?_ ?_ ?_ ?_ ?_ ?_⟩
  · have := OrderedMap.total_insert truth (ids i) ((truth.get (ids i)).getD 0 + 1)
    rw [honest.total] at this
    change (truth.insert (ids i) ((truth.get (ids i)).getD 0 + 1)).total = n + 1
    omega
  · intro j hne
    exact OrderedMap.get_insert_of_ne _ _ fun same => hne (distinct same)
  · intro j hne
    exact OrderedMap.get_insert_of_ne _ _ fun same => hne (distinct same)
  · simp [counts, truth', raisedBy]
  · simp [stats, hours']
  · rw [counts]
    exact OrderedMap.insert_mono countsBelow _ _
  · rw [stats]
    exact OrderedMap.insert_mono statsBelow _ _
  · have positive := OrderedMap.le_total
      ((s.cell value i).sighted (ids i) when ttl 0 tags).counts (k := ids i)
      (v := (truth.get (ids i)).getD 0 + 1) (by simp [counts])
    omega
  · simpa [Attribute.sighted_eq] using honest.cell_clock value i
  · intro a held
    have same : s.cell value i = a := by simp [cell, held]
    rw [same] at stats ownCounts ownStats ⊢
    refine knowledge_sighted (honest.count_ne_zero (by omega) held) ?_ ?_
    · rw [addTo_eq (by rw [ownCounts]; omega)]
      exact le_raisedBy a.counts (ids i)
    · rw [stats, ← ownStats]
      exact le_insert_raisedBy a.stats (ids i) hour

theorem Honest.setTags (honest : Honest ids s n truth hours) {i : ι} {a : Attribute}
    (held : s.replica i = some a) (tags : String) (at_ : Int) :
    Honest ids (s.put i (a.setTags tags at_)) n truth hours := by
  have ownCount : a.counts.get (ids i) = truth.get (ids i) := by
    simpa [Replicas.ownCount, held] using honest.ownCount i
  have ownStats : a.stats.get (ids i) = hours.get (ids i) := by
    simpa [Replicas.ownStats, held] using honest.ownStats i
  refine honest.put honest.total honest.hourly le_rfl le_rfl (fun _ _ => rfl) (fun _ _ => rfl)
    ?_ ?_ ?_ ?_ ?_ ?_ ?_
  · rw [Attribute.setTags_counts, ownCount]
  · rw [Attribute.setTags_stats, ownStats]
  · rw [Attribute.setTags_counts]
    exact honest.counts i a held
  · rw [Attribute.setTags_stats]
    exact honest.stats i a held
  · rw [Attribute.setTags_counts]
    exact honest.seen i a held
  · rw [Attribute.setTags_tagsAt]
    exact (honest.clock i a held).trans (le_max_left _ _)
  · intro b held'
    obtain rfl : a = b := Option.some.inj (held.symm.trans held')
    simp [Summary.knowledge, Attribute.summary, Attribute.asMerge, Merge.summary, Merge.tagState,
      Attribute.setTags]

theorem Honest.deliver (honest : Honest ids s n truth hours) (few : n < u64Size) {e : ι × Merge}
    (member : e ∈ s.sent) (j : ι) :
    Honest ids (s.put j ((s.cell value j).merge e.2 (ids j)).1) n truth hours := by
  obtain ⟨b, payload, counts, stats, seen, _⟩ := honest.copy e member
  obtain ⟨cellCounts, ownCount⟩ := honest.cell_counts value j
  obtain ⟨cellStats, ownStats⟩ := honest.cell_stats value j
  have covered := (honest.copy_counts value member j).1
  refine honest.put honest.total honest.hourly le_rfl le_rfl (fun _ _ => rfl) (fun _ _ => rfl)
    ?_ ?_ ?_ ?_ ?_ ?_ ?_
  · rw [Attribute.merge_counts, OrderedMap.get_sup_erase_self, ownCount]
  · rw [Attribute.merge_stats, OrderedMap.get_sup_erase_self, ownStats]
  · rw [Attribute.merge_counts, payload]
    exact sup_le cellCounts ((OrderedMap.erase_le _ _).trans counts)
  · rw [Attribute.merge_stats, payload]
    exact sup_le cellStats ((OrderedMap.erase_le _ _).trans stats)
  · rw [Attribute.merge_counts, OrderedMap.sup_erase_of_covered covered, payload]
    exact lt_of_lt_of_le seen (OrderedMap.total_mono le_sup_right)
  · rw [Attribute.merge_tagsAt]
    exact (honest.cell_clock value j).trans (le_max_left _ _)
  · intro a held
    have joined := honest.summary_deliver value few member j
    rw [held, Option.elim_some, ← WithBot.coe_sup, WithBot.coe_inj] at joined
    rw [joined, Summary.knowledge_sup]
    exact le_sup_left

/-- Sightings among the events of a run. -/
def sightings (events : List (Event ι)) : Nat := events.countP Event.isSighting

theorem Honest.step (honest : Honest ids s n truth hours) (distinct : Function.Injective ids)
    {e : Event ι} (few : n + sightings [e] < u64Size) (stepped : step ids value s e = some t) :
    ∃ truth' hours', Honest ids t (n + sightings [e]) truth' hours' := by
  cases e with
  | sight i when ttl tags =>
      obtain rfl := Option.some.inj stepped
      exact honest.sight distinct few i when ttl tags
  | setTags i tags at_ =>
      obtain ⟨a, held, rfl⟩ := Option.map_eq_some_iff.mp stepped
      exact ⟨truth, hours, honest.setTags held tags at_⟩
  | take i =>
      obtain ⟨a, held, rfl⟩ := Option.map_eq_some_iff.mp stepped
      exact ⟨truth, hours, honest.take held⟩
  | deliver j k =>
      simp only [Replicas.step] at stepped
      split at stepped
      · cases stepped
      · rename_i i p found
        split_ifs at stepped with own
        obtain rfl := Option.some.inj stepped
        exact ⟨truth, hours, honest.deliver few (e := (i, p)) (List.mem_of_getElem? found) j⟩

/-- Every run of fewer than `2 ^ 64` sightings keeps everyone honest. -/
theorem Honest.run {events : List (Event ι)} (honest : Honest ids s n truth hours)
    (distinct : Function.Injective ids) (few : n + sightings events < u64Size)
    (ran : run ids value s events = some t) :
    ∃ truth' hours', Honest ids t (n + sightings events) truth' hours' := by
  induction events generalizing s n truth hours with
  | nil =>
      obtain rfl := Option.some.inj ran
      exact ⟨truth, hours, honest⟩
  | cons e rest ih =>
      obtain ⟨m, stepped, ranRest⟩ := Option.bind_eq_some_iff.mp ran
      have split : sightings (e :: rest) = sightings [e] + sightings rest := by
        simp [sightings, List.countP_cons, Nat.add_comm]
      rw [split, ← Nat.add_assoc] at few ⊢
      obtain ⟨truth', hours', honest'⟩ := honest.step distinct (by omega) stepped
      exact ih honest' few ranRest

end Steps

end Replicas
end SightingDB
