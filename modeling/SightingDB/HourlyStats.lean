import SightingDB.AttributeMerge
import SightingDB.Lib.Largest
import SightingDB.Lib.Ranks

/-!
The hours of one server. Each sighting is counted in its hour and the oldest hours over the
retention are dropped at once; an hour that was dropped can be opened again only to be dropped
with it, so what is kept is complete.
-/
namespace SightingDB

/-- The start of the hour a sighting falls in. -/
def hourStart (when : DateTime) : Int := when.timestamp / statsBucketSecs * statsBucketSecs

theorem hourStart_spec (when : DateTime) :
    statsBucketSecs ∣ hourStart when ∧ hourStart when ≤ when.timestamp ∧ when.timestamp < hourStart when + statsBucketSecs := by
  rw [hourStart]
  refine ⟨Int.dvd_mul_left _ _, ?_, ?_⟩ <;> simp only [statsBucketSecs] <;> omega

/-- The hours a retention keeps of those seen; zero keeps all. -/
def retained (k : Nat) (hours : Finset Int) : Finset Int := if k = 0 then hours else Largest.largest k hours

theorem retained_subset (k : Nat) (hours : Finset Int) : retained k hours ⊆ hours := by
  rw [retained]
  split_ifs
  · exact Finset.Subset.refl _
  · exact Largest.largest_subset

theorem retained_insert (k : Nat) (hour : Int) (hours : Finset Int) :
    retained k (insert hour (retained k hours)) = retained k (insert hour hours) := by
  rw [retained, retained, retained]
  split_ifs
  · rfl
  · exact Largest.largest_insert

namespace Attribute

/-- The buckets of one server. -/
def bucketsOf (a : Attribute) (node : String) : Buckets := (a.stats.get node).getD ∅

/-! ## One sighting -/

theorem get_trimStats (a : Attribute) (node : String) (keep : Nat) (hour : Int) :
    ((a.trimStats node keep).bucketsOf node).get hour =
      if hour ∈ retained keep (a.bucketsOf node).keys.toFinset then (a.bucketsOf node).get hour else none := by
  have above (buckets : Buckets) : (buckets.keys.toFinset.filter (hour < ·)).card = buckets.keys.countP (hour < ·) := by
    have listed : buckets.keys.toFinset.filter (hour < ·) = (buckets.keys.filter (hour < ·)).toFinset := by
      ext x
      simp
    rw [listed, List.toFinset_card_of_nodup (buckets.keys_nodup.filter _), List.countP_eq_length_filter]
  rw [bucketsOf, bucketsOf, trimStats]
  cases found : a.stats.get node with
  | none =>
      simp only [found, Option.getD_none, OrderedMap.get_empty, ite_self]
  | some buckets =>
      simp only [Option.getD_some]
      by_cases member : hour ∈ buckets.keys
      · have counted := Ranks.rank_add_above buckets.keys_sorted member
        have length : buckets.keys.length = buckets.size := List.length_map _
        have kept : hour ∈ retained keep buckets.keys.toFinset ↔ keep = 0 ∨ buckets.keys.countP (hour < ·) < keep := by
          rw [retained]
          split_ifs with all
          · simp [all, member]
          · rw [Largest.mem_largest, above, List.mem_toFinset]
            simp [all, member]
        by_cases room : keep = 0 ∨ buckets.size ≤ keep
        · rw [if_pos room, found, if_pos (kept.mpr (room.imp_right fun _ => by omega))]
          rfl
        · rw [if_neg room, OrderedMap.get_insert_self, Option.getD_some, OrderedMap.get_foldl_erase]
          have oldest := @Ranks.mem_take Int _ _ buckets.keys_sorted hour member (buckets.size - keep)
          by_cases young : buckets.keys.countP (hour < ·) < keep
          · rw [if_pos (kept.mpr (.inr young)), if_neg]
            rw [oldest]
            omega
          · rw [if_neg (fun held => (kept.mp held).elim (fun all => room (.inl all)) young), if_pos]
            rw [oldest]
            omega
      · have nothing : buckets.get hour = none := by
          cases there : buckets.get hour with
          | none => rfl
          | some n => exact absurd (OrderedMap.mem_keys.mpr ⟨n, there⟩) member
        rw [nothing, ite_self]
        split_ifs
        · rw [found]
          exact nothing
        · rw [OrderedMap.get_insert_self, Option.getD_some, OrderedMap.get_foldl_erase, nothing, ite_self]

theorem bucketsOf_makeStats (a : Attribute) (node : String) (when : DateTime) :
    (a.makeStats node when).bucketsOf node = addTo (a.bucketsOf node) (hourStart when) 1 := by
  rw [bucketsOf, makeStats]
  simp only [OrderedMap.get_insert_self, Option.getD_some]
  rfl

theorem stats_increment (a : Attribute) (node : String) (when : DateTime) (k : Nat) :
    (a.increment node when k).stats = ((a.makeStats node when).trimStats node k).stats := by
  have same : ∀ b : Attribute, b.stats = a.stats →
      ((b.makeStats node when).trimStats node k).stats = ((a.makeStats node when).trimStats node k).stats := fun b kept => by
    have made : (b.makeStats node when).stats = (a.makeStats node when).stats := by simp only [makeStats, kept]
    simp only [trimStats, made]
    split
    · exact made
    · split_ifs
      · exact made
      · rfl
  rw [increment]
  refine same _ ?_
  split_ifs
  · rfl
  all_goals dsimp only; split_ifs <;> rfl

/-- A sighting is counted in its hour, and the newest hours stay. -/
theorem get_increment (a : Attribute) (node : String) (when : DateTime) (k : Nat) (hour : Int) :
    ((a.increment node when k).bucketsOf node).get hour =
      if hour ∈ retained k (insert (hourStart when) (a.bucketsOf node).keys.toFinset) then
        (addTo (a.bucketsOf node) (hourStart when) 1).get hour
      else none := by
  have keys : (addTo (a.bucketsOf node) (hourStart when) 1).keys.toFinset =
      insert (hourStart when) (a.bucketsOf node).keys.toFinset := by
    ext x
    rw [Finset.mem_insert, List.mem_toFinset, List.mem_toFinset, OrderedMap.mem_keys, OrderedMap.mem_keys, addTo]
    by_cases same : x = hourStart when <;> simp [OrderedMap.get_insert, same]
  rw [bucketsOf, stats_increment]
  have trimmed := get_trimStats (a.makeStats node when) node k hour
  rwa [bucketsOf_makeStats, keys] at trimmed

theorem stats_increment_other (a : Attribute) {node other : String} (differ : other ≠ node) (when : DateTime) (k : Nat) :
    (a.increment node when k).stats.get other = a.stats.get other := by
  have made : (a.makeStats node when).stats.get other = a.stats.get other := by
    simp only [makeStats]
    exact OrderedMap.get_insert_of_ne _ _ differ
  rw [stats_increment, ← made, trimStats]
  split
  · rfl
  · split_ifs
    · rfl
    · exact OrderedMap.get_insert_of_ne _ _ differ

end Attribute

/-! ## Runs -/

/-- A sighting counted for a server, or a peer's copy merged in. -/
inductive HourEvent
  | increment (node : String) (when : DateTime)
  | merge (payload : Merge)

namespace HourEvent

/-- What an event does to a value at a server that keeps `k` hours. -/
def apply (mine : String) (k : Nat) (a : Attribute) : HourEvent → Attribute
  | increment node when => a.increment node when k
  | merge payload => (a.merge payload mine).1

/-- The hour of a sighting of the server's own. -/
def ownHour (mine : String) : HourEvent → Option Int
  | increment node when => if node = mine then some (hourStart when) else none
  | merge _ => none

/-- A value from its first event on. -/
def run (mine value : String) (k : Nat) (events : List HourEvent) : Attribute :=
  events.foldl (apply mine k) (.new value)

/-- The hours of the server's own sightings. -/
def ownHours (mine : String) (events : List HourEvent) : List Int := events.filterMap (ownHour mine)

end HourEvent

/-- The buckets of a server say how often each hour was seen, for the hours that are kept. -/
structure Attribute.Tells (a : Attribute) (mine : String) (k : Nat) (hours : List Int) : Prop where
  bucket : ∀ hour, (a.bucketsOf mine).get hour =
    if hour ∈ retained k hours.toFinset then some (hours.count hour % u64Size) else none
  count : (a.counts.get mine).getD 0 = hours.length % u64Size
  sum : k = 0 → (a.bucketsOf mine).total % u64Size = hours.length % u64Size

namespace Attribute.Tells

variable {a : Attribute} {mine : String} {k : Nat} {hours : List Int}

theorem new (mine value : String) (k : Nat) : (Attribute.new value).Tells mine k [] where
  bucket hour := by
    have none : hour ∉ retained k ([] : List Int).toFinset := fun kept => by
      simpa using retained_subset k _ kept
    rw [if_neg none]
    rfl
  count := rfl
  sum _ := rfl

theorem keys (tells : a.Tells mine k hours) : (a.bucketsOf mine).keys.toFinset = retained k hours.toFinset := by
  ext hour
  rw [List.mem_toFinset, OrderedMap.mem_keys, tells.bucket]
  split_ifs with kept <;> simp [kept]

/-- One more sighting. An hour that comes up and was not there is a new one, or is dropped
again. -/
theorem increment (tells : a.Tells mine k hours) (when : DateTime) :
    (a.increment mine when k).Tells mine k (hours ++ [hourStart when]) where
  bucket hour := by
    have seen : (hours ++ [hourStart when]).toFinset = insert (hourStart when) hours.toFinset := by
      ext x
      simp [or_comm]
    rw [get_increment, tells.keys, retained_insert, seen]
    refine ite_congr rfl (fun kept => ?_) fun _ => rfl
    rw [← retained_insert] at kept
    rw [addTo, OrderedMap.get_insert, tells.bucket, tells.bucket, List.count_append]
    by_cases same : hour = hourStart when
    · subst same
      rw [if_pos rfl, List.count_singleton_self]
      by_cases before : hourStart when ∈ retained k hours.toFinset
      · rw [if_pos before, Option.getD_some, Nat.mod_add_mod]
      · have fresh : hourStart when ∉ hours.toFinset := fun old => before (by
          rwa [retained_insert, Finset.insert_eq_of_mem old] at kept)
        rw [if_neg before, List.count_eq_zero.mpr (by simpa using fresh)]
        rfl
    · have before : hour ∈ retained k hours.toFinset := by
        rcases Finset.mem_insert.mp (retained_subset _ _ kept) with new | old
        · exact absurd new same
        · exact old
      rw [if_neg same, if_pos before, List.count_singleton, if_neg (by simpa using Ne.symm same), Nat.add_zero]
  count := by
    rw [Attribute.increment_counts, addTo, OrderedMap.get_insert_self, Option.getD_some, tells.count, List.length_append,
      List.length_singleton, Nat.mod_add_mod]
  sum all := by
    subst all
    have stats := Attribute.increment_stats_unlimited a mine when
    have before := tells.sum rfl
    have step := (a.bucketsOf mine).total_insert (hourStart when) ((((a.bucketsOf mine).get (hourStart when)).getD 0 + 1) % u64Size)
    have after : ((a.increment mine when 0).bucketsOf mine) = addTo (a.bucketsOf mine) (hourStart when) 1 := by
      rw [bucketsOf, stats, OrderedMap.get_insert_self]
      rfl
    rw [after, addTo, List.length_append, List.length_singleton]
    simp only [u64Size] at before step ⊢
    omega

theorem increment_other (tells : a.Tells mine k hours) {node : String} (other : node ≠ mine) (when : DateTime) :
    (a.increment node when k).Tells mine k hours := by
  have buckets : (a.increment node when k).bucketsOf mine = a.bucketsOf mine := by
    rw [bucketsOf, bucketsOf, stats_increment_other a (Ne.symm other)]
  refine ⟨fun hour => ?_, ?_, fun all => ?_⟩
  · rw [buckets]
    exact tells.bucket hour
  · rw [increment_counts, addTo, OrderedMap.get_insert_of_ne _ _ (Ne.symm other)]
    exact tells.count
  · rw [buckets]
    exact tells.sum all

/-- A peer's copy says nothing about the server's own hours. -/
theorem merge (tells : a.Tells mine k hours) (p : Merge) : (a.merge p mine).1.Tells mine k hours := by
  have buckets : (a.merge p mine).1.bucketsOf mine = a.bucketsOf mine := by
    rw [bucketsOf, bucketsOf, merge_stats, OrderedMap.get_sup_erase_self]
  refine ⟨fun hour => ?_, ?_, fun all => ?_⟩
  · rw [buckets]
    exact tells.bucket hour
  · rw [merge_counts, OrderedMap.get_sup_erase_self]
    exact tells.count
  · rw [buckets]
    exact tells.sum all

end Attribute.Tells

namespace HourEvent

theorem run_tells (mine value : String) (k : Nat) (events : List HourEvent) :
    (run mine value k events).Tells mine k (ownHours mine events) := by
  induction events using List.reverseRecOn with
  | nil => exact .new mine value k
  | append_singleton before e ih =>
      rw [run, List.foldl_append, List.foldl_cons, List.foldl_nil, ownHours, List.filterMap_append]
      cases e with
      | merge p =>
          have none : [HourEvent.merge p].filterMap (ownHour mine) = [] := rfl
          rw [none, List.append_nil]
          exact ih.merge p
      | increment node when =>
          by_cases own : node = mine
          · subst own
            simpa [apply, ownHour, ownHours, run] using ih.increment when
          · simpa [apply, ownHour, own, ownHours, run] using ih.increment_other own when

/-- After any sightings and merges, in any order and at any time: each hour among the newest that
are kept says how often it was seen, in `u64`, and there is no other; a sighting falls in the hour
that begins at a multiple of an hour at or before it; and where all hours are kept they add up to
the count, in `u64`. -/
theorem hourly_stats_exact (mine value : String) (k : Nat) (events : List HourEvent) :
    (∀ hour, ((run mine value k events).bucketsOf mine).get hour =
      if hour ∈ retained k (ownHours mine events).toFinset then some ((ownHours mine events).count hour % u64Size) else none) ∧
    (∀ when, statsBucketSecs ∣ hourStart when ∧ hourStart when ≤ when.timestamp ∧
      when.timestamp < hourStart when + statsBucketSecs) ∧
    ((run mine value 0 events).bucketsOf mine).total % u64Size = ((run mine value 0 events).counts.get mine).getD 0 := by
  have tells := run_tells mine value 0 events
  exact ⟨(run_tells mine value k events).bucket, hourStart_spec, (tells.sum rfl).trans tells.count.symm⟩

/-- As many sightings in one hour as a counter has values. -/
theorem hour_wraps : ¬ ∀ (mine value : String) (k : Nat) (events : List HourEvent) (hour : Int),
    ((run mine value k events).bucketsOf mine).get hour =
      if hour ∈ retained k (ownHours mine events).toFinset then some ((ownHours mine events).count hour) else none := by
  intro claim
  let events := List.replicate u64Size (increment "n" .unixEpoch)
  have hours : ownHours "n" events = List.replicate u64Size 0 := by
    rw [ownHours, List.filterMap_replicate]
    rfl
  have kept : (0 : Int) ∈ retained 0 (ownHours "n" events).toFinset := by
    rw [hours, retained, if_pos rfl, List.toFinset_replicate_of_ne_zero (by simp [u64Size])]
    exact Finset.mem_singleton_self 0
  have told := (run_tells "n" "v" 0 events).bucket 0
  rw [claim, if_pos kept, if_pos kept, hours, List.count_replicate_self] at told
  simp [u64Size] at told

end HourEvent

end SightingDB
