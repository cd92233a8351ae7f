import SightingDB.HourlyStats

/-!
When the reported totals are the sums they stand for. Counts come from peers as any 64-bit
numbers and are added in `u64` in three places; all is well exactly as long as no sum of them
reaches `2 ^ 64`.
-/
namespace SightingDB

/-- All servers' sightings in one hour, added up. -/
def hourSum (stats : OrderedMap String Buckets) (hour : Int) : Nat :=
  (stats.mapValues fun _ buckets => (buckets.get hour).getD 0).total

namespace Attribute

/-- What is reported is what all servers have seen together. -/
structure Exact (a : Attribute) : Prop where
  count : a.count = a.counts.total
  hours : ∀ hour, (a.mergedStats.get hour).getD 0 = hourSum a.stats hour

/-- No sum over the servers is out of range. -/
structure Fits (a : Attribute) : Prop where
  count : a.counts.total < u64Size
  hours : ∀ hour, hourSum a.stats hour < u64Size

/-! ## Sums in `u64` -/

section

variable {κ : Type} [LinearOrder κ]

theorem getD_addTo (m : OrderedMap κ Nat) (k k' : κ) (n : Nat) : ((addTo m k n).get k').getD 0 =
    if k' = k then ((m.get k).getD 0 + n) % u64Size else (m.get k').getD 0 := by
  rw [addTo, OrderedMap.get_insert]
  split_ifs <;> rfl

/-- Every entry is a `u64`. -/
def Small (m : OrderedMap κ Nat) : Prop := ∀ k, (m.get k).getD 0 < u64Size

/-- One map added to another, entry by entry. -/
theorem getD_foldl_addTo (buckets m : OrderedMap κ Nat) (k : κ) :
    ((buckets.entries.foldl (fun m e => addTo m e.1 e.2) m).get k).getD 0 =
      match buckets.get k with
      | none => (m.get k).getD 0
      | some n => ((m.get k).getD 0 + n) % u64Size := by
  have step := OrderedMap.get_foldl_insert (fun (_ : κ) (held : Option Nat) (n : Nat) => (held.getD 0 + n) % u64Size)
    buckets.entries buckets.keys_nodup m k
  refine (congrArg (Option.getD · 0) step).trans ?_
  change ((buckets.get k).elim (m.get k) fun n => some (((m.get k).getD 0 + n) % u64Size)).getD 0 = _
  cases buckets.get k <;> rfl

theorem Small.foldl {buckets m : OrderedMap κ Nat} (small : Small m) :
    Small (buckets.entries.foldl (fun m e => addTo m e.1 e.2) m) := fun k => by
  rw [getD_foldl_addTo]
  split
  · exact small k
  · exact Nat.mod_lt _ (by simp [u64Size])

end

theorem mergedStats_mod (a : Attribute) (hour : Int) : (a.mergedStats.get hour).getD 0 = hourSum a.stats hour % u64Size := by
  have fold : ∀ (l : List (String × Buckets)) (m : Buckets), Small m →
      Small (l.foldl (fun merged e => e.2.entries.foldl (fun merged b => addTo merged b.1 b.2) merged) m) ∧
      ((l.foldl (fun merged e => e.2.entries.foldl (fun merged b => addTo merged b.1 b.2) merged) m).get hour).getD 0 % u64Size =
        ((m.get hour).getD 0 + (l.map fun e => (e.2.get hour).getD 0).sum) % u64Size := by
    intro l
    induction l with
    | nil => exact fun m small => ⟨small, rfl⟩
    | cons e rest ih =>
        intro m small
        obtain ⟨kept, sum⟩ := ih _ (@Small.foldl _ _ e.2 m small)
        refine ⟨kept, ?_⟩
        rw [List.foldl_cons, sum, getD_foldl_addTo, List.map_cons, List.sum_cons]
        cases e.2.get hour with
        | none => simp
        | some n =>
            dsimp only [Option.getD_some]
            rw [Nat.mod_add_mod, Nat.add_assoc]
  have none : Small (∅ : Buckets) := fun k => by simp [u64Size]
  obtain ⟨small, sum⟩ := fold a.stats.entries ∅ none
  have whole : hourSum a.stats hour = (a.stats.entries.map fun e => (e.2.get hour).getD 0).sum := by
    rw [hourSum, OrderedMap.total, OrderedMap.mapValues, List.map_map]
    rfl
  rw [OrderedMap.get_empty, Option.getD_none, Nat.zero_add, ← whole] at sum
  rw [mergedStats, ← sum]
  exact (Nat.mod_eq_of_lt (small hour)).symm

/-- A sum in `u64` is the sum itself exactly when that is in range. -/
theorem exact_iff_fits (a : Attribute) : a.Exact ↔ a.Fits := by
  have range (n : Nat) : n % u64Size = n ↔ n < u64Size := by
    constructor
    · intro same
      rw [← same]
      exact Nat.mod_lt _ (by simp [u64Size])
    · exact Nat.mod_eq_of_lt
  constructor
  · rintro ⟨count, hours⟩
    refine ⟨(range _).mp count, fun hour => (range _).mp ?_⟩
    rw [← mergedStats_mod, hours]
  · rintro ⟨count, hours⟩
    refine ⟨(range _).mpr count, fun hour => ?_⟩
    rw [mergedStats_mod, (range _).mpr (hours hour)]

/-! ## One step -/

theorem hourSum_insert (stats : OrderedMap String Buckets) (node : String) (buckets : Buckets) (hour : Int) :
    hourSum (stats.insert node buckets) hour + (((stats.get node).getD ∅).get hour).getD 0 =
      hourSum stats hour + (buckets.get hour).getD 0 := by
  have moved : ((stats.insert node buckets).mapValues fun _ buckets => (buckets.get hour).getD 0) =
      (stats.mapValues fun _ buckets => (buckets.get hour).getD 0).insert node ((buckets.get hour).getD 0) :=
    OrderedMap.ext_get fun k => by
      rw [OrderedMap.get_mapValues, OrderedMap.get_insert, OrderedMap.get_insert, OrderedMap.get_mapValues]
      split_ifs <;> rfl
  have step := (stats.mapValues fun _ buckets => (buckets.get hour).getD 0).total_insert node ((buckets.get hour).getD 0)
  rw [OrderedMap.get_mapValues] at step
  rw [hourSum, moved, hourSum, ← step]
  cases stats.get node <;> rfl

theorem stats_increment_insert (a : Attribute) (node : String) (when : DateTime) (k : Nat) :
    (a.increment node when k).stats = a.stats.insert node ((a.increment node when k).bucketsOf node) := by
  refine OrderedMap.ext_get fun other => ?_
  rw [OrderedMap.get_insert]
  split_ifs with same
  · subst same
    have held : ((a.increment other when k).stats.get other).isSome = true := by
      have made : ((a.makeStats other when).stats.get other).isSome = true := by
        simp only [makeStats, OrderedMap.get_insert_self, Option.isSome_some]
      rw [stats_increment, trimStats]
      split
      · exact made
      · split_ifs
        · exact made
        · rw [OrderedMap.get_insert_self]
          rfl
    obtain ⟨buckets, found⟩ := Option.isSome_iff_exists.mp held
    rw [bucketsOf, found]
    rfl
  · exact stats_increment_other a same when k

end Attribute

/-- What changes the numbers of a value. -/
inductive CountEvent
  | increment (node : String) (when : DateTime) (retention : Nat)
  | migrate (node : String)
  | merge (payload : Merge)

namespace CountEvent

variable (mine : String)

def apply (a : Attribute) : CountEvent → Attribute
  | increment node when retention => a.increment node when retention
  | migrate node => a.migrate node
  | merge payload => (a.merge payload mine).1

/-- No addition of the step overflows. -/
def Safe (a : Attribute) : CountEvent → Prop
  | increment node when _ => (a.counts.get node).getD 0 + 1 < u64Size ∧
      ((a.bucketsOf node).get (hourStart when)).getD 0 + 1 < u64Size
  | migrate node => (0 < a.legacyCount → (a.counts.get node).getD 0 + a.legacyCount < u64Size) ∧
      ∀ hour n, a.legacyStats.get hour = some n → ((a.bucketsOf node).get hour).getD 0 + n < u64Size
  | merge _ => True

/-- A step that adds up: nothing overflows, what is reported afterwards is exact, and a merge
makes no count smaller. -/
structure AddsUp (a : Attribute) (e : CountEvent) : Prop where
  safe : e.Safe a
  exact_ : (e.apply mine a).Exact
  grows : ∀ payload, e = merge payload → a.count ≤ (e.apply mine a).count

/-- There is room for what a step adds: to the sum over all servers, and to the sum of each hour
it counts in. -/
def Room (a : Attribute) : CountEvent → Prop
  | increment node when retention => a.counts.total + 1 < u64Size ∧
      ((a.bucketsOf node).get (hourStart when)).getD 0 + 1 < u64Size ∧
      (hourStart when ∈ retained retention (insert (hourStart when) (a.bucketsOf node).keys.toFinset) →
        hourSum a.stats (hourStart when) + 1 < u64Size)
  | migrate _ => a.counts.total + a.legacyCount < u64Size ∧
      ∀ hour, hourSum a.stats hour + (a.legacyStats.get hour).getD 0 < u64Size
  | merge payload => (a.counts ⊔ payload.counts.erase mine).total < u64Size ∧
      ∀ hour, hourSum (a.stats ⊔ payload.stats.erase mine) hour < u64Size

variable {mine} {a : Attribute}

theorem le_total (m : Counts) (node : String) : (m.get node).getD 0 ≤ m.total := by
  cases found : m.get node with
  | none => exact Nat.zero_le _
  | some n => exact m.le_total found

theorem addsUp_of_fits {e : CountEvent} (room : e.Safe a) (fits : (e.apply mine a).Fits)
    (grows : ∀ payload, e = merge payload → a.count ≤ (e.apply mine a).count) : e.AddsUp mine a :=
  ⟨room, ((e.apply mine a).exact_iff_fits).mpr fits, grows⟩

theorem increment_addsUp (fits : a.Fits) (node : String) (when : DateTime) (k : Nat) :
    (increment node when k).AddsUp mine a ↔ (increment node when k).Room mine a := by
  have count : (a.increment node when k).counts.total + (a.counts.get node).getD 0 =
      a.counts.total + ((a.counts.get node).getD 0 + 1) % u64Size := by
    rw [Attribute.increment_counts]
    exact a.counts.total_insert node _
  have own := le_total a.counts node
  have bucket (hour : Int) : (((a.increment node when k).bucketsOf node).get hour).getD 0 =
      if hour ∈ retained k (insert (hourStart when) (a.bucketsOf node).keys.toFinset) then
        (if hour = hourStart when then (((a.bucketsOf node).get hour).getD 0 + 1) % u64Size
          else ((a.bucketsOf node).get hour).getD 0)
      else 0 := by
    rw [Attribute.get_increment]
    split_ifs with kept same
    · rw [Attribute.getD_addTo, if_pos same, same]
    · rw [Attribute.getD_addTo, if_neg same]
    · rfl
  have sum (hour : Int) : hourSum (a.increment node when k).stats hour + ((a.bucketsOf node).get hour).getD 0 =
      hourSum a.stats hour + (((a.increment node when k).bucketsOf node).get hour).getD 0 := by
    rw [Attribute.stats_increment_insert]
    exact Attribute.hourSum_insert a.stats node _ hour
  constructor
  · rintro ⟨⟨free, room⟩, exact_, -⟩
    obtain ⟨total, hours⟩ := (Attribute.exact_iff_fits _).mp exact_
    refine ⟨?_, room, fun kept => ?_⟩
    · rw [Nat.mod_eq_of_lt free] at count
      have after : (a.increment node when k).counts.total < u64Size := total
      omega
    · have here := bucket (hourStart when)
      rw [if_pos kept, if_pos rfl, Nat.mod_eq_of_lt room] at here
      have after : hourSum (a.increment node when k).stats (hourStart when) < u64Size := hours _
      have whole := sum (hourStart when)
      omega
  · rintro ⟨total, room, hours⟩
    have free : (a.counts.get node).getD 0 + 1 < u64Size := by omega
    rw [Nat.mod_eq_of_lt free] at count
    refine addsUp_of_fits ⟨free, room⟩ ⟨?_, fun hour => ?_⟩ fun _ other => by cases other
    · change (a.increment node when k).counts.total < u64Size
      omega
    · change hourSum (a.increment node when k).stats hour < u64Size
      have before := fits.hours hour
      have whole := sum hour
      rw [bucket] at whole
      split_ifs at whole with kept same
      · subst same
        have more := hours kept
        rw [Nat.mod_eq_of_lt room] at whole
        omega
      · omega
      · omega

theorem migrate_counts (a : Attribute) (node : String) : (a.migrate node).counts =
    if 0 < a.legacyCount then Attribute.addTo a.counts node a.legacyCount else a.counts := by
  simp only [Attribute.migrate]
  split_ifs <;> rfl

theorem migrate_stats (a : Attribute) (node : String) (hour : Int) : hourSum (a.migrate node).stats hour + ((a.bucketsOf node).get hour).getD 0 =
    hourSum a.stats hour + match a.legacyStats.get hour with
      | none => ((a.bucketsOf node).get hour).getD 0
      | some n => (((a.bucketsOf node).get hour).getD 0 + n) % u64Size := by
  have folded : ∀ stats, (a.migrate node).stats = stats → stats = a.stats ∧ a.legacyStats.entries = [] ∨
      stats = a.stats.insert node (a.legacyStats.entries.foldl (fun acc e => Attribute.addTo acc e.1 e.2) (a.bucketsOf node)) := by
    rintro stats rfl
    simp only [Attribute.migrate]
    by_cases hits : a.legacyStats.entries = []
    · refine .inl ⟨?_, hits⟩
      split_ifs <;> simp_all
    · refine .inr ?_
      split_ifs <;> simp_all [Attribute.bucketsOf]
  rcases folded _ rfl with ⟨same, blank⟩ | moved
  · have none : a.legacyStats.get hour = none := by
      rw [OrderedMap.get, blank]
      rfl
    rw [same, none]
  · rw [moved, ← Attribute.getD_foldl_addTo]
    exact Attribute.hourSum_insert a.stats node _ hour

theorem migrate_addsUp (node : String) : (migrate node).AddsUp mine a ↔ (migrate node).Room mine a := by
  have own := le_total a.counts node
  have inHour (hour : Int) : ((a.bucketsOf node).get hour).getD 0 ≤ hourSum a.stats hour := by
    have whole := Attribute.hourSum_insert a.stats node ∅ hour
    simp only [OrderedMap.get_empty, Option.getD_none] at whole
    rw [Attribute.bucketsOf]
    omega
  have count : (0 < a.legacyCount → (a.counts.get node).getD 0 + a.legacyCount < u64Size) →
      (a.migrate node).counts.total = a.counts.total + a.legacyCount := fun free => by
    rw [migrate_counts]
    split_ifs with some_
    · have whole := a.counts.total_insert node (((a.counts.get node).getD 0 + a.legacyCount) % u64Size)
      rw [Nat.mod_eq_of_lt (free some_)] at whole
      rw [Attribute.addTo, Nat.mod_eq_of_lt (free some_)]
      omega
    · omega
  have sum (hour : Int) : (∀ n, a.legacyStats.get hour = some n → ((a.bucketsOf node).get hour).getD 0 + n < u64Size) →
      hourSum (a.migrate node).stats hour = hourSum a.stats hour + (a.legacyStats.get hour).getD 0 := fun free => by
    have whole := migrate_stats a node hour
    cases found : a.legacyStats.get hour with
    | none =>
        rw [found] at whole
        simp only [Option.getD_none] at whole ⊢
        omega
    | some n =>
        rw [found] at whole
        dsimp only at whole
        rw [Nat.mod_eq_of_lt (free n found)] at whole
        simp only [Option.getD_some]
        omega
  constructor
  · rintro ⟨⟨free, room⟩, exact_, -⟩
    obtain ⟨total, hours⟩ := (Attribute.exact_iff_fits _).mp exact_
    refine ⟨?_, fun hour => ?_⟩
    · rw [← count free]
      exact total
    · rw [← sum hour fun n => room hour n]
      exact hours hour
  · rintro ⟨total, hours⟩
    have free : 0 < a.legacyCount → (a.counts.get node).getD 0 + a.legacyCount < u64Size := fun _ => by omega
    have room (hour : Int) (n : Nat) (found : a.legacyStats.get hour = some n) :
        ((a.bucketsOf node).get hour).getD 0 + n < u64Size := by
      have more := hours hour
      rw [found, Option.getD_some] at more
      have less := inHour hour
      omega
    refine addsUp_of_fits ⟨free, room⟩ ⟨?_, fun hour => ?_⟩ fun _ other => by cases other
    · change (a.migrate node).counts.total < u64Size
      rw [count free]
      exact total
    · change hourSum (a.migrate node).stats hour < u64Size
      rw [sum hour (room hour)]
      exact hours hour

/-- A merge takes the greater of two numbers and adds nothing; only the sums can get out of
range. -/
theorem merge_addsUp (fits : a.Fits) (p : Merge) : (merge p).AddsUp mine a ↔ (merge p).Room mine a := by
  have reads : ((merge p).apply mine a).Fits ↔ (merge p).Room mine a := by
    constructor
    · rintro ⟨total, hours⟩
      have counts := Attribute.merge_counts a p mine
      have stats := Attribute.merge_stats a p mine
      exact ⟨counts ▸ total, stats ▸ hours⟩
    · rintro ⟨total, hours⟩
      refine ⟨?_, fun hour => ?_⟩
      · change (a.merge p mine).1.counts.total < u64Size
        rwa [Attribute.merge_counts]
      · change hourSum (a.merge p mine).1.stats hour < u64Size
        rw [Attribute.merge_stats]
        exact hours hour
  rw [← reads]
  constructor
  · exact fun adds => (Attribute.exact_iff_fits _).mp adds.exact_
  · intro after
    refine addsUp_of_fits trivial after fun _ _ => ?_
    rw [((Attribute.exact_iff_fits _).mpr fits).count, ((Attribute.exact_iff_fits _).mpr after).count]
    refine OrderedMap.total_mono ?_
    change a.counts ≤ (a.merge p mine).1.counts
    rw [Attribute.merge_counts]
    exact le_sup_left

theorem addsUp_iff (fits : a.Fits) (e : CountEvent) : e.AddsUp mine a ↔ e.Room mine a := by
  cases e with
  | increment node when k => exact increment_addsUp fits node when k
  | migrate node => exact migrate_addsUp node
  | merge p => exact merge_addsUp fits p

/-! ## Runs -/

/-- A property of every step of a run, of the event and the value it finds. -/
def Along (mine : String) (P : Attribute → CountEvent → Prop) : Attribute → List CountEvent → Prop
  | _, [] => True
  | a, e :: rest => P a e ∧ Along mine P (e.apply mine a) rest

/-- The totals of a value are exact at the start of a run and after each of its steps, no addition
overflows and no merge makes a count smaller, exactly when the sums are in range at the start and
each step finds room for what it adds. -/
theorem totals_exact_iff (mine : String) (start : Attribute) (events : List CountEvent) :
    (start.Exact ∧ Along mine (fun a e => e.AddsUp mine a) start events) ↔
      start.Fits ∧ Along mine (fun a e => e.Room mine a) start events := by
  induction events generalizing start with
  | nil => exact and_congr_left' (start.exact_iff_fits)
  | cons e rest ih =>
      rw [start.exact_iff_fits]
      refine and_congr_right fun fits => ?_
      constructor
      · rintro ⟨adds, later⟩
        exact ⟨(addsUp_iff fits e).mp adds, ((ih _).mp ⟨adds.exact_, later⟩).2⟩
      · rintro ⟨room, later⟩
        have adds := (addsUp_iff fits e).mpr room
        exact ⟨adds, ((ih _).mpr ⟨((e.apply mine start).exact_iff_fits).mp adds.exact_, later⟩).2⟩

/-- One sighting here, and a peer that claims all the others a counter can hold. -/
theorem totals_wrap : ¬ ∀ (mine value : String) (events : List CountEvent),
    Along mine (fun a e => e.AddsUp mine a) (.new value) events := by
  intro claim
  have wrapped := (claim "a" "v" [increment "a" .unixEpoch 0,
    merge ⟨OrderedMap.empty.insert "b" (2 ^ 64 - 1), ∅, 0, 0, "", 0, 0⟩]).2.1
  exact absurd (wrapped.grows _ rfl) (by decide)

end CountEvent

end SightingDB
