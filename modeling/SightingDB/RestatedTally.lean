import SightingDB.Durability
import SightingDB.Housekeeping

/-!
The tally stated outright. A survey says of each value how many namespaces hold it; the walk
over what it found and the walk over what it did not leave exactly that, report each entry
that was another, and find nothing to do a second time.
-/
namespace SightingDB

namespace Namespace

/-- The entry kept for a value: nothing, or the number it counts. -/
def entry (ns : Namespace) (value : String) : Option Nat := (ns.values.get value).map (·.count)

/-- The entry that says `n`; there is none that says nothing. -/
def entryOf (n : Nat) : Option Nat := if n = 0 then none else some n

/-- The values whose entry is another. -/
def altered (before after : Namespace) : List String :=
  (before.valueNames ++ after.valueNames).dedup.filter fun v => before.entry v ≠ after.entry v

variable {ns before after : Namespace} {node value : String} {n : Nat} {now : DateTime}

theorem entry_isSome (v : String) : (ns.entry v).isSome = true ↔ v ∈ ns.valueNames := by
  rw [entry, Option.isSome_map, valueNames, OrderedMap.mem_keys, Option.isSome_iff_exists]

theorem altered_nodup : (altered before after).Nodup := (List.nodup_dedup _).filter _

theorem mem_altered (v : String) : v ∈ altered before after ↔ before.entry v ≠ after.entry v := by
  simp only [altered, List.mem_filter, List.mem_dedup, List.mem_append, decide_eq_true_eq, ← entry_isSome]
  refine ⟨And.right, fun differ => ⟨?_, differ⟩⟩
  cases had : before.entry v with
  | some m => exact .inl rfl
  | none =>
      cases has : after.entry v with
      | some m => exact .inr rfl
      | none => exact absurd (had.trans has.symm) differ

/-- Stating a count: it is said whether the entry was another. -/
theorem setCount_states (fits : n < u64Size) :
    (∀ v, (ns.setCount node value n now).1.entry v = if v = value then entryOf n else ns.entry v) ∧
      (ns.setCount node value n now).2 = decide (ns.entry value ≠ entryOf n) := by
  rw [setCount, entryOf]
  by_cases zero : n = 0
  · rw [if_pos zero, if_pos zero]
    refine ⟨fun v => ?_, ?_⟩
    · by_cases here : v = value <;> simp [entry, OrderedMap.get_erase, here]
    · cases found : ns.values.get value <;> simp [entry, OrderedMap.contains, found]
  · rw [if_neg zero, if_neg zero]
    by_cases right : ((ns.values.get value).getD (.new value)).count = n
    · have there : ns.entry value = some n := by
        cases found : ns.values.get value with
        | none =>
            rw [found] at right
            exact absurd right.symm zero
        | some a =>
            rw [found, Option.getD_some] at right
            rw [entry, found, Option.map_some, right]
      rw [if_pos right]
      refine ⟨fun v => ?_, by simp [there]⟩
      by_cases here : v = value
      · simp [entry, here, right]
      · simp [entry, OrderedMap.get_insert, here]
    · have other : ns.entry value ≠ some n := by
        cases found : ns.values.get value with
        | none => simp [entry, found]
        | some a =>
            rw [found, Option.getD_some] at right
            simpa [entry, found] using right
      simp only [if_neg right]
      refine ⟨fun v => ?_, by simp [other]⟩
      by_cases here : v = value
      · split <;> simp [entry, here, Attribute.count, Nat.mod_eq_of_lt fits]
      · simp [entry, OrderedMap.get_insert, here]

/-- A walk that states a count for each of some values. -/
theorem states_walk {α : Type} (value : α → String) (n : α → Nat) (l : List α) (acc : Namespace × Nat)
    (once : (l.map value).Nodup) (fits : ∀ x ∈ l, n x < u64Size) :
    (∀ x ∈ l, (l.foldl (fun acc x => Database.correct node now acc (value x) (n x)) acc).1.entry (value x) = entryOf (n x)) ∧
      (∀ v, (∀ x ∈ l, value x ≠ v) →
        (l.foldl (fun acc x => Database.correct node now acc (value x) (n x)) acc).1.entry v = acc.1.entry v) ∧
      (l.foldl (fun acc x => Database.correct node now acc (value x) (n x)) acc).2 =
        acc.2 + (l.filter fun x => acc.1.entry (value x) ≠ entryOf (n x)).length := by
  induction l generalizing acc with
  | nil => simp
  | cons x rest ih =>
      obtain ⟨fresh, once'⟩ := List.nodup_cons.mp once
      have later : ∀ y ∈ rest, value y ≠ value x := fun y mem same => fresh (List.mem_map.mpr ⟨y, mem, same⟩)
      obtain ⟨states, flag⟩ := @setCount_states acc.1 node (value x) (n x) now (fits x List.mem_cons_self)
      have first : (Database.correct node now acc (value x) (n x)).1 = (acc.1.setCount node (value x) (n x) now).1 := rfl
      have counted : (Database.correct node now acc (value x) (n x)).2 =
          acc.2 + if acc.1.entry (value x) ≠ entryOf (n x) then 1 else 0 := by
        simp only [Database.correct, flag, decide_eq_true_eq]
        split_ifs <;> rfl
      obtain ⟨stated, kept, total⟩ := ih (Database.correct node now acc (value x) (n x)) once'
        fun y mem => fits y (List.mem_cons_of_mem _ mem)
      refine ⟨fun y mem => ?_, fun v apart => ?_, ?_⟩
      · rcases List.mem_cons.mp mem with rfl | mem
        · rw [List.foldl_cons, kept _ later, first, states, if_pos rfl]
        · exact stated y mem
      · rw [List.foldl_cons, kept v (fun y mem => apart y (List.mem_cons_of_mem _ mem)), first, states,
          if_neg (Ne.symm (apart x List.mem_cons_self))]
      · have same : rest.filter (fun y => (Database.correct node now acc (value x) (n x)).1.entry (value y) ≠ entryOf (n y)) =
            rest.filter fun y => acc.1.entry (value y) ≠ entryOf (n y) :=
          List.filter_congr fun y mem => by rw [first, states, if_neg (later y mem)]
        rw [List.foldl_cons, total, counted, same, List.filter_cons]
        by_cases differ : acc.1.entry (value x) = entryOf (n x)
        · simp [differ]
        · simp only [ne_eq, differ, not_false_eq_true, if_true, decide_true, List.length_cons]
          omega

end Namespace

section Survey

variable {holders : OrderedMap String Names} {node : String} {now : DateTime} {all : Namespace}

theorem survey_eq (holders : OrderedMap String Names) (node : String) (now : DateTime) (all : Namespace) :
    Database.survey holders node now all =
      let acc := holders.entries.foldl (fun acc e => Database.correct node now acc e.1 e.2.size) (all, 0)
      (acc.1.valueNames.filter (!holders.contains ·)).foldl (fun acc value => Database.correct node now acc value 0) acc := by
  simp only [Database.survey, List.foldl_filter, Bool.not_eq_true', ← Bool.not_eq_true, ite_not]

/-- The entries that the walk over what was found makes another. -/
theorem mem_restated (v : String) :
    v ∈ (holders.entries.filter fun e => all.entry e.1 ≠ Namespace.entryOf e.2.size).map Prod.fst ↔
      ∃ set, holders.get v = some set ∧ all.entry v ≠ Namespace.entryOf set.size := by
  simp only [List.mem_map, List.mem_filter, decide_eq_true_eq]
  constructor
  · rintro ⟨e, ⟨mem, differ⟩, rfl⟩
    exact ⟨e.2, OrderedMap.mem_entries.mp mem, differ⟩
  · rintro ⟨set, listed, differ⟩
    exact ⟨(v, set), ⟨OrderedMap.mem_entries.mpr listed, differ⟩, rfl⟩

/-- And those that the walk over what was not found does. -/
theorem mem_dropped (v : String) :
    v ∈ (all.valueNames.filter (!holders.contains ·)).filter (fun v => all.entry v ≠ Namespace.entryOf 0) ↔
      holders.get v = none ∧ all.entry v ≠ Namespace.entryOf 0 := by
  simp only [List.mem_filter, decide_eq_true_eq, Bool.not_eq_true', OrderedMap.not_contains_iff]
  refine ⟨fun ⟨⟨_, absent⟩, differ⟩ => ⟨absent, differ⟩, fun ⟨absent, differ⟩ => ⟨⟨?_, absent⟩, differ⟩⟩
  rw [← Namespace.entry_isSome, Option.isSome_iff_ne_none]
  simpa [Namespace.entryOf] using differ

/-- A survey leaves what it found, and counts the entries that were another. -/
theorem survey_states (fits : ∀ value set, holders.get value = some set → set.size < u64Size) :
    (∀ v, (Database.survey holders node now all).1.entry v = Namespace.entryOf ((holders.get v).getD ∅).size) ∧
      (Database.survey holders node now all).2 =
        (all.altered (Database.survey holders node now all).1).length := by
  have nothing : (∅ : Names).size = 0 := rfl
  obtain ⟨found, others, first⟩ := @Namespace.states_walk node now (String × Names) (fun e => e.1) (fun e => e.2.size)
    holders.entries (all, 0) (OrderedMap.keys_nodup holders) fun e mem => fits e.1 e.2 (OrderedMap.mem_entries.mp mem)
  rw [survey_eq]
  generalize holders.entries.foldl (fun acc e => Database.correct node now acc e.1 e.2.size) (all, 0) = acc
    at found others first ⊢
  have unfound : ∀ v, holders.contains v = false → acc.1.entry v = all.entry v := by
    intro v absent
    refine others v fun e mem same => ?_
    rw [OrderedMap.not_contains_iff, ← same, OrderedMap.mem_entries.mp mem] at absent
    cases absent
  obtain ⟨gone, rest, second⟩ := @Namespace.states_walk node now String id (fun _ => 0)
    (acc.1.valueNames.filter (!holders.contains ·)) acc
    (by rw [List.map_id]; exact (OrderedMap.keys_nodup _).filter _) fun _ _ => by simp [u64Size]
  dsimp only [id] at gone rest second
  have left : ∀ v, ((acc.1.valueNames.filter (!holders.contains ·)).foldl
      (fun acc value => Database.correct node now acc value 0) acc).1.entry v =
        Namespace.entryOf ((holders.get v).getD ∅).size := by
    intro v
    cases listed : holders.get v with
    | some set =>
        rw [rest v, Option.getD_some]
        · exact found (v, set) (OrderedMap.mem_entries.mpr listed)
        · rintro other mem rfl
          have absent := (List.mem_filter.mp mem).2
          simp [OrderedMap.contains, listed] at absent
    | none =>
        rw [Option.getD_none, nothing]
        by_cases kept : v ∈ acc.1.valueNames
        · exact gone v (List.mem_filter.mpr ⟨kept, by simp [OrderedMap.contains, listed]⟩)
        · rw [rest v (fun other mem same => kept (same ▸ (List.mem_filter.mp mem).1)), Namespace.entryOf, if_pos rfl]
          rwa [← Namespace.entry_isSome, Option.not_isSome_iff_eq_none] at kept
  refine ⟨left, ?_⟩
  -- Every value has its turn in one of the two walks, or its entry stays as it is.
  have perm : (((holders.entries.filter fun e => all.entry e.1 ≠ Namespace.entryOf e.2.size).map Prod.fst) ++
      (acc.1.valueNames.filter (!holders.contains ·)).filter fun v => acc.1.entry v ≠ Namespace.entryOf 0).Perm
      (all.altered ((acc.1.valueNames.filter (!holders.contains ·)).foldl
        (fun acc value => Database.correct node now acc value 0) acc).1) := by
    refine (List.perm_ext_iff_of_nodup ?_ Namespace.altered_nodup).mpr fun v => ?_
    · refine List.Nodup.append ((OrderedMap.keys_nodup holders).sublist (List.filter_sublist.map _))
        (((OrderedMap.keys_nodup _).filter _).filter _) fun v mem mem' => ?_
      obtain ⟨set, present, -⟩ := (mem_restated v).mp mem
      have absent := ((mem_dropped v).mp mem').1
      rw [present] at absent
      cases absent
    · rw [Namespace.mem_altered, left, List.mem_append, mem_restated, mem_dropped]
      cases listed : holders.get v with
      | some set => simp
      | none => simp [nothing, unfound v (OrderedMap.not_contains_iff.mpr listed)]
  rw [← perm.length_eq, List.length_append, List.length_map]
  dsimp only
  rw [second, first]
  simp

/-- What every stated count keeps, a survey keeps. -/
theorem survey_induction {P : Namespace → Prop} (states : ∀ ns value n, P ns → P (ns.setCount node value n now).1)
    (start : P all) : P (Database.survey holders node now all).1 := by
  have walk : ∀ {α : Type} (value : α → String) (n : α → Nat) (l : List α) (acc : Namespace × Nat), P acc.1 →
      P (l.foldl (fun acc x => Database.correct node now acc (value x) (n x)) acc).1 := by
    intro α value n l
    induction l with
    | nil => exact fun _ holds => holds
    | cons x rest ih => exact fun acc holds => ih _ (states acc.1 (value x) (n x) holds)
  rw [survey_eq]
  exact walk id (fun _ => 0) _ _ (walk (fun e : String × Names => e.1) (fun e => e.2.size) _ _ start)

theorem survey_hasTtl : (Database.survey holders node now all).1.hasTtl = all.hasTtl := by
  refine @survey_induction holders node now all (fun ns => ns.hasTtl = all.hasTtl) (fun ns value n same => ?_) rfl
  simp only [Namespace.setCount]
  split_ifs <;> exact same

/-- A survey gives no entry a lifetime. -/
theorem survey_lifeless {v : String} (lifeless : ∀ a, all.values.get v = some a → a.ttl = 0) :
    ∀ a, (Database.survey holders node now all).1.values.get v = some a → a.ttl = 0 := by
  refine @survey_induction holders node now all (fun ns => ∀ a, ns.values.get v = some a → a.ttl = 0)
    (fun ns value n lifeless => ?_) lifeless
  have cell : v = value → ((ns.values.get value).getD (.new value)).ttl = 0 := by
    rintro rfl
    cases found : ns.values.get v with
    | none => rfl
    | some a => exact lifeless a found
  have inserted : ∀ b : Attribute, (v = value → b.ttl = 0) → ∀ a, (ns.values.insert value b).get v = some a → a.ttl = 0 := by
    intro b never a found
    rw [OrderedMap.get_insert] at found
    split_ifs at found with here
    · obtain rfl := Option.some.inj found
      exact never here
    · exact lifeless a found
  simp only [Namespace.setCount]
  split_ifs
  · intro a found
    rw [OrderedMap.get_erase] at found
    split_ifs at found
    exact lifeless a found
  · exact inserted _ cell
  · exact inserted _ cell
  · exact inserted _ cell

end Survey

/-! ## The tally as it is asked for -/

section Tally

variable {db : Database} {w : World} {holders : OrderedMap String Names}

theorem setConsensus_all : (db.setConsensus w holders).1.namespaces.get allNamespace =
    some (Database.survey holders (db.namespaceOrCreate w allNamespace).1.node w.now
      (db.namespaceOrCreate w allNamespace).2).1 := by
  simp only [Database.setConsensus]
  split <;> simp [Database.put, Database.markDirty, Database.markShardDirty]

theorem namespace_all {all : Namespace} (found : db.namespaces.get allNamespace = some all) :
    db.namespace_ w allNamespace = (db.touch w (shardOf allNamespace), some all) := by
  simp [Database.namespace_, found]

/-- A survey that finds every entry as it says reports nothing and leaves all as it is. -/
theorem setConsensus_again {all : Namespace} (found : db.namespaces.get allNamespace = some all)
    (fits : ∀ value set, holders.get value = some set → set.size < u64Size)
    (right : ∀ v, all.entry v = Namespace.entryOf ((holders.get v).getD ∅).size) :
    (db.setConsensus w holders).2 = 0 ∧ (db.setConsensus w holders).1.namespaces = db.namespaces ∧
      (db.setConsensus w holders).1.dirty = db.dirty := by
  have opened : db.namespaceOrCreate w allNamespace = (db.touch w (shardOf allNamespace), all) := by
    simp only [Database.namespaceOrCreate, namespace_all found]
  obtain ⟨states, number⟩ := @survey_states holders (db.touch w (shardOf allNamespace)).node w.now all fits
  have none_ : (Database.survey holders (db.touch w (shardOf allNamespace)).node w.now all).2 = 0 := by
    rw [number, List.length_eq_zero_iff, List.eq_nil_iff_forall_not_mem]
    intro v altered
    exact (Namespace.mem_altered v).mp altered ((right v).trans (states v).symm)
  have same : (Database.survey holders (db.touch w (shardOf allNamespace)).node w.now all).1 = all := by
    have values := (survey_unflagged none_).1
    have flag := @survey_hasTtl holders (db.touch w (shardOf allNamespace)).node w.now all
    generalize (Database.survey holders (db.touch w (shardOf allNamespace)).node w.now all).1 = after at values flag
    cases after
    cases all
    exact congrArg₂ Namespace.mk values flag
  have whole : db.setConsensus w holders = ((db.touch w (shardOf allNamespace)).put allNamespace all, 0) := by
    simp only [Database.setConsensus, opened]
    rw [none_, same]
    rfl
  rw [whole]
  refine ⟨rfl, ?_, Database.touch_dirty ..⟩
  rw [Database.put, Database.touch_namespaces]
  exact OrderedMap.insert_self _ found

/-- What is read back of an entry that has no lifetime. -/
theorem setConsensus_count (fits : ∀ value set, holders.get value = some set → set.size < u64Size) {v : String}
    (lifeless : ∀ a, (db.namespaceOrCreate w allNamespace).2.values.get v = some a → a.ttl = 0) (w' : World) :
    ((db.setConsensus w holders).1.count w' allNamespace v).2 = ((holders.get v).getD ∅).size := by
  have entry := (@survey_states holders (db.namespaceOrCreate w allNamespace).1.node w.now
    (db.namespaceOrCreate w allNamespace).2 fits).1 v
  have never := @survey_lifeless holders (db.namespaceOrCreate w allNamespace).1.node w.now _ v lifeless
  rw [Database.count, namespace_all setConsensus_all]
  dsimp only
  rw [Namespace.count]
  rw [Namespace.entry, Namespace.entryOf] at entry
  cases found : (Database.survey holders (db.namespaceOrCreate w allNamespace).1.node w.now
      (db.namespaceOrCreate w allNamespace).2).1.values.get v with
  | none =>
      rw [found] at entry
      split_ifs at entry with zero
      · exact zero.symm
      · cases entry
  | some a =>
      rw [found] at entry
      have live : a.isExpired w'.now = false := Attribute.isExpired_of_ttl (never a found) _
      split_ifs at entry with zero
      · cases entry
      · simpa [live] using entry

/-- After the tally was stated there is an entry for each value that some namespace holds and for
no other, and it counts those namespaces; an entry without a lifetime is read back so. The
number returned is that of the entries that were others, and a second time it is none and
nothing changes. -/
theorem set_consensus_imposes (db : Database) (w : World) (holders : OrderedMap String Names)
    (fits : ∀ value set, holders.get value = some set → set.size < u64Size) :
    (∃ all, (db.setConsensus w holders).1.namespaces.get allNamespace = some all ∧
      (∀ v, all.entry v = Namespace.entryOf ((holders.get v).getD ∅).size) ∧
      (db.setConsensus w holders).2 = ((db.namespaceOrCreate w allNamespace).2.altered all).length) ∧
    (∀ v, (∀ a, (db.namespaceOrCreate w allNamespace).2.values.get v = some a → a.ttl = 0) → ∀ w',
      ((db.setConsensus w holders).1.count w' allNamespace v).2 = ((holders.get v).getD ∅).size) ∧
    ∀ w', ((db.setConsensus w holders).1.setConsensus w' holders).2 = 0 ∧
      ((db.setConsensus w holders).1.setConsensus w' holders).1.namespaces = (db.setConsensus w holders).1.namespaces ∧
      ((db.setConsensus w holders).1.setConsensus w' holders).1.dirty = (db.setConsensus w holders).1.dirty := by
  obtain ⟨states, number⟩ := @survey_states holders (db.namespaceOrCreate w allNamespace).1.node w.now
    (db.namespaceOrCreate w allNamespace).2 fits
  have stored := @setConsensus_all db w holders
  have reported : (db.setConsensus w holders).2 = (Database.survey holders
      (db.namespaceOrCreate w allNamespace).1.node w.now (db.namespaceOrCreate w allNamespace).2).2 := rfl
  exact ⟨⟨_, stored, states, reported.trans number⟩, fun v lifeless w' => setConsensus_count fits lifeless w',
    fun w' => setConsensus_again stored fits states⟩

/-- A server with these entries in `_all`. -/
def tallying (entries : OrderedMap String Attribute) : Database :=
  { Database.withNode ⟨0, 0⟩ .storeEverything "local" with
    namespaces := OrderedMap.empty.insert allNamespace ⟨entries, entries.entries.any fun e => 0 < e.2.ttl⟩ }

/-- One entry is too high, one is of a value that no namespace holds, and one is missing. -/
def driftedTally : OrderedMap String Attribute :=
  (OrderedMap.empty.insert "high" { Attribute.new "high" with counts := (OrderedMap.empty.insert "lb" 3).insert "old" 4 }).insert
    "gone" { Attribute.new "gone" with counts := OrderedMap.empty.insert "lb" 1 }

def foundHolders : OrderedMap String Names :=
  ((OrderedMap.empty.insert "high" ((OrderedMap.empty.insert "feeds/a" ()).insert "feeds/b" ())).insert "missing"
    (OrderedMap.empty.insert "feeds/c" ())).insert "empty" ∅

theorem set_consensus_imposes_drifted : ∃ all, ((tallying driftedTally).setConsensus .sample foundHolders).1.namespaces.get
      allNamespace = some all ∧ all.entry "high" = some 2 ∧ all.entry "missing" = some 1 ∧ all.entry "gone" = none ∧
      all.entry "empty" = none ∧ ((tallying driftedTally).setConsensus .sample foundHolders).2 = 3 := by
  have small : ∀ e ∈ foundHolders.entries, e.2.size < u64Size := by decide
  obtain ⟨⟨all, found, states, number⟩, _⟩ := set_consensus_imposes (tallying driftedTally) .sample foundHolders
    fun value set found => small (value, set) (OrderedMap.mem_entries.mpr found)
  exact ⟨all, found, states "high", states "missing", states "gone", states "empty", by decide +kernel⟩

/-- An entry seen at one second past the epoch, and kept for one second more. -/
def brieflyTallied : Attribute :=
  let seen := (DateTime.fromTimestamp 1).getD .unixEpoch
  { Attribute.new "v" with firstSeen := seen, lastSeen := seen, ttl := 1 }

/-- An entry that counts nothing is reported as it goes, and one past its lifetime is not read
back whatever it is told. -/
theorem set_consensus_falls_short :
    (¬ ∀ (db : Database) (holders : OrderedMap String Names), 0 < (db.setConsensus .sample holders).2 →
      ∃ v, (db.count .sample allNamespace v).2 ≠ ((db.setConsensus .sample holders).1.count .sample allNamespace v).2) ∧
    ¬ ∀ (db : Database) (w : World) (holders : OrderedMap String Names) (v : String),
      ((db.setConsensus w holders).1.count w allNamespace v).2 = ((holders.get v).getD ∅).size := by
  constructor
  · intro claim
    obtain ⟨v, differ⟩ := claim (tallying (OrderedMap.empty.insert "v" (.new "v"))) ∅ (by decide)
    have before : ((tallying (OrderedMap.empty.insert "v" (.new "v"))).namespaces.get allNamespace) =
        some ⟨OrderedMap.empty.insert "v" (.new "v"), false⟩ := rfl
    have after : (((tallying (OrderedMap.empty.insert "v" (.new "v"))).setConsensus .sample ∅).1.namespaces.get allNamespace) =
        some ⟨∅, false⟩ := by decide +kernel
    rw [Database.count, Database.count, namespace_all before, namespace_all after] at differ
    refine differ ?_
    by_cases here : v = "v"
    · subst here
      decide
    · have none_ : (OrderedMap.empty : OrderedMap String Attribute).get v = none := rfl
      simp [Namespace.count, OrderedMap.get_insert, here, none_]
  · intro claim
    have read := claim (tallying (OrderedMap.empty.insert "v" brieflyTallied)) Consensus.laterWorld
      (OrderedMap.empty.insert "v" (OrderedMap.empty.insert "a/x" ())) "v"
    exact absurd read (by decide +kernel)

end Tally

end SightingDB
