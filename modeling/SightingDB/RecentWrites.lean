import SightingDB.Latest
import SightingDB.Lib.Recency

/-!
The list of the latest writes over whole runs. An entry is found again by its namespace and
value put together with a zero character between them, so the list is the one of the most
recent joined keys; it is the one of the most recent pairs as long as those keys tell apart
the pairs that are to be held.
-/
namespace SightingDB

namespace LatestEntry

/-- What an entry is about. -/
def pair (entry : LatestEntry) : String × String := (entry.namespace_, entry.value)

/-- What it is found by. -/
def joined (entry : LatestEntry) : String := Latest.keyOf entry.namespace_ entry.value

end LatestEntry

inductive LatestOp
  | record (name value : String) (written : Int)
  | setCapacity (capacity : Nat)
  | forgetNamespace (name : String)
  | takeSnapshot (force : Bool)
  | restore (saved : List LatestEntry)
  deriving DecidableEq

/-- What is to be remembered: the entries, oldest first, and how many there is room for. -/
structure Recollection where
  capacity : Nat
  held : List LatestEntry
  deriving DecidableEq

namespace Recollection

/-- An entry stays until its namespace is forgotten or there is no room for it. -/
def apply {κ : Type} [DecidableEq κ] (key : LatestEntry → κ) (memory : Recollection) : LatestOp → Recollection
  | .record name value written =>
      if memory.capacity = 0 || isInternal name then memory
      else { memory with held := Recency.mostRecent key memory.capacity (memory.held ++ [⟨name, value, written⟩]) }
  | .setCapacity capacity => ⟨capacity, memory.held.rtake capacity⟩
  | .forgetNamespace name => { memory with held := memory.held.filter (·.namespace_ ≠ name) }
  | .takeSnapshot _ => memory
  | .restore saved => { memory with held := Recency.mostRecent key memory.capacity (saved ++ memory.held) }

end Recollection

/-- The most recent pairs after a run: those that were not forgotten and that there was room for. -/
def remembered (capacity : Nat) (ops : List LatestOp) : Recollection :=
  ops.foldl (Recollection.apply LatestEntry.pair) ⟨capacity, []⟩

namespace Latest

def apply (latest : Latest) : LatestOp → Latest
  | .record name value written => latest.recordAt name value written
  | .setCapacity capacity => latest.setCapacity capacity
  | .forgetNamespace name => latest.forgetNamespace name
  | .takeSnapshot force => (latest.takeSnapshot force).2
  | .restore saved => latest.restore saved

/-- The list of a server that has just started with some capacity. -/
def started (capacity : Nat) : Latest := { default with capacity := capacity }

def run (capacity : Nat) (ops : List LatestOp) : Latest := ops.foldl apply (started capacity)

/-- Where an entry sits and what sits there are one and the same. -/
def Inverse (latest : Latest) : Prop :=
  ∀ key at_, latest.position.get key = some at_ ↔ ∃ entry, latest.order.get at_ = some entry ∧ entry.joined = key

/-- The list holds what is to be remembered, each pair once and in the order of the writes. -/
structure Holds (latest : Latest) (memory : Recollection) : Prop where
  entries : latest.entries = memory.held
  once : (latest.entries.map LatestEntry.pair).Nodup
  inverse : latest.Inverse

/-! ## The two maps -/

/-- The maps are in step, and the next position is behind all of them. -/
structure Sound (latest : Latest) : Prop where
  below : ∀ at_ ∈ latest.order.keys, at_ < latest.next
  inverse : latest.Inverse

def recollect (latest : Latest) : Recollection := ⟨latest.capacity, latest.entries⟩

variable {latest : Latest}

theorem Sound.started (capacity : Nat) : (started capacity).Sound where
  below at_ member := by cases member
  inverse key at_ := by simp [Latest.started, default]

theorem Sound.joined_nodup (sound : latest.Sound) : (latest.entries.map LatestEntry.joined).Nodup := by
  unfold Latest.entries
  rw [List.map_map]
  refine List.Nodup.map_on ?_ (List.Nodup.of_map _ latest.order.keys_nodup)
  rintro ⟨at_, entry⟩ member ⟨at', entry'⟩ member' same
  have here := (sound.inverse entry.joined at_).mpr ⟨entry, OrderedMap.mem_entries.mp member, rfl⟩
  have there := (sound.inverse entry.joined at').mpr ⟨entry', OrderedMap.mem_entries.mp member', same.symm⟩
  obtain rfl : at_ = at' := Option.some.inj (here.symm.trans there)
  have found := (OrderedMap.mem_entries.mp member).symm.trans (OrderedMap.mem_entries.mp member')
  rw [Option.some.inj found]

/-- Taking an entry out of both maps. -/
theorem Sound.erase (sound : latest.Sound) {at_ : Nat} {entry : LatestEntry} (found : latest.order.get at_ = some entry) :
    Sound { latest with position := latest.position.erase entry.joined, order := latest.order.erase at_ } where
  below other member := by
    obtain ⟨_, kept⟩ := OrderedMap.mem_keys.mp member
    rw [OrderedMap.get_erase] at kept
    split at kept
    · cases kept
    · exact sound.below other (OrderedMap.mem_keys.mpr ⟨_, kept⟩)
  inverse key other := by
    have here := (sound.inverse entry.joined at_).mpr ⟨entry, found, rfl⟩
    rw [OrderedMap.get_erase, OrderedMap.get_erase]
    by_cases same : key = entry.joined
    · subst same
      rw [if_pos rfl]
      constructor
      · intro impossible
        cases impossible
      · rintro ⟨entry', kept, joined⟩
        split at kept
        · cases kept
        · rename_i apart
          have there := (sound.inverse entry.joined other).mpr ⟨entry', kept, joined⟩
          exact absurd (Option.some.inj (there.symm.trans here)) apart
    · rw [if_neg same, sound.inverse key other]
      refine exists_congr fun entry' => and_congr_left fun joined => ?_
      split
      · rename_i away
        subst away
        constructor
        · intro kept
          obtain rfl := Option.some.inj (found.symm.trans kept)
          exact absurd joined.symm same
        · intro impossible
          cases impossible
      · rfl

theorem entries_erase (sound : latest.Sound) {at_ : Nat} {entry : LatestEntry} (found : latest.order.get at_ = some entry) :
    (latest.order.erase at_).entries.map (·.2) = latest.entries.filter (·.joined ≠ entry.joined) := by
  unfold OrderedMap.erase OrderedMap.filter Latest.entries
  rw [List.filter_map]
  congr 1
  apply List.filter_congr
  rintro ⟨at', entry'⟩ member
  have here := (sound.inverse entry.joined at_).mpr ⟨entry, found, rfl⟩
  have there := (sound.inverse entry'.joined at').mpr ⟨entry', OrderedMap.mem_entries.mp member, rfl⟩
  have same : at' = at_ ↔ entry'.joined = entry.joined := by
    constructor
    · rintro rfl
      rw [Option.some.inj ((OrderedMap.mem_entries.mp member).symm.trans found)]
    · intro joined
      rw [joined] at there
      exact Option.some.inj (there.symm.trans here)
  simp [same]

theorem Sound.remove (sound : latest.Sound) (key : String) : (latest.remove key).Sound ∧
    (latest.remove key).entries = latest.entries.filter (·.joined ≠ key) ∧
    (latest.remove key).capacity = latest.capacity := by
  unfold Latest.remove
  cases found : latest.position.get key with
  | none =>
      refine ⟨sound, (List.filter_eq_self.mpr fun entry member => ?_).symm, rfl⟩
      obtain ⟨⟨at_, _⟩, listed, rfl⟩ := List.mem_map.mp member
      simp only [ne_eq, decide_not, Bool.not_eq_true', decide_eq_false_iff_not]
      rintro rfl
      have there := (sound.inverse _ at_).mpr ⟨_, OrderedMap.mem_entries.mp listed, rfl⟩
      rw [found] at there
      cases there
  | some at_ =>
      obtain ⟨entry, held, rfl⟩ := (sound.inverse key at_).mp found
      exact ⟨sound.erase held, entries_erase sound held, rfl⟩

theorem Sound.dropOldest (sound : latest.Sound) : latest.dropOldest.Sound ∧
    latest.dropOldest.entries = latest.entries.tail ∧ latest.dropOldest.capacity = latest.capacity := by
  unfold Latest.dropOldest
  cases shape : latest.order.entries with
  | nil =>
      have none_ : latest.entries = [] := by rw [Latest.entries, shape, List.map_nil]
      exact ⟨sound, by rw [none_, List.tail_nil], rfl⟩
  | cons first others =>
      have held : latest.order.get first.1 = some first.2 := OrderedMap.mem_entries.mp (by rw [shape]; exact List.mem_cons_self)
      refine ⟨sound.erase held, ?_, rfl⟩
      have order := latest.order.sorted
      unfold OrderedMap.Sorted at order
      rw [shape, List.pairwise_cons] at order
      unfold OrderedMap.erase OrderedMap.filter Latest.entries
      simp only [shape, List.map_cons, List.tail_cons]
      rw [List.filter_cons_of_neg (by simp), List.filter_eq_self.mpr]
      intro later member
      simpa using (order.1 later member).ne'

theorem Sound.trimTo (sound : latest.Sound) (capacity : Nat) : (latest.trimTo capacity).Sound ∧
    (latest.trimTo capacity).entries = latest.entries.rtake capacity ∧
    (latest.trimTo capacity).capacity = latest.capacity := by
  have steps : ∀ n, (Latest.dropOldest^[n] latest).Sound ∧
      (Latest.dropOldest^[n] latest).entries = latest.entries.drop n ∧
      (Latest.dropOldest^[n] latest).capacity = latest.capacity := by
    intro n
    induction n with
    | zero => exact ⟨sound, rfl, rfl⟩
    | succ n ih =>
        obtain ⟨kept, entries, capacity⟩ := ih
        obtain ⟨kept', entries', capacity'⟩ := kept.dropOldest
        rw [Function.iterate_succ_apply']
        exact ⟨kept', by rw [entries', entries, List.tail_drop], capacity'.trans capacity⟩
  have size : latest.order.entries.length = latest.entries.length := (List.length_map _).symm
  unfold Latest.trimTo List.rtake
  rw [size]
  exact steps _

theorem Sound.append (sound : latest.Sound) {entry : LatestEntry} (fresh : entry.joined ∉ latest.entries.map LatestEntry.joined) :
    let put := { latest with
      next := latest.next + 1
      order := latest.order.insert latest.next entry
      position := latest.position.insert entry.joined latest.next }
    Sound put ∧ put.entries = latest.entries ++ [entry] := by
  refine ⟨⟨fun at_ member => ?_, fun key at_ => ?_⟩, ?_⟩
  · obtain ⟨_, found⟩ := OrderedMap.mem_keys.mp member
    dsimp only at found ⊢
    rw [OrderedMap.get_insert] at found
    split at found
    · omega
    · exact Nat.lt_succ_of_lt (sound.below at_ (OrderedMap.mem_keys.mpr ⟨_, found⟩))
  · dsimp only
    rw [OrderedMap.get_insert, OrderedMap.get_insert]
    have absent : latest.order.get latest.next = none := by
      cases found : latest.order.get latest.next with
      | none => rfl
      | some _ => exact absurd (sound.below _ (OrderedMap.mem_keys.mpr ⟨_, found⟩)) (Nat.lt_irrefl _)
    by_cases same : key = entry.joined
    · subst same
      rw [if_pos rfl]
      constructor
      · rintro ⟨⟩
        exact ⟨entry, if_pos rfl, rfl⟩
      · rintro ⟨entry', found, joined⟩
        split at found
        · rename_i last
          rw [last]
        · refine absurd (List.mem_map.mpr ⟨entry', ?_, joined⟩) fresh
          exact List.mem_map.mpr ⟨(at_, entry'), OrderedMap.mem_entries.mpr found, rfl⟩
    · rw [if_neg same, sound.inverse key at_]
      refine exists_congr fun entry' => and_congr_left fun joined => ?_
      split
      · rename_i last
        subst last
        rw [absent]
        constructor
        · intro impossible
          cases impossible
        · intro found
          rw [Option.some.inj found] at same
          exact absurd joined.symm same
      · rfl
  · unfold Latest.entries
    dsimp only
    rw [OrderedMap.entries_insert_above sound.below, List.map_append]
    rfl

theorem Sound.push (sound : latest.Sound) (entry : LatestEntry) (capacity : Nat) :
    (latest.push entry capacity).Sound ∧
      (latest.push entry capacity).entries =
        Recency.mostRecent LatestEntry.joined capacity (latest.entries ++ [entry]) ∧
      (latest.push entry capacity).capacity = latest.capacity := by
  obtain ⟨freed, rest, room⟩ := sound.remove entry.joined
  have fresh : entry.joined ∉ (latest.remove entry.joined).entries.map LatestEntry.joined := by
    rw [rest]
    intro member
    obtain ⟨other, kept, same⟩ := List.mem_map.mp member
    simp [same] at kept
  obtain ⟨put, appended⟩ := freed.append fresh
  obtain ⟨trimmed, entries, capacity'⟩ := put.trimTo capacity
  refine ⟨trimmed, ?_, capacity'.trans room⟩
  rw [Recency.mostRecent_concat sound.joined_nodup, ← rest, ← appended]
  exact entries

/-! ## One operation -/

theorem Sound.recordAt (sound : latest.Sound) (name value : String) (written : Int) :
    (latest.recordAt name value written).Sound ∧ (latest.recordAt name value written).recollect =
      latest.recollect.apply LatestEntry.joined (.record name value written) := by
  unfold Latest.recordAt Recollection.apply recollect
  dsimp only
  split
  · exact ⟨sound, rfl⟩
  · obtain ⟨pushed, entries, capacity⟩ := sound.push ⟨name, value, written⟩ latest.capacity
    refine ⟨⟨pushed.below, pushed.inverse⟩, ?_⟩
    rw [← entries]
    exact congrArg (Recollection.mk · _) capacity

theorem Sound.setCapacity (sound : latest.Sound) (capacity : Nat) :
    (latest.setCapacity capacity).Sound ∧ (latest.setCapacity capacity).recollect =
      latest.recollect.apply LatestEntry.joined (.setCapacity capacity) := by
  have resized : Sound { latest with capacity := capacity } := ⟨sound.below, sound.inverse⟩
  obtain ⟨trimmed, entries, same⟩ := resized.trimTo capacity
  refine ⟨⟨trimmed.below, trimmed.inverse⟩, ?_⟩
  have room : (latest.setCapacity capacity).capacity = capacity := same
  have rest : (latest.setCapacity capacity).entries = latest.entries.rtake capacity := entries
  unfold recollect Recollection.apply
  rw [room, rest]

theorem Sound.foldl_remove (sound : latest.Sound) (keys : List String) : (keys.foldl Latest.remove latest).Sound ∧
    (keys.foldl Latest.remove latest).entries = latest.entries.filter (fun e => e.joined ∉ keys) ∧
    (keys.foldl Latest.remove latest).capacity = latest.capacity := by
  induction keys generalizing latest with
  | nil => exact ⟨sound, (List.filter_eq_self.mpr fun _ _ => by simp).symm, rfl⟩
  | cons key rest ih =>
      obtain ⟨freed, entries, capacity⟩ := sound.remove key
      obtain ⟨kept, entries', capacity'⟩ := ih freed
      refine ⟨kept, ?_, capacity'.trans capacity⟩
      rw [List.foldl_cons, entries', entries, List.filter_filter]
      apply List.filter_congr
      intro entry _
      simp only [List.mem_cons, not_or, Bool.decide_and, ne_eq]
      exact Bool.and_comm _ _

theorem Sound.forgetNamespace (sound : latest.Sound) (name : String) :
    (latest.forgetNamespace name).Sound ∧ (latest.forgetNamespace name).recollect =
      latest.recollect.apply LatestEntry.joined (.forgetNamespace name) := by
  -- A key of what is to go is a key of nothing else.
  have gone : ∀ entry ∈ latest.entries, entry.joined ∈ (latest.entries.filter (·.namespace_ = name)).map LatestEntry.joined ↔
      entry.namespace_ = name := by
    intro entry held
    rw [List.mem_map]
    constructor
    · rintro ⟨other, member, same⟩
      obtain ⟨there, named⟩ := List.mem_filter.mp member
      rw [← List.inj_on_of_nodup_map sound.joined_nodup there held same]
      simpa using named
    · intro named
      exact ⟨entry, List.mem_filter.mpr ⟨held, by simpa using named⟩, rfl⟩
  have rest : latest.entries.filter (fun e => e.joined ∉ (latest.entries.filter (·.namespace_ = name)).map LatestEntry.joined) =
      latest.entries.filter (·.namespace_ ≠ name) := by
    apply List.filter_congr
    intro entry held
    simp only [gone entry held, ne_eq]
  obtain ⟨kept, entries, capacity⟩ := sound.foldl_remove ((latest.entries.filter (·.namespace_ = name)).map LatestEntry.joined)
  unfold Latest.forgetNamespace Recollection.apply recollect
  dsimp only
  split
  · rename_i none_
    rw [List.isEmpty_iff] at none_
    refine ⟨sound, ?_⟩
    rw [← rest, List.filter_eq_self.mpr]
    intro entry _
    exact decide_eq_true (none_ ▸ List.not_mem_nil)
  · refine ⟨⟨kept.below, kept.inverse⟩, ?_⟩
    rw [← rest, ← entries]
    exact congrArg (Recollection.mk · _) capacity

theorem Sound.foldl_push (sound : latest.Sound) (capacity : Nat) (entries : List LatestEntry) :
    let pushed := entries.foldl (fun l entry => l.push entry capacity) latest
    pushed.Sound ∧ pushed.entries = entries.foldl (fun held entry =>
      Recency.mostRecent LatestEntry.joined capacity (held ++ [entry])) latest.entries ∧
      pushed.capacity = latest.capacity := by
  induction entries generalizing latest with
  | nil => exact ⟨sound, rfl, rfl⟩
  | cons entry rest ih =>
      obtain ⟨pushed, held, capacity'⟩ := sound.push entry capacity
      obtain ⟨all, held', capacity''⟩ := ih pushed
      exact ⟨all, by rw [List.foldl_cons, List.foldl_cons, held', held], capacity''.trans capacity'⟩

theorem restored (latest : Latest) (saved : List LatestEntry) :
    (latest.restore saved).Sound ∧ (latest.restore saved).recollect =
      latest.recollect.apply LatestEntry.joined (.restore saved) := by
  have emptied : Sound { latest with order := ∅, position := ∅ } :=
    ⟨fun _ member => (by cases member), fun key at_ => (by simp)⟩
  obtain ⟨pushed, entries, capacity⟩ := emptied.foldl_push latest.capacity (saved ++ latest.entries)
  refine ⟨pushed, ?_⟩
  have held : (latest.restore saved).entries =
      Recency.mostRecent LatestEntry.joined latest.capacity (saved ++ latest.entries) :=
    entries.trans (Recency.foldl_mostRecent _)
  have room : (latest.restore saved).capacity = latest.capacity := capacity
  unfold recollect Recollection.apply
  rw [held, room]

/-- An operation keeps the maps in step, and does to the entries what it is to do to the most
recent joined keys. -/
theorem Sound.apply (sound : latest.Sound) (op : LatestOp) :
    (latest.apply op).Sound ∧ (latest.apply op).recollect = latest.recollect.apply LatestEntry.joined op := by
  cases op with
  | record name value written => exact sound.recordAt name value written
  | setCapacity capacity => exact sound.setCapacity capacity
  | forgetNamespace name => exact sound.forgetNamespace name
  | restore saved => exact restored latest saved
  | takeSnapshot force =>
      simp only [Latest.apply, Latest.takeSnapshot]
      split
      · exact ⟨sound, rfl⟩
      · exact ⟨⟨sound.below, sound.inverse⟩, rfl⟩

/-! ## Whole runs -/

theorem run_concat (capacity : Nat) (ops : List LatestOp) (op : LatestOp) :
    run capacity (ops ++ [op]) = (run capacity ops).apply op := List.foldl_concat ..

theorem run_refines (capacity : Nat) (ops : List LatestOp) : (run capacity ops).Sound ∧
    (run capacity ops).recollect = ops.foldl (Recollection.apply LatestEntry.joined) ⟨capacity, []⟩ := by
  induction ops using List.reverseRecOn with
  | nil => exact ⟨.started capacity, rfl⟩
  | append_singleton before op ih =>
      rw [run_concat, List.foldl_concat, ← ih.2]
      exact ih.1.apply op

end Latest

theorem remembered_concat (capacity : Nat) (ops : List LatestOp) (op : LatestOp) :
    remembered capacity (ops ++ [op]) = (remembered capacity ops).apply LatestEntry.pair op := List.foldl_concat ..

theorem remembered_nodup (capacity : Nat) (ops : List LatestOp) :
    ((remembered capacity ops).held.map LatestEntry.pair).Nodup := by
  induction ops using List.reverseRecOn with
  | nil => exact List.nodup_nil
  | append_singleton before op ih =>
      rw [remembered_concat]
      cases op with
      | record name value written =>
          unfold Recollection.apply
          dsimp only
          split
          · exact ih
          · exact Recency.mostRecent_nodup
      | setCapacity capacity => exact ih.sublist ((List.drop_sublist _ _).map _)
      | forgetNamespace name => exact ih.sublist (List.filter_sublist.map _)
      | takeSnapshot force => exact ih
      | restore saved => exact Recency.mostRecent_nodup

/-- Told apart by their joined keys, the entries to be held are the ones held for those keys. -/
theorem Recollection.apply_joined {memory : Recollection} {op : LatestOp}
    (apart : ((memory.apply LatestEntry.pair op).held.map LatestEntry.joined).Nodup) :
    memory.apply LatestEntry.joined op = memory.apply LatestEntry.pair op := by
  cases op with
  | record name value written =>
      unfold Recollection.apply at apart ⊢
      dsimp only at apart ⊢
      split
      · rfl
      · rename_i noted
        rw [if_neg noted] at apart
        congr 1
        exact Recency.mostRecent_coarsen LatestEntry.pair (fun pair : String × String => Latest.keyOf pair.1 pair.2) apart
  | setCapacity capacity => rfl
  | forgetNamespace name => rfl
  | takeSnapshot force => rfl
  | restore saved =>
      unfold Recollection.apply at apart ⊢
      dsimp only at apart ⊢
      congr 1
      exact Recency.mostRecent_coarsen LatestEntry.pair (fun pair : String × String => Latest.keyOf pair.1 pair.2) apart

/-- With distinct joined keys all along, the list holds what is to be remembered all along. -/
theorem run_holds {capacity : Nat} {ops : List LatestOp}
    (apart : ∀ before, before <+: ops → ((remembered capacity before).held.map LatestEntry.joined).Nodup)
    (before : List LatestOp) (start : before <+: ops) : (Latest.run capacity before).Holds (remembered capacity before) := by
  have same : before.foldl (Recollection.apply LatestEntry.joined) ⟨capacity, []⟩ = remembered capacity before := by
    induction before using List.reverseRecOn with
    | nil => rfl
    | append_singleton earlier op ih =>
        have told := apart _ start
        rw [remembered_concat] at told ⊢
        rw [List.foldl_concat, ih ((List.prefix_append earlier [op]).trans start)]
        exact Recollection.apply_joined told
  obtain ⟨sound, refines⟩ := Latest.run_refines capacity before
  rw [same] at refines
  have entries : (Latest.run capacity before).entries = (remembered capacity before).held :=
    congrArg Recollection.held refines
  exact ⟨entries, entries ▸ remembered_nodup capacity before, sound.inverse⟩

/-- Over every run: the list holds the most recent pairs all along exactly when no two different
pairs that are to be held have one joined key. -/
theorem holds_most_recent_iff (capacity : Nat) (ops : List LatestOp) :
    (∀ before, before <+: ops → (Latest.run capacity before).Holds (remembered capacity before)) ↔
      ∀ before, before <+: ops → ((remembered capacity before).held.map LatestEntry.joined).Nodup := by
  constructor
  · intro holds before start
    rw [← (holds before start).entries]
    exact (Latest.run_refines capacity before).1.joined_nodup
  · intro apart
    exact run_holds apart

/-- Two pairs with one joined key: the second write takes the place of the first. -/
theorem joined_pair_lost : ¬ ∀ (capacity : Nat) (ops : List LatestOp), ∀ before, before <+: ops →
    (Latest.run capacity before).Holds (remembered capacity before) := by
  intro holds
  have both := (holds 10 [.record "a\x00b" "c" 1, .record "a" "b\x00c" 2] _ List.prefix_rfl).entries
  exact absurd both (by decide)

/-! ## Namespaces without a zero character -/

theorem Latest.keyOf_inj {name name' value value' : String} (free : '\x00' ∉ name.toList) (free' : '\x00' ∉ name'.toList)
    (same : keyOf name value = keyOf name' value') : name = name' ∧ value = value' := by
  have zero : ("\x00" : String) = String.singleton '\x00' := rfl
  unfold keyOf at same
  rw [zero] at same
  have parted := splitOnce_append free value
  rw [same, splitOnce_append free' value'] at parted
  obtain ⟨rfl, rfl⟩ := Prod.mk.inj (Option.some.inj parted)
  exact ⟨rfl, rfl⟩

/-- No namespace that an operation brings in has a zero character. -/
def LatestOp.Free : LatestOp → Prop
  | .record name _ _ => '\x00' ∉ name.toList
  | .restore saved => ∀ entry ∈ saved, '\x00' ∉ entry.namespace_.toList
  | _ => True

theorem remembered_free {capacity : Nat} {ops : List LatestOp} (free : ∀ op ∈ ops, op.Free) :
    ∀ entry ∈ (remembered capacity ops).held, '\x00' ∉ entry.namespace_.toList := by
  induction ops using List.reverseRecOn with
  | nil =>
      intro entry member
      cases member
  | append_singleton before op ih =>
      have earlier := ih fun other member => free other (List.mem_append_left _ member)
      have last : op.Free := free op (by simp)
      rw [remembered_concat]
      cases op with
      | record name value written =>
          intro entry member
          unfold Recollection.apply at member
          dsimp only at member
          split at member
          · exact earlier entry member
          · rcases List.mem_append.mp (Recency.mem_of_mem_mostRecent member) with old | new
            · exact earlier entry old
            · obtain rfl := List.mem_singleton.mp new
              exact last
      | setCapacity capacity => exact fun entry member => earlier entry (Recency.mem_of_mem_rtake member)
      | forgetNamespace name => exact fun entry member => earlier entry (List.mem_of_mem_filter member)
      | takeSnapshot force => exact earlier
      | restore saved =>
          intro entry member
          rcases List.mem_append.mp (Recency.mem_of_mem_mostRecent member) with old | new
          · exact last entry old
          · exact earlier entry new

/-- What the joined key rests on: without a zero character in any namespace the list holds the
most recent pairs. -/
theorem run_holds_of_free {capacity : Nat} {ops : List LatestOp} (free : ∀ op ∈ ops, op.Free) :
    (Latest.run capacity ops).Holds (remembered capacity ops) := by
  refine run_holds (fun before start => ?_) ops List.prefix_rfl
  have plain : ∀ entry ∈ (remembered capacity before).held, '\x00' ∉ entry.namespace_.toList :=
    remembered_free fun op member => free op (start.subset member)
  refine List.Nodup.map_on ?_ (List.Nodup.of_map _ (remembered_nodup capacity before))
  intro entry member entry' member' same
  obtain ⟨name, value⟩ := Latest.keyOf_inj (plain entry member) (plain entry' member') same
  exact List.inj_on_of_nodup_map (remembered_nodup capacity before) member member' (Prod.ext name value)

end SightingDB
