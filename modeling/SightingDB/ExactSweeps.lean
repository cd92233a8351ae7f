import SightingDB.Lifetimes

/-!
What a sweep takes out. Of each namespace it is exactly the values past their lifetime, however
the flag and the first look at the values cut the work short; the namespaces left empty by
that go too, and no other. `_all` alone changes more: it gives back what was counted for the
values that went.
-/
namespace SightingDB

/-- A cell, unless it is past its lifetime. -/
def dropPast (now : DateTime) (cell : Option Attribute) : Option Attribute := cell.filter fun a => !a.past now

/-- In how many of the namespaces listed, of those that count towards consensus, a value is past
its lifetime. -/
def lateAmong (m : OrderedMap String Namespace) (now : DateTime) (names : List String) (v : String) : Nat :=
  names.countP fun name => countsTowardsConsensus name && (storedCell m name v).any (·.past now)

section Turns

variable (node : String) (m : OrderedMap String Namespace) (now : DateTime) (early : List String) (name : String)

/-- The cell a sweep finds when a namespace has its turn: `_all` has given back by then what the
namespaces that came before it have lost. -/
def turnCell (v : String) : Option Attribute :=
  if name = allNamespace then (giveBack node)^[lateAmong m now early v] (storedCell m name v) else storedCell m name v

/-- The values past their lifetime when their namespace has its turn. -/
def overdue : List String :=
  if startsWith name configPrefix then []
  else ((m.get name).elim [] Namespace.valueNames).filter fun v => (turnCell node m now early name v).any (·.past now)

/-- Whether the namespace loses values at its turn, and keeps none. -/
def emptied : Bool :=
  !(overdue node m now early name).isEmpty &&
    ((m.get name).elim [] Namespace.valueNames).all fun v => (turnCell node m now early name v).all (·.past now)

end Turns

/-- The namespaces that a walk comes to before `_all`. -/
def beforeAll (order : List String) : List String := order.takeWhile (· ≠ allNamespace)

/-- What a sweep that walks the namespaces in this order does, and what it reports. -/
structure SweptExactly (db : Database) (now : DateTime) (order : List String) (db' : Database) (report : SweepReport) : Prop where
  values : ∀ name, name ≠ allNamespace → startsWith name configPrefix = false → ∀ v,
    storedCell db'.namespaces name v = dropPast now (storedCell db.namespaces name v)
  config : ∀ name, startsWith name configPrefix = true → db'.namespaces.get name = db.namespaces.get name
  tally : ∀ v, storedCell db'.namespaces allNamespace v =
    dropPast now ((giveBack db.node)^[lateAmong db.namespaces now order v] (storedCell db.namespaces allNamespace v))
  namespaces : ∀ name, db'.namespaces.contains name =
    (db.namespaces.contains name && !emptied db.node db.namespaces now (beforeAll order) name)
  valuesRemoved : report.valuesRemoved =
    (order.map fun name => (overdue db.node db.namespaces now (beforeAll order) name).length).sum
  namespacesRemoved : report.namespacesRemoved =
    order.countP (emptied db.node db.namespaces now (beforeAll order))

/-! ## Cells -/

section Cells

variable {now : DateTime}

@[simp] theorem dropPast_none : dropPast now none = none := rfl

theorem dropPast_some (a : Attribute) : dropPast now (some a) = if a.past now then none else some a := by
  cases ended : a.past now <;> simp [dropPast, Option.filter, ended]

theorem past_decrement (a : Attribute) (node : String) : (a.decrement node).1.past now = a.past now := by
  rw [Attribute.past, Attribute.past, a.decrement_ttl, a.decrement_lastSeen]

theorem giveBack_dropPast (node : String) (cell : Option Attribute) :
    giveBack node (dropPast now cell) = dropPast now (giveBack node cell) := by
  cases cell with
  | none => rfl
  | some a =>
      by_cases last : (a.decrement node).2 = 0 <;> cases ended : a.past now <;>
        simp [dropPast_some, giveBack, ended, last, past_decrement]

theorem giveBack_iterate_dropPast (node : String) (n : Nat) (cell : Option Attribute) :
    (giveBack node)^[n] (dropPast now cell) = dropPast now ((giveBack node)^[n] cell) :=
  Function.Commute.iterate_left (f := giveBack node) (g := dropPast now) (giveBack_dropPast node) n cell

namespace Namespace

variable {ns : Namespace}

/-- With the flag told of every lifetime, no value past its own is skipped. -/
theorem Flagged.removeExpired_get (flagged : ns.Flagged) (v : String) :
    (ns.removeExpired now).1.values.get v = dropPast now (ns.values.get v) := by
  have untouched : (ns.values.entries.any fun e => e.2.isExpired now) = false →
      ns.values.get v = dropPast now (ns.values.get v) := by
    intro quiet
    cases found : ns.values.get v with
    | none => rfl
    | some a =>
        have live := List.any_eq_false.mp quiet (v, a) (OrderedMap.mem_entries.mpr found)
        rw [Attribute.isExpired_eq_past] at live
        simp [dropPast_some, live]
  simp only [removeExpired]
  split_ifs with unset none_
  · refine untouched (List.any_eq_false.mpr fun e member => ?_)
    have never : e.2.ttl = 0 := by
      by_contra some_
      have up := flagged e.1 e.2 (OrderedMap.mem_entries.mp member) (Nat.pos_of_ne_zero some_)
      simp [up] at unset
    simp [Attribute.isExpired_of_ttl never]
  · exact untouched (by simpa using none_)
  · rw [OrderedMap.get_filter]
    simp only [Attribute.isExpired_eq_past]
    rfl

theorem Flagged.mem_removed (flagged : ns.Flagged) (v : String) :
    v ∈ (ns.removeExpired now).2 ↔ ((ns.values.get v).any (·.past now)) = true := by
  have kept := @Flagged.removeExpired_get now ns flagged v
  have split := ns.removeExpired_contains now v
  simp only [OrderedMap.contains, kept] at split
  constructor
  · intro gone
    have left := ns.removeExpired_disjoint gone
    rw [OrderedMap.not_contains_iff, kept] at left
    have there := split.mpr (.inr gone)
    cases found : ns.values.get v with
    | none => simp [found] at there
    | some a => simpa [found, dropPast_some] using left
  · intro ended
    cases found : ns.values.get v with
    | none => simp [found] at ended
    | some a =>
        rw [found] at ended split
        simpa [dropPast_some, show a.past now = true from ended] using split

theorem foldl_release_get (node : String) (values : List String) (v : String) :
    (values.foldl (fun all value => all.release node value) ns).values.get v =
      (giveBack node)^[values.count v] (ns.values.get v) := by
  induction values generalizing ns with
  | nil => rfl
  | cons value rest ih =>
      rw [List.foldl_cons, ih, release_get]
      by_cases same : v = value
      · subst same
        rw [if_pos rfl, List.count_cons_self, Function.iterate_succ_apply]
      · rw [if_neg same, List.count_cons_of_ne (Ne.symm same)]

theorem isEmpty_iff : ns.isEmpty = true ↔ ∀ v, ns.values.get v = none := by
  refine ⟨get_of_isEmpty, fun blank => List.isEmpty_iff.mpr (List.eq_nil_iff_forall_not_mem.mpr ?_)⟩
  rintro ⟨v, a⟩ member
  rw [OrderedMap.mem_entries, blank] at member
  cases member

end Namespace

end Cells

/-! ## One turn -/

section Turn

variable {db : Database} {w : World}

theorem releaseAll_hot (hot : db.evicted internalShard = false) (values : List String) :
    (values.foldl (fun db value => db.releaseConsensus w value) db).evicted internalShard = false ∧
      (values.foldl (fun db value => db.releaseConsensus w value) db).node = db.node ∧
      (values.foldl (fun db value => db.releaseConsensus w value) db).namespaces.get allNamespace =
        (db.namespaces.get allNamespace).map fun all => values.foldl (fun all value => all.release db.node value) all := by
  induction values generalizing db with
  | nil => exact ⟨hot, rfl, by simp⟩
  | cons value rest ih =>
      obtain ⟨hot', node, get⟩ := releaseConsensus_hot w value hot
      obtain ⟨hot'', node', get'⟩ := ih hot'
      rw [List.foldl_cons]
      refine ⟨hot'', node'.trans node, ?_⟩
      rw [get', get, if_pos rfl, node, Option.map_map]
      rfl

/-- What one turn does: the namespace loses its overdue values, and `_all` gives them back. -/
structure Turned (now : DateTime) (name : String) (ns : Namespace) (db db' : Database) : Prop where
  hot : db'.evicted internalShard = false
  node : db'.node = db.node
  others : ∀ k, k ≠ allNamespace →
    db'.namespaces.get k = if k = name then some (ns.removeExpired now).1 else db.namespaces.get k
  tally : db'.namespaces.get allNamespace = if name = allNamespace then some (ns.removeExpired now).1
    else if countsTowardsConsensus name then (db.namespaces.get allNamespace).map fun all =>
      (ns.removeExpired now).2.foldl (fun all value => all.release db.node value) all
    else db.namespaces.get allNamespace

theorem sweepOne_turned (hot : db.evicted internalShard = false) {now : DateTime} {name : String} {ns : Namespace}
    (found : db.namespaces.get name = some ns) (swept : startsWith name configPrefix = false) :
    Turned now name ns db (db.sweepOne w now name).1 ∧
      (db.sweepOne w now name).2.1 = (ns.removeExpired now).2.length ∧
      (db.sweepOne w now name).2.2 =
        if !(ns.removeExpired now).2.isEmpty && (ns.removeExpired now).1.isEmpty then [name] else [] := by
  simp only [Database.sweepOne, found, swept, Bool.false_eq_true, if_false]
  refine ⟨?_, trivial, trivial⟩
  have stored : ∃ db₁, (if (ns.removeExpired now).2.isEmpty then db.put name (ns.removeExpired now).1
      else (db.put name (ns.removeExpired now).1).markDirty name) = db₁ ∧ db₁.evicted internalShard = false ∧
      db₁.node = db.node ∧ db₁.namespaces = db.namespaces.insert name (ns.removeExpired now).1 := by
    refine ⟨_, rfl, ?_⟩
    split <;> exact ⟨hot, rfl, rfl⟩
  obtain ⟨db₁, same, hot₁, node₁, namespaces⟩ := stored
  rw [same]
  split
  · rename_i counts
    obtain ⟨hot₂, node₂, tally⟩ := @releaseAll_hot db₁ w hot₁ (ns.removeExpired now).2
    have other : name ≠ allNamespace := by
      rintro rfl
      exact absurd counts (by decide)
    refine ⟨hot₂, node₂.trans node₁, fun k elsewhere => ?_, ?_⟩
    · rw [releaseAll_others w _ hot₁ elsewhere, namespaces, OrderedMap.get_insert]
    · rw [tally, namespaces, OrderedMap.get_insert_of_ne _ _ (Ne.symm other), if_neg other, if_pos counts, node₁]
  · rename_i apart
    refine ⟨hot₁, node₁, fun k _ => ?_, ?_⟩
    · rw [namespaces, OrderedMap.get_insert]
    · rw [namespaces, OrderedMap.get_insert, if_neg apart]
      simp only [eq_comm]

end Turn

/-! ## The walk -/

theorem lateAmong_append (m : OrderedMap String Namespace) (now : DateTime) (done : List String) (name v : String) :
    lateAmong m now (done ++ [name]) v =
      (countsTowardsConsensus name && (storedCell m name v).any (·.past now)).toNat + lateAmong m now done v := by
  rw [lateAmong, List.countP_append, List.countP_singleton, Nat.add_comm]
  cases countsTowardsConsensus name && (storedCell m name v).any (·.past now) <;> rfl

theorem config_not_all {name : String} (config : startsWith name configPrefix = true) : name ≠ allNamespace := by
  rintro rfl
  exact absurd config (by decide)

section Walk

variable {db₀ db : Database} {now : DateTime} {done early : List String} {name : String} {w : World}

theorem giveBack_isSome {node : String} {n : Nat} {cell : Option Attribute} (left : ((giveBack node)^[n] cell).isSome = true) :
    cell.isSome = true := by
  cases cell with
  | some a => rfl
  | none =>
      rw [Function.iterate_fixed rfl] at left
      cases left

theorem turnCell_held {node : String} {m : OrderedMap String Namespace} {v : String}
    (found : (turnCell node m now early name v).isSome = true) : (storedCell m name v).isSome = true := by
  simp only [turnCell] at found
  split_ifs at found
  · exact giveBack_isSome found
  · exact found

/-- The numbers of one turn, from the cells it finds. -/
theorem turn_reports {node : String} {m : OrderedMap String Namespace} {ns ns₀ : Namespace} (flagged : ns.Flagged)
    (swept : startsWith name configPrefix = false) (found : m.get name = some ns₀)
    (cells : ∀ v, ns.values.get v = turnCell node m now early name v) :
    (ns.removeExpired now).2.length = (overdue node m now early name).length ∧
      (!(ns.removeExpired now).2.isEmpty && (ns.removeExpired now).1.isEmpty) = emptied node m now early name := by
  have names : ∀ v, v ∈ ns₀.valueNames ↔ (storedCell m name v).isSome = true := by
    intro v
    rw [Namespace.valueNames, OrderedMap.mem_keys, ← Option.isSome_iff_exists, storedCell, found]
    rfl
  have overdue_eq : overdue node m now early name =
      ns₀.valueNames.filter fun v => (turnCell node m now early name v).any (·.past now) := by
    simp only [overdue, swept, found, Bool.false_eq_true, if_false, Option.elim_some]
  have same : ∀ v, v ∈ (ns.removeExpired now).2 ↔ v ∈ overdue node m now early name := by
    intro v
    rw [flagged.mem_removed, cells, overdue_eq, List.mem_filter, names]
    refine ⟨fun ended => ⟨?_, ended⟩, And.right⟩
    refine @turnCell_held now early name node m v ?_
    cases held : turnCell node m now early name v with
    | none => simp [held] at ended
    | some a => rfl
  have perm : (ns.removeExpired now).2.Perm (overdue node m now early name) := by
    refine (List.perm_ext_iff_of_nodup (ns.removeExpired_keys_nodup now) ?_).mpr same
    rw [overdue_eq]
    exact (OrderedMap.keys_nodup _).filter _
  refine ⟨perm.length_eq, ?_⟩
  rw [emptied, perm.isEmpty_eq]
  refine congrArg _ (Bool.eq_iff_iff.mpr ?_)
  rw [Namespace.isEmpty_iff, found, Option.elim_some, List.all_eq_true]
  constructor
  · intro blank v _
    have gone := blank v
    rw [flagged.removeExpired_get, cells] at gone
    cases held : turnCell node m now early name v with
    | none => rfl
    | some a => simpa [held, dropPast_some] using gone
  · intro ended v
    rw [flagged.removeExpired_get, cells]
    cases held : turnCell node m now early name v with
    | none => rfl
    | some a =>
        have past := ended v ((names v).mpr (turnCell_held (by rw [held]; rfl)))
        rw [held] at past
        exact (dropPast_some a).trans (if_pos past)

/-- Where a sweep is when some of the namespaces have had their turn. -/
structure Walked (db₀ : Database) (now : DateTime) (done : List String) (db : Database) : Prop where
  hot : db.evicted internalShard = false
  node : db.node = db₀.node
  flagged : db.Flagged
  others : ∀ k, k ≠ allNamespace → db.namespaces.get k = if k ∈ done ∧ startsWith k configPrefix = false then
    (db₀.namespaces.get k).map fun ns => (ns.removeExpired now).1 else db₀.namespaces.get k
  there : (db.namespaces.get allNamespace).isSome = (db₀.namespaces.get allNamespace).isSome
  tally : ∀ v, storedCell db.namespaces allNamespace v = (if allNamespace ∈ done then dropPast now else id)
    ((giveBack db₀.node)^[lateAmong db₀.namespaces now done v] (storedCell db₀.namespaces allNamespace v))

theorem Walked.start (hot : db₀.evicted internalShard = false) (flagged : db₀.Flagged) : Walked db₀ now [] db₀ :=
  ⟨hot, rfl, flagged, fun k _ => by simp, rfl, fun v => by simp [lateAmong]⟩

/-- A namespace of the configuration is passed over. -/
theorem Walked.skip (walked : Walked db₀ now done db) (config : startsWith name configPrefix = true) :
    Walked db₀ now (done ++ [name]) db := by
  have other := config_not_all config
  have uncounted : countsTowardsConsensus name = false := by simp [countsTowardsConsensus, config]
  refine ⟨walked.hot, walked.node, walked.flagged, fun k elsewhere => ?_, walked.there, fun v => ?_⟩
  · rw [walked.others k elsewhere]
    refine if_congr ?_ rfl rfl
    rw [List.mem_append, List.mem_singleton]
    constructor
    · exact fun before => ⟨.inl before.1, before.2⟩
    · rintro ⟨before | rfl, swept⟩
      · exact ⟨before, swept⟩
      · rw [config] at swept
        cases swept
  · rw [walked.tally, lateAmong_append, uncounted]
    simp [Ne.symm other]

/-- A namespace other than `_all` has its turn. -/
theorem Walked.turn (walked : Walked db₀ now done db) {db' : Database} (up : db'.Flagged) {ns : Namespace}
    (flagged : ns.Flagged) (found : db₀.namespaces.get name = some ns) (other : name ≠ allNamespace)
    (swept : startsWith name configPrefix = false) (turned : Turned now name ns db db') :
    Walked db₀ now (done ++ [name]) db' := by
  have mine : ∀ v, storedCell db₀.namespaces name v = ns.values.get v := fun v => by simp [storedCell, found]
  have counted : ∀ v, (ns.removeExpired now).2.count v = ((storedCell db₀.namespaces name v).any (·.past now)).toNat := by
    intro v
    rw [mine]
    by_cases gone : v ∈ (ns.removeExpired now).2
    · rw [List.count_eq_one_of_mem (ns.removeExpired_keys_nodup now) gone, (flagged.mem_removed v).mp gone]
      rfl
    · rw [List.count_eq_zero_of_not_mem gone, Bool.eq_false_iff.mpr (fun ended => gone ((flagged.mem_removed v).mpr ended))]
      rfl
  have tally := turned.tally
  rw [if_neg other] at tally
  refine ⟨turned.hot, turned.node.trans walked.node, up, fun k elsewhere => ?_, ?_, fun v => ?_⟩
  · rw [turned.others k elsewhere]
    by_cases same : k = name
    · subst same
      simp [found, swept]
    · rw [if_neg same, walked.others k elsewhere]
      simp [same]
  · rw [tally, ← walked.there]
    split_ifs
    · rw [Option.isSome_map]
    · rfl
  · have later : storedCell db'.namespaces allNamespace v =
        (giveBack db₀.node)^[(countsTowardsConsensus name && (storedCell db₀.namespaces name v).any (·.past now)).toNat]
          (storedCell db.namespaces allNamespace v) := by
      rw [storedCell, tally, ← walked.node]
      cases counts : countsTowardsConsensus name with
      | false => rfl
      | true =>
          cases held : db.namespaces.get allNamespace with
          | none => simp [storedCell, held, Function.iterate_fixed (f := giveBack db.node) (x := none) rfl]
          | some all => simp [storedCell, held, Namespace.foldl_release_get, counted]
    rw [later, walked.tally, lateAmong_append, Function.iterate_add_apply]
    have stays : allNamespace ∈ done ++ [name] ↔ allNamespace ∈ done := by simp [Ne.symm other]
    simp only [stays]
    split_ifs
    · exact giveBack_iterate_dropPast _ _ _
    · rfl

/-- `_all` has its turn. -/
theorem Walked.turnAll (walked : Walked db₀ now done db) {db' : Database} (up : db'.Flagged) {ns : Namespace}
    (found : db.namespaces.get allNamespace = some ns) (fresh : allNamespace ∉ done)
    (turned : Turned now allNamespace ns db db') : Walked db₀ now (done ++ [allNamespace]) db' := by
  refine ⟨turned.hot, turned.node.trans walked.node, up, fun k elsewhere => ?_, ?_, fun v => ?_⟩
  · rw [turned.others k elsewhere, if_neg elsewhere, walked.others k elsewhere]
    simp [elsewhere]
  · rw [turned.tally, if_pos rfl, ← walked.there, found]
    rfl
  · have before := walked.tally v
    rw [if_neg fresh, storedCell, found, Option.bind_some] at before
    have uncounted : countsTowardsConsensus allNamespace = false := by decide
    rw [storedCell, turned.tally, if_pos rfl, Option.bind_some, (walked.flagged _ _ found).removeExpired_get, before,
      lateAmong_append, uncounted]
    simp

/-- One more namespace, and what the report makes of it. -/
theorem Walked.next (walked : Walked db₀ now done db) (flagged : db₀.Flagged) (fresh : name ∉ done)
    (there : (db₀.namespaces.get name).isSome = true) (first : name = allNamespace → early = done) :
    Walked db₀ now (done ++ [name]) (db.sweepOne w now name).1 ∧
      (db.sweepOne w now name).2.1 = (overdue db₀.node db₀.namespaces now early name).length ∧
      (db.sweepOne w now name).2.2 = if emptied db₀.node db₀.namespaces now early name then [name] else [] := by
  obtain ⟨ns₀, found₀⟩ := Option.isSome_iff_exists.mp there
  have up : (db.sweepOne w now name).1.Flagged :=
    (@sweepOne_updates w ⟨fun _ => True, fun _ => True, fun _ _ => True, True⟩ db now (fun _ => trivial)
      (fun _ _ => trivial) name).flagged walked.flagged
  by_cases all : name = allNamespace
  · subst all
    obtain ⟨ns, found⟩ := Option.isSome_iff_exists.mp (walked.there.trans there)
    have cells : ∀ v, ns.values.get v = turnCell db₀.node db₀.namespaces now early allNamespace v := by
      intro v
      have before := walked.tally v
      rw [if_neg fresh, storedCell, found, Option.bind_some] at before
      rw [before, turnCell, if_pos rfl, first rfl]
      rfl
    obtain ⟨turned, number, left⟩ := @sweepOne_turned db w walked.hot now allNamespace ns found (by decide)
    obtain ⟨count, empties⟩ := turn_reports (walked.flagged _ _ found) (by decide) found₀ cells
    exact ⟨walked.turnAll up found fresh turned, number.trans count, by rw [left, empties]⟩
  · have found : db.namespaces.get name = some ns₀ := by
      rw [walked.others name all, if_neg (fun done => fresh done.1), found₀]
    cases config : startsWith name configPrefix with
    | true =>
        have skipped : db.sweepOne w now name = (db, 0, []) := by simp [Database.sweepOne, found, config]
        rw [skipped]
        have none_ : overdue db₀.node db₀.namespaces now early name = [] := by rw [overdue, if_pos config]
        exact ⟨walked.skip config, by rw [none_]; rfl, by simp [emptied, none_]⟩
    | false =>
        have cells : ∀ v, ns₀.values.get v = turnCell db₀.node db₀.namespaces now early name v := by
          intro v
          rw [turnCell, if_neg all, storedCell, found₀]
          rfl
        obtain ⟨turned, number, left⟩ := @sweepOne_turned db w walked.hot now name ns₀ found config
        obtain ⟨count, empties⟩ := turn_reports (flagged _ _ found₀) config found₀ cells
        exact ⟨walked.turn up (flagged _ _ found₀) found₀ all config turned, number.trans count, by rw [left, empties]⟩

/-- The rest of the walk, with the totals kept on the way. -/
theorem Walked.run {order : List String} (flagged : db₀.Flagged) (once : order.Nodup)
    (there : ∀ name ∈ order, (db₀.namespaces.get name).isSome = true) (rest : List String) {done : List String}
    (acc : Database × Nat × List String) (whole : done ++ rest = order) (walked : Walked db₀ now done acc.1) :
    ∃ db values gone, rest.foldl (fun acc name =>
        let (db, values, emptied) := acc.1.sweepOne w now name
        (db, acc.2.1 + values, acc.2.2 ++ emptied)) acc = (db, values, gone) ∧ Walked db₀ now order db ∧
      values = acc.2.1 + (rest.map fun name => (overdue db₀.node db₀.namespaces now (beforeAll order) name).length).sum ∧
      gone = acc.2.2 ++ rest.filter (emptied db₀.node db₀.namespaces now (beforeAll order)) := by
  induction rest generalizing done acc with
  | nil =>
      rw [List.append_nil] at whole
      exact ⟨_, _, _, rfl, whole ▸ walked, by simp, by simp⟩
  | cons name rest ih =>
      have fresh : name ∉ done := fun before => by
        rw [← whole] at once
        exact (List.disjoint_of_nodup_append once) before List.mem_cons_self
      have first : name = allNamespace → beforeAll order = done := by
        rintro rfl
        rw [beforeAll, ← whole, List.takeWhile_append_of_pos]
        · simp
        · exact fun n before => decide_eq_true fun same => fresh (same ▸ before)
      obtain ⟨next, number, left⟩ := @Walked.next db₀ acc.1 now done (beforeAll order) name w walked flagged fresh
        (there name (by rw [← whole]; simp)) first
      obtain ⟨db, values, gone, same, walked', total, all⟩ := @ih (done ++ [name])
        ((acc.1.sweepOne w now name).1, acc.2.1 + (acc.1.sweepOne w now name).2.1,
          acc.2.2 ++ (acc.1.sweepOne w now name).2.2) (by simp [whole]) next
      refine ⟨db, values, gone, same, walked', ?_, ?_⟩
      · rw [total, number, List.map_cons, List.sum_cons]
        dsimp only
        omega
      · rw [all, left, List.filter_cons]
        split_ifs <;> simp

/-- Every namespace found empty is taken out. -/
theorem prune_all (gone : List String) (once : gone.Nodup) (acc : Database × Nat)
    (blank : ∀ name ∈ gone, startsWith name configPrefix = false ∧
      ∃ ns, acc.1.namespaces.get name = some ns ∧ ns.isEmpty = true) :
    ∃ db, gone.foldl (fun acc name =>
        let (db, gone) := acc.1.pruneOne name
        (db, acc.2 + gone)) acc = (db, acc.2 + gone.length) ∧
      ∀ k, db.namespaces.get k = if k ∈ gone then none else acc.1.namespaces.get k := by
  induction gone generalizing acc with
  | nil => exact ⟨acc.1, rfl, fun k => by simp⟩
  | cons name rest ih =>
      obtain ⟨fresh, once'⟩ := List.nodup_cons.mp once
      obtain ⟨swept, ns, found, empty⟩ := blank name List.mem_cons_self
      have pruned : acc.1.pruneOne name =
          (({ acc.1 with namespaces := acc.1.namespaces.erase name } : Database).uncatalogue name, 1) := by
        simp only [Database.pruneOne, swept, found, empty, Bool.false_eq_true, if_false, if_true]
      have get : ∀ k, (acc.1.pruneOne name).1.namespaces.get k = if k = name then none else acc.1.namespaces.get k := by
        intro k
        rw [pruned]
        simp only [namespaces_uncatalogue, OrderedMap.get_erase]
      obtain ⟨db, same, rest'⟩ := ih once' ((acc.1.pruneOne name).1, acc.2 + (acc.1.pruneOne name).2) fun other member => by
        obtain ⟨swept', ns', found', empty'⟩ := blank other (List.mem_cons_of_mem _ member)
        refine ⟨swept', ns', ?_, empty'⟩
        rw [get, if_neg (fun same : other = name => fresh (same ▸ member)), found']
      refine ⟨db, ?_, fun k => ?_⟩
      · rw [List.foldl_cons, List.length_cons]
        refine same.trans ?_
        rw [pruned]
        refine congrArg (Prod.mk db) ?_
        dsimp only
        omega
      · rw [rest', get]
        by_cases here : k = name
        · simp [here]
        · simp [here]

/-! ## What is left empty -/

section Emptied

variable {node : String} {m : OrderedMap String Namespace} {ns : Namespace}

/-- A namespace of the configuration loses nothing, -/
theorem swept_of_emptied (left : emptied node m now early name = true) : startsWith name configPrefix = false := by
  cases config : startsWith name configPrefix with
  | false => rfl
  | true => simp [emptied, overdue, config] at left

/-- and what is not there has nothing to lose. -/
theorem held_of_emptied (left : emptied node m now early name = true) : ∃ ns, m.get name = some ns := by
  cases found : m.get name with
  | some ns => exact ⟨ns, rfl⟩
  | none => simp [emptied, overdue, found] at left

theorem past_of_emptied (left : emptied node m now early name = true) (v : String) :
    dropPast now (turnCell node m now early name v) = none := by
  obtain ⟨ns, found⟩ := held_of_emptied left
  simp only [emptied, Bool.and_eq_true, found, Option.elim_some, List.all_eq_true] at left
  cases held : turnCell node m now early name v with
  | none => rfl
  | some a =>
      have listed : v ∈ ns.valueNames := by
        have stored := @turnCell_held now early name node m v (by rw [held]; rfl)
        rw [storedCell, found] at stored
        rwa [Namespace.valueNames, OrderedMap.mem_keys, ← Option.isSome_iff_exists]
      have late := left.2 v listed
      rw [held] at late
      exact (dropPast_some a).trans (if_pos late)

/-- Nothing is lost where the flag is down. -/
theorem not_emptied_of_unset (flagged : ns.Flagged) (other : name ≠ allNamespace) (found : m.get name = some ns)
    (unset : ns.hasTtl = false) : ¬ emptied node m now early name = true := by
  intro left
  have quiet : ns.removeExpired now = (ns, []) := by simp [Namespace.removeExpired, unset]
  simp only [emptied, Bool.and_eq_true, Bool.not_eq_true', List.isEmpty_eq_false_iff] at left
  obtain ⟨v, ended⟩ := List.exists_mem_of_ne_nil _ left.1
  simp only [overdue] at ended
  split_ifs at ended
  · cases ended
  · rw [List.mem_filter, turnCell, if_neg other, storedCell, found, Option.bind_some] at ended
    have gone := (@Namespace.Flagged.mem_removed now ns flagged v).mpr ended.2
    rw [quiet] at gone
    cases gone

theorem beforeAll_append {before after : List String} (once : (before ++ allNamespace :: after).Nodup) :
    beforeAll (before ++ allNamespace :: after) = before := by
  have fresh : allNamespace ∉ before := fun member => (List.disjoint_of_nodup_append once) member List.mem_cons_self
  rw [beforeAll, List.takeWhile_append_of_pos]
  · simp
  · exact fun n member => decide_eq_true fun same => fresh (same ▸ member)

end Emptied

/-- After the walk, what was left empty is still there and still empty. -/
theorem Walked.emptied_blank {order : List String} (walked : Walked db₀ now order db) (flagged : db₀.Flagged)
    (there : name ∈ order) (left : emptied db₀.node db₀.namespaces now (beforeAll order) name = true)
    (once : order.Nodup) :
    startsWith name configPrefix = false ∧ ∃ ns, db.namespaces.get name = some ns ∧ ns.isEmpty = true := by
  have swept := swept_of_emptied left
  obtain ⟨ns₀, found₀⟩ := held_of_emptied left
  refine ⟨swept, ?_⟩
  by_cases all : name = allNamespace
  · subst all
    obtain ⟨ns, found⟩ := Option.isSome_iff_exists.mp (walked.there.trans (by rw [found₀]; rfl))
    refine ⟨ns, found, Namespace.isEmpty_iff.mpr fun v => ?_⟩
    obtain ⟨before, after, split⟩ := List.append_of_mem there
    have early : beforeAll order = before := by
      rw [split] at once ⊢
      exact beforeAll_append once
    have later : lateAmong db₀.namespaces now order v =
        lateAmong db₀.namespaces now (allNamespace :: after) v + lateAmong db₀.namespaces now before v := by
      rw [lateAmong, split, List.countP_append, Nat.add_comm]
      rfl
    have cell := walked.tally v
    rw [if_pos there, storedCell, found, Option.bind_some, later, Function.iterate_add_apply,
      ← giveBack_iterate_dropPast] at cell
    have gone := past_of_emptied left v
    rw [turnCell, if_pos rfl, early] at gone
    rw [cell, gone, Function.iterate_fixed rfl]
  · refine ⟨(ns₀.removeExpired now).1, ?_, Namespace.isEmpty_iff.mpr fun v => ?_⟩
    · rw [walked.others name all, if_pos ⟨there, swept⟩, found₀]
      rfl
    · have gone := past_of_emptied left v
      rw [turnCell, if_neg all, storedCell, found₀, Option.bind_some] at gone
      rw [(flagged _ _ found₀).removeExpired_get, gone]

/-- The walk leaves every namespace where it is. -/
theorem Walked.isSome {order : List String} (walked : Walked db₀ now order db) :
    (db.namespaces.get name).isSome = (db₀.namespaces.get name).isSome := by
  by_cases all : name = allNamespace
  · rw [all]
    exact walked.there
  · rw [walked.others name all]
    split_ifs
    · exact Option.isSome_map
    · rfl

/-- The whole sweep, with nothing but the flags and the shard of the tally to rely on. -/
theorem sweep_exact (hot : db₀.evicted internalShard = false) (flagged : db₀.Flagged) {order : List String}
    (perm : order.Perm db₀.namespaces.keys) :
    SweptExactly db₀ now order (db₀.sweep w now order).1 (db₀.sweep w now order).2 ∧
      ∀ name ns, name ≠ allNamespace → db₀.namespaces.get name = some ns → ns.hasTtl = false →
        (db₀.sweep w now order).1.namespaces.get name = some ns := by
  have once : order.Nodup := perm.nodup_iff.mpr (OrderedMap.keys_nodup _)
  have listed : ∀ name, name ∈ order ↔ (db₀.namespaces.get name).isSome = true := by
    intro name
    rw [perm.mem_iff, OrderedMap.mem_keys, ← Option.isSome_iff_exists]
  obtain ⟨db, values, gone, same, walked, total, left⟩ := @Walked.run db₀ now w order flagged once
    (fun name member => (listed name).mp member) order [] (db₀, 0, []) rfl (.start hot flagged)
  rw [List.nil_append] at left
  obtain ⟨db', same', get⟩ := prune_all gone (left ▸ once.filter _) (db, 0) fun name member => by
    rw [left, List.mem_filter] at member
    exact walked.emptied_blank flagged member.1 member.2 once
  have swept : db₀.sweep w now order = (db', ⟨values, gone.length⟩) := by
    simp only [Database.sweep]
    rw [same]
    dsimp only
    rw [same']
    simp
  rw [swept]
  have goes : ∀ name, name ∈ gone ↔ emptied db₀.node db₀.namespaces now (beforeAll order) name = true := by
    intro name
    rw [left, List.mem_filter, listed]
    exact ⟨And.right, fun lost => ⟨Option.isSome_iff_exists.mpr (held_of_emptied lost), lost⟩⟩
  -- A namespace that goes was empty, so its cells are as the walk left them.
  have cells : ∀ name v, storedCell db'.namespaces name v = storedCell db.namespaces name v := by
    intro name v
    rw [storedCell, get]
    split_ifs with member
    · have lost := (goes name).mp member
      have there := (listed name).mpr (Option.isSome_iff_exists.mpr (held_of_emptied lost))
      obtain ⟨_, ns, found, empty⟩ := walked.emptied_blank flagged there lost once
      rw [storedCell, found, Option.bind_some, Namespace.get_of_isEmpty empty]
      rfl
    · rfl
  have keeps : ∀ name, startsWith name configPrefix = true → name ∉ gone := by
    intro name config member
    have swept := swept_of_emptied ((goes name).mp member)
    rw [config] at swept
    cases swept
  refine ⟨⟨fun name other swept' v => ?_, fun name config => ?_, fun v => ?_, fun name => ?_, ?_, ?_⟩,
    fun name ns other found unset => ?_⟩
  · rw [cells, storedCell, walked.others name other]
    cases found : db₀.namespaces.get name with
    | none => simp [storedCell, found]
    | some ns =>
        have member : name ∈ order := (listed name).mpr (by rw [found]; rfl)
        rw [if_pos ⟨member, swept'⟩]
        simp [storedCell, found, (flagged name ns found).removeExpired_get]
  · rw [get, if_neg (keeps name config), walked.others name (config_not_all config),
      if_neg (fun both => by simp [config] at both)]
  · rw [cells, walked.tally]
    split_ifs with member
    · rfl
    · have none_ : db₀.namespaces.get allNamespace = none := by
        rw [listed, Option.not_isSome_iff_eq_none] at member
        exact member
      simp [storedCell, none_, Function.iterate_fixed (f := giveBack db₀.node) (x := none) rfl]
  · have still := @Walked.isSome db₀ db now name order walked
    rw [OrderedMap.contains, OrderedMap.contains, get]
    by_cases member : name ∈ gone
    · rw [if_pos member, (goes name).mp member]
      simp
    · rw [if_neg member, still, Bool.eq_false_iff.mpr fun lost => member ((goes name).mpr lost)]
      simp
  · rw [total]
    simp
  · rw [left, List.countP_eq_length_filter]
  · have quiet : ns.removeExpired now = (ns, []) := by simp [Namespace.removeExpired, unset]
    have stays : name ∉ gone := fun member =>
      not_emptied_of_unset (flagged name ns found) other found unset ((goes name).mp member)
    rw [get, if_neg stays, walked.others name other, found]
    split_ifs
    · rw [Option.map_some, quiet]
    · rfl

end Walk

end SightingDB
