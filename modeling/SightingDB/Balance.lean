import SightingDB.Consensus

/-!
Every run of writes, merges, retags, creations, deletions, shadow-recording reads and
sweeps keeps the tally equal to the count, as long as nothing is evicted, restored or
stated outright.
-/
namespace SightingDB

/-- The books balance: `_all` states the tally, and no namespace of the database's own that
would be tallied holds anything. -/
structure Balanced (node : String) (m : OrderedMap String Namespace) : Prop where
  ledger : Ledger node m (tally m)
  quiet : ∀ name ns, m.get name = some ns → isInternal name = true →
    countsTowardsConsensus name = true → ns.isEmpty = true

section Balanced

variable {node : String} {m : OrderedMap String Namespace}

theorem external_ne_all {name : String} (external : isInternal name = false) : name ≠ allNamespace := by
  rintro rfl
  exact absurd external (by decide)

/-- Taking a value into a namespace that may hold it already. -/
theorem tally_insert_value {path value : String} (external : isInternal path = false) {ns : Namespace}
    {a : Attribute} (values : ns.values = ((m.get path).getD .empty).values.insert value a) :
    tally (m.insert path ns) =
      if ((m.get path).getD .empty).values.contains value then tally m
      else Function.update (tally m) value (tally m value + 1) := by
  funext v
  have step := tally_insert external ns v (m := m)
  by_cases same : v = value
  · subst same
    have now : ns.values.contains v = true := by simp [values, OrderedMap.contains]
    rw [now] at step
    cases held : ((m.get path).getD .empty).values.contains v with
    | true => simpa [held] using step
    | false => simpa [held] using step
  · have unchanged : ns.values.contains v = ((m.get path).getD .empty).values.contains v := by
      simp [values, OrderedMap.contains, OrderedMap.get_insert, same]
    rw [unchanged] at step
    have equal : tally (m.insert path ns) v = tally m v := by omega
    split_ifs with held
    · exact equal
    · rw [Function.update_of_ne same, equal]

theorem Balanced.quiet_insert (balanced : Balanced node m) {path : String} {ns : Namespace}
    (harmless : isInternal path = true → countsTowardsConsensus path = true → ns.isEmpty = true)
    (name : String) (held : Namespace) (found : (m.insert path ns).get name = some held)
    (internal : isInternal name = true) (counts : countsTowardsConsensus name = true) :
    held.isEmpty = true := by
  rw [OrderedMap.get_insert] at found
  split_ifs at found with same
  · subst same
    obtain rfl := Option.some.inj found
    exact harmless internal counts
  · exact balanced.quiet name held found internal counts

/-- A namespace of the database's own other than `_all` can change freely. -/
theorem Balanced.insert_internal (balanced : Balanced node m) {path : String} {ns : Namespace}
    (internal : isInternal path = true) (other : path ≠ allNamespace)
    (harmless : countsTowardsConsensus path = true → ns.isEmpty = true) :
    Balanced node (m.insert path ns) where
  ledger := by
    rw [show tally (m.insert path ns) = tally m from funext (tally_insert_internal internal ns)]
    exact balanced.ledger.insert other ns
  quiet := balanced.quiet_insert fun _ => harmless

/-- A value that was there already leaves the tally alone. -/
theorem Balanced.insert_held (balanced : Balanced node m) {path value : String} {ns : Namespace}
    {a : Attribute} (external : isInternal path = false)
    (values : ns.values = ((m.get path).getD .empty).values.insert value a)
    (held : ((m.get path).getD .empty).values.contains value = true) :
    Balanced node (m.insert path ns) where
  ledger := by
    rw [tally_insert_value external values, if_pos held]
    exact balanced.ledger.insert (external_ne_all external) ns
  quiet := balanced.quiet_insert fun internal => absurd internal (by simp [external])

/-- A value that is new somewhere balances once `_all` has counted it. -/
theorem Balanced.insert_new (balanced : Balanced node m) {path value : String} {ns : Namespace}
    {a : Attribute} (external : isInternal path = false)
    (values : ns.values = ((m.get path).getD .empty).values.insert value a)
    (absent : ((m.get path).getD .empty).values.contains value = false) (when : DateTime)
    (retention : Nat) (fits : (m.insert path ns).size < u64Size) :
    Balanced node ((m.insert path ns).insert allNamespace
      ((((m.insert path ns).get allNamespace).getD .empty).record node value when none retention "").1) := by
  have tallies := tally_insert_value (m := m) external values
  rw [if_neg (by simp [absent])] at tallies
  have bound : tally m value + 1 < u64Size := by
    have := tally_le_size (m.insert path ns) value
    rw [tallies, Function.update_self] at this
    omega
  refine ⟨?_, ?_⟩
  · rw [show tally ((m.insert path ns).insert allNamespace _) = tally (m.insert path ns) from
      funext (tally_insert_internal (by decide) _), tallies]
    exact (balanced.ledger.insert (external_ne_all external) ns).record value when retention bound
  · have stepped : ∀ name held, (m.insert path ns).get name = some held → isInternal name = true →
        countsTowardsConsensus name = true → held.isEmpty = true :=
      balanced.quiet_insert fun internal => absurd internal (by simp [external])
    intro name held found internal counts
    have other : name ≠ allNamespace := by
      rintro rfl
      exact absurd counts (by decide)
    rw [OrderedMap.get_insert, if_neg other] at found
    exact stepped name held found internal counts

/-- A namespace made before anything is written to it balances by itself. -/
theorem Balanced.insert_empty (balanced : Balanced node m) {name : String} (absent : m.get name = none) :
    Balanced node (m.insert name .empty) := by
  have tallies : tally (m.insert name .empty) = tally m := by
    funext v
    cases internal : isInternal name with
    | true => exact tally_insert_internal internal _ v
    | false =>
        have step := tally_insert (m := m) internal .empty v
        rw [absent, Option.getD_none] at step
        omega
  refine ⟨?_, balanced.quiet_insert fun _ _ => rfl⟩
  rw [tallies]
  by_cases other : name = allNamespace
  · subst other
    intro v
    have before := balanced.ledger v
    simpa [allEntry, absent, Namespace.empty] using before
  · exact balanced.ledger.insert other _

/-- An empty namespace taken out is not missed. -/
theorem Balanced.erase_empty (balanced : Balanced node m) {name : String} {ns : Namespace}
    (found : m.get name = some ns) (empty : ns.isEmpty = true) : Balanced node (m.erase name) where
  ledger := by
    rw [show tally (m.erase name) = tally m from funext (tally_erase_empty found empty)]
    by_cases other : name = allNamespace
    · subst other
      have blank : ∀ v, allEntry m v = none := by
        intro v
        simp only [allEntry, found, Option.bind_some, Namespace.get_of_isEmpty empty]
      intro v
      have before := balanced.ledger v
      rw [blank] at before
      simpa [allEntry] using before
    · exact balanced.ledger.erase other
  quiet name' ns' found' := by
    rw [OrderedMap.get_erase] at found'
    split_ifs at found'
    exact balanced.quiet name' ns' found'

end Balanced

/-! ## Operations -/

namespace Database

variable {db : Database} {w : World} {node : String} {m : OrderedMap String Namespace}

/-- What an operation has to show for itself: everything still in memory and, unless the
map has outgrown what can be counted, the books balanced. -/
def StaysBalanced (db : Database) (node : String) : Prop :=
  ∃ m, db.Keeps node m ∧ (m.size < u64Size → Balanced node m)

theorem recordWrite_balanced (keeps : db.Keeps node m) (balanced : Balanced node m)
    (w : World) (origin : String) {path : String} (external : isInternal path = false) (value : String)
    (when : DateTime) (ttl : Option Nat) (tags : String) :
    (db.recordWrite w origin path value when ⟨true, ttl⟩ tags).1.StaysBalanced node := by
  obtain ⟨retention, stored, isNew⟩ :=
    keeps.recordIn w origin path value when (db.ttlOf path ⟨true, ttl⟩) tags
  simp only [recordWrite, isNew, Bool.true_and]
  cases held : ((m.get path).getD .empty).values.contains value with
  | true =>
      simp only [Bool.not_true, Bool.false_eq_true, if_false]
      exact ⟨_, stored.logged w path value, fun _ =>
        balanced.insert_held external (Namespace.record_values ..) held⟩
  | false =>
      simp only [Bool.not_false, if_true, ttlOf_all]
      obtain ⟨retention', tallied⟩ := stored.writePlain w allNamespace value when none
      refine ⟨_, tallied.logged w path value, fun fits => ?_⟩
      exact balanced.insert_new external (Namespace.record_values ..) held when retention'
        (lt_of_le_of_lt (OrderedMap.size_le_insert _ _ _) fits)

theorem merge_balanced (keeps : db.Keeps node m) (balanced : Balanced node m) (w : World)
    {path : String} (external : isInternal path = false) (value : String) (incoming : Merge) :
    (db.merge w path value incoming).1.StaysBalanced node := by
  obtain ⟨created, handle⟩ := keeps.namespaceOrCreate w path
  have stored := created.put path (((m.get path).getD .empty).merge node value incoming).1
  rw [OrderedMap.insert_insert] at stored
  simp only [Database.merge, handle, created.node, Namespace.merge_isNew,
    countsTowardsConsensus_of_external external, Bool.and_true]
  cases held : ((m.get path).getD .empty).values.contains value with
  | true =>
      simp only [Bool.not_true, Bool.false_eq_true, if_false]
      refine ⟨_, ?_, fun _ => balanced.insert_held external (Namespace.merge_values _ node value incoming) held⟩
      split
      · exact stored.markDirty path
      · exact stored
  | false =>
      simp only [Bool.not_false, if_true]
      obtain ⟨retention', tallied⟩ := stored.write w allNamespace value w.now
      rw [ttlOf_all] at tallied
      refine ⟨_, ?_, fun fits => balanced.insert_new external (Namespace.merge_values _ node value incoming)
        held w.now retention' (lt_of_le_of_lt (OrderedMap.size_le_insert _ _ _) fits)⟩
      split
      · exact tallied.markDirty path
      · exact tallied

theorem write_shadow_balanced (keeps : db.Keeps node m) (balanced : Balanced node m) (w : World)
    (name value : String) (when : DateTime) :
    (db.write w (shadowPrefix ++ name) value when .default).StaysBalanced node := by
  have shadow := startsWith_append shadowPrefix name
  obtain ⟨retention, stored⟩ := keeps.write w (shadowPrefix ++ name) value when
  refine ⟨_, stored, fun _ => balanced.insert_internal (isInternal_of_shadow shadow) ?_ ?_⟩
  · intro same
    rw [same] at shadow
    exact absurd shadow (by decide)
  · intro counts
    simp [countsTowardsConsensus, shadow] at counts

/-- Retagging changes neither a number nor a lifetime, also in `_all` itself. -/
theorem Balanced.retag (balanced : Balanced node m) {path : String} {ns : Namespace}
    (found : m.get path = some ns) (value tags : String) (now : DateTime) :
    Balanced node (m.insert path (ns.retag value tags now).1) := by
  have contains := Namespace.retag_contains ns value tags now
  have tallies : tally (m.insert path (ns.retag value tags now).1) = tally m := by
    funext v
    cases internal : isInternal path with
    | true => exact tally_insert_internal internal _ v
    | false =>
        have step := tally_insert (m := m) internal (ns.retag value tags now).1 v
        rw [found, Option.getD_some, contains] at step
        omega
  have empty : ns.isEmpty = true → (ns.retag value tags now).1.isEmpty = true := by
    intro blank
    simpa [Namespace.retag, Namespace.get_of_isEmpty blank] using blank
  refine ⟨?_, balanced.quiet_insert fun internal counts => empty (balanced.quiet path ns found internal counts)⟩
  rw [tallies]
  by_cases other : path = allNamespace
  · subst other
    intro v
    have before := balanced.ledger v
    have entry : allEntry m v = ns.values.get v := by simp [allEntry, found]
    have after : allEntry (m.insert allNamespace (ns.retag value tags now).1) v =
        (ns.retag value tags now).1.values.get v := by simp [allEntry]
    rw [entry] at before
    rw [after]
    simp only [Namespace.retag]
    cases held : ns.values.get value with
    | none => exact before
    | some a =>
        by_cases expired : a.isExpired now
        · simpa [expired] using before
        · simp only [expired, Bool.false_eq_true, if_false, OrderedMap.get_insert]
          by_cases same : v = value
          · subst same
            rw [held] at before
            simpa [Attribute.setTags] using before
          · simpa [same] using before
  · exact balanced.ledger.insert other _

theorem setTags_balanced (keeps : db.Keeps node m) (balanced : Balanced node m) (w : World)
    (path value tags : String) : (db.setTags w path value tags).1.StaysBalanced node := by
  have touched := keeps.touch (w := w) (shardOf path)
  simp only [Database.setTags, keeps.namespace_]
  cases found : m.get path with
  | none => exact ⟨m, touched, fun _ => balanced⟩
  | some ns =>
      refine ⟨_, ?_, fun _ => Balanced.retag balanced found value tags w.now⟩
      have stored := touched.put path (ns.retag value tags w.now).1
      dsimp only
      split
      · exact stored.markDirty path
      · exact stored

theorem createNamespace_balanced (keeps : db.Keeps node m) (balanced : Balanced node m) (w : World)
    (name : String) : (db.createNamespace w name).1.StaysBalanced node := by
  simp only [createNamespace]
  split
  · exact ⟨m, keeps, fun _ => balanced⟩
  · rename_i absent
    obtain ⟨created, _⟩ := keeps.namespaceOrCreate w name
    refine ⟨_, created.markDirty name, fun _ => ?_⟩
    cases found : m.get name with
    | some ns =>
        rw [Option.getD_some, OrderedMap.insert_self m found]
        exact balanced
    | none => exact balanced.insert_empty found

theorem delete_balanced (keeps : db.Keeps node m) (balanced : Balanced node m)
    (fits : m.size < u64Size) (w : World) {name : String} (external : isInternal name = false) :
    (db.delete w name).1.StaysBalanced node := by
  have touched := keeps.touch (w := w) (shardOf name)
  simp only [Database.delete, keeps.namespace_]
  cases found : m.get name with
  | none => exact ⟨m, touched, fun _ => balanced⟩
  | some ns =>
      have other := external_ne_all external
      have bounds : ∀ v, tally m v < u64Size := fun v => lt_of_le_of_lt (tally_le_size m v) fits
      simp only [countsTowardsConsensus_of_external external, if_true]
      obtain ⟨m', keeps', ledger, others, tallies⟩ :=
        (((touched.erase name).markDirty name).uncatalogue name).releaseAll w ns.valueNames
          (balanced.ledger.erase other) bounds
      refine ⟨m', keeps', fun _ => ⟨?_, ?_⟩⟩
      · refine cast (congrArg (Ledger node m') (funext fun v => ?_)) ledger
        have step := tally_erase external found v
        have once : ns.valueNames.count v = (ns.values.contains v).toNat := ns.values.count_keys v
        rw [tallies, once]
        omega
      · intro name' ns' held internal counts
        have hne : name' ≠ allNamespace := by
          rintro rfl
          exact absurd counts (by decide)
        rw [others name' hne, OrderedMap.get_erase] at held
        split_ifs at held
        exact balanced.quiet name' ns' held internal counts

/-- One namespace swept: what it loses, the tally loses. -/
theorem sweepOne_balanced (keeps : db.Keeps node m) (balanced : Balanced node m)
    (bounds : ∀ v, tally m v < u64Size) (w : World) (now : DateTime) (name : String) :
    ∃ m', (db.sweepOne w now name).1.Keeps node m' ∧ Balanced node m' ∧ ∀ v, tally m' v ≤ tally m v := by
  simp only [sweepOne, keeps.namespaces]
  cases found : m.get name with
  | none => exact ⟨m, keeps, balanced, fun _ => le_rfl⟩
  | some ns =>
      dsimp only
      split
      · exact ⟨m, keeps, balanced, fun _ => le_rfl⟩
      · have stored : (if (ns.removeExpired now).2.isEmpty then db.put name (ns.removeExpired now).1
            else (db.put name (ns.removeExpired now).1).markDirty name).Keeps node
            (m.insert name (ns.removeExpired now).1) := by
          have put := keeps.put name (ns.removeExpired now).1
          split
          · exact put
          · exact put.markDirty name
        cases internal : isInternal name with
        | false =>
            simp only [countsTowardsConsensus_of_external internal, if_true]
            obtain ⟨m', keeps', ledger, others, tallies⟩ := stored.releaseAll w (ns.removeExpired now).2
              (balanced.ledger.insert (external_ne_all internal) _) bounds
            have moved : ∀ v, tally m v - (ns.removeExpired now).2.count v = tally m' v := by
              intro v
              have step := tally_insert (m := m) internal (ns.removeExpired now).1 v
              rw [found, Option.getD_some, ns.removeExpired_count now] at step
              rw [tallies]
              omega
            refine ⟨m', keeps', ⟨?_, ?_⟩, fun v => (moved v) ▸ Nat.sub_le _ _⟩
            · exact cast (congrArg (Ledger node m') (funext moved)) ledger
            · intro name' ns' held internal' counts
              have hne : name' ≠ allNamespace := by
                rintro rfl
                exact absurd counts (by decide)
              rw [others name' hne] at held
              exact balanced.quiet_insert (fun internal'' => absurd internal'' (by simp [internal]))
                name' ns' held internal' counts
        | true =>
            -- Only namespaces that are not tallied have anything to lose here.
            have kept : Balanced node (m.insert name (ns.removeExpired now).1) ∧
                (countsTowardsConsensus name = true → (ns.removeExpired now).2 = []) := by
              by_cases idle : countsTowardsConsensus name = true ∨ name = allNamespace
              · have live : ∀ v a, ns.values.get v = some a → a.isExpired now = false := by
                  intro v a held
                  rcases idle with counts | rfl
                  · have empty := balanced.quiet name ns found internal counts
                    rw [Namespace.get_of_isEmpty empty] at held
                    cases held
                  · have entry := balanced.ledger v
                    rw [show allEntry m v = some a by simp [allEntry, found, held]] at entry
                    exact Attribute.isExpired_of_ttl entry.2.2 now
                rw [ns.removeExpired_none live, OrderedMap.insert_self m found]
                exact ⟨balanced, fun _ => rfl⟩
              · rw [not_or] at idle
                exact ⟨balanced.insert_internal internal idle.2 fun counts => absurd counts idle.1,
                  fun counts => absurd counts idle.1⟩
            refine ⟨_, ?_, kept.1, fun v => le_of_eq (tally_insert_internal internal _ v)⟩
            split
            · rename_i counts
              rw [kept.2 counts] at stored ⊢
              exact stored
            · exact stored

theorem pruneOne_balanced (keeps : db.Keeps node m) (balanced : Balanced node m) (name : String) :
    ∃ m', (db.pruneOne name).1.Keeps node m' ∧ Balanced node m' ∧ ∀ v, tally m' v ≤ tally m v := by
  simp only [pruneOne, keeps.namespaces]
  split
  · exact ⟨m, keeps, balanced, fun _ => le_rfl⟩
  · cases found : m.get name with
    | none => exact ⟨m, keeps, balanced, fun _ => le_rfl⟩
    | some ns =>
        dsimp only
        split
        · rename_i empty
          have erased := (keeps.erase name).uncatalogue name
          rw [keeps.namespaces] at erased
          refine ⟨_, erased, balanced.erase_empty found empty, fun v => ?_⟩
          have step := m.countP_erase (fun name ns => !isInternal name && ns.values.contains v) name
          exact (Nat.le_add_right _ _).trans step.le
        · exact ⟨m, keeps, balanced, fun _ => le_rfl⟩

theorem sweep_balanced (keeps : db.Keeps node m) (balanced : Balanced node m)
    (fits : m.size < u64Size) (w : World) (now : DateTime) (order : List String) :
    (db.sweep w now order).1.StaysBalanced node := by
  have swept : ∃ m', (db.sweep w now order).1.Keeps node m' ∧ Balanced node m' ∧ ∀ v, tally m' v < u64Size := by
    refine @sweep_induction (fun db => ∃ m', db.Keeps node m' ∧ Balanced node m' ∧ ∀ v, tally m' v < u64Size)
      w now ?_ ?_ db ⟨m, keeps, balanced, fun v => lt_of_le_of_lt (tally_le_size m v) fits⟩ order
    · rintro db name ⟨m, keeps, balanced, bounds⟩
      obtain ⟨m', keeps', balanced', shrinks⟩ := sweepOne_balanced keeps balanced bounds w now name
      exact ⟨m', keeps', balanced', fun v => lt_of_le_of_lt (shrinks v) (bounds v)⟩
    · rintro db name ⟨m, keeps, balanced, bounds⟩
      obtain ⟨m', keeps', balanced', shrinks⟩ := pruneOne_balanced keeps balanced name
      exact ⟨m', keeps', balanced', fun v => lt_of_le_of_lt (shrinks v) (bounds v)⟩
  obtain ⟨m', keeps', balanced', _⟩ := swept
  exact ⟨m', keeps', fun _ => balanced'⟩

end Database

/-! ## Runs -/

namespace Consensus

/-- What a server is asked to do, one at a time. -/
inductive Op
  | write (origin : Option String) (name value : String) (when : Option DateTime) (ttl : Option Nat)
      (tags : String)
  | merge (name value : String) (incoming : Merge)
  | setTags (name value tags : String)
  | create (name : String)
  | delete (name : String)
  | read (name value : String) (withStats withShadow : Bool)
  | sweep (now : DateTime) (order : List String)

/-- A table asked to grow past `isize::MAX` entries aborts the process. -/
def tableLimit : Nat := 2 ^ 63

/-- Merges and deletions of the database's own namespaces never get this far, and a sweep
walks the namespaces that exist, in some order. -/
def apply (db : Database) (w : World) : Op → Option Database
  | .write origin name value when ttl tags => some (writeTaggedAs db w origin name value when ttl tags).1
  | .merge name value incoming =>
      if isInternal name then none else some (db.merge w name value incoming).1
  | .setTags name value tags => some (db.setTags w name value tags).1
  | .create name => some (db.createNamespace w name).1
  | .delete name => if isInternal name then none else some (db.delete w name).1
  | .read name value withStats withShadow => some (read db w name value withStats withShadow).1
  | .sweep now order => if order.Perm db.namespaces.keys then some (db.sweep w now order).1 else none

def step (db : Database) (e : World × Op) : Option Database :=
  (apply db e.1 e.2).filter fun db => db.namespaces.size < tableLimit

def run (db : Database) : List (World × Op) → Option Database
  | [] => some db
  | e :: rest => (step db e).bind fun db => run db rest

/-- The invariant of a run. -/
structure Sound (db : Database) (node : String) : Prop where
  keeps : db.Keeps node db.namespaces
  balanced : Balanced node db.namespaces
  fits : db.namespaces.size < u64Size

theorem read_balanced {db : Database} {node : String} (sound : Sound db node) (w : World)
    (name value : String) (withStats withShadow : Bool) :
    (read db w name value withStats withShadow).1.StaysBalanced node := by
  simp only [read]
  split
  · exact ⟨_, sound.keeps, fun _ => sound.balanced⟩
  · have counted := (sound.keeps.count w allNamespace value).1
    have viewed : ((db.count w allNamespace value).1.view w name value
        (db.count w allNamespace value).2 withStats).1.Keeps node db.namespaces := by
      simp only [Database.view, counted.namespace_]
      cases db.namespaces.get name <;> exact counted.touch _
    dsimp only
    split
    · exact Database.write_shadow_balanced viewed sound.balanced w name value w.now
    · exact ⟨_, viewed, fun _ => sound.balanced⟩

theorem apply_balanced {db db' : Database} {node : String} {w : World} {op : Op} (sound : Sound db node)
    (applied : apply db w op = some db') : db'.StaysBalanced node := by
  cases op with
  | write origin name value when ttl tags =>
      obtain rfl := Option.some.inj applied
      simp only [writeTaggedAs, check]
      split_ifs with empty internal foreign
      · exact ⟨_, sound.keeps, fun _ => sound.balanced⟩
      · exact ⟨_, sound.keeps, fun _ => sound.balanced⟩
      · exact ⟨_, sound.keeps, fun _ => sound.balanced⟩
      · exact Database.recordWrite_balanced sound.keeps sound.balanced w _ (by simpa using internal)
          value _ ttl tags
  | merge name value incoming =>
      simp only [apply] at applied
      split_ifs at applied with internal
      obtain rfl := Option.some.inj applied
      exact Database.merge_balanced sound.keeps sound.balanced w (by simpa using internal) value incoming
  | setTags name value tags =>
      obtain rfl := Option.some.inj applied
      exact Database.setTags_balanced sound.keeps sound.balanced w name value tags
  | create name =>
      obtain rfl := Option.some.inj applied
      exact Database.createNamespace_balanced sound.keeps sound.balanced w name
  | delete name =>
      simp only [apply] at applied
      split_ifs at applied with internal
      obtain rfl := Option.some.inj applied
      exact Database.delete_balanced sound.keeps sound.balanced sound.fits w (by simpa using internal)
  | read name value withStats withShadow =>
      obtain rfl := Option.some.inj applied
      exact read_balanced sound w name value withStats withShadow
  | sweep now order =>
      simp only [apply] at applied
      split_ifs at applied
      obtain rfl := Option.some.inj applied
      exact Database.sweep_balanced sound.keeps sound.balanced sound.fits w now order

theorem step_sound {db db' : Database} {node : String} {e : World × Op} (sound : Sound db node)
    (stepped : step db e = some db') : Sound db' node := by
  obtain ⟨applied, fits⟩ := Option.filter_eq_some_iff.mp stepped
  have small : db'.namespaces.size < u64Size :=
    lt_trans (of_decide_eq_true fits) (by decide)
  obtain ⟨m, keeps, balanced⟩ := apply_balanced sound applied
  have same := keeps.namespaces
  subst same
  exact ⟨keeps, balanced small, small⟩

theorem run_sound {db db' : Database} {node : String} {ops : List (World × Op)} (sound : Sound db node)
    (ran : run db ops = some db') : Sound db' node := by
  induction ops generalizing db with
  | nil =>
      obtain rfl := Option.some.inj ran
      exact sound
  | cons e rest ih =>
      obtain ⟨mid, stepped, ranRest⟩ := Option.bind_eq_some_iff.mp ran
      exact ih (step_sound sound stepped) ranRest

theorem withNode_sound (policy : DatabasePolicy) (stores : StoragePolicy) (node : String) :
    Sound (.withNode policy stores node) node where
  keeps := ⟨fun _ _ found => by simp [Database.withNode] at found, rfl, rfl⟩
  balanced := ⟨fun v => rfl, fun _ _ found => by simp [Database.withNode] at found⟩
  fits := by
    change 0 < u64Size
    decide

/-- After every step of every run from an empty database the count that `_all` gives is the
number of namespaces that hold the value, and the value has an entry there exactly when
some namespace holds it. -/
theorem consensus_is_tally (policy : DatabasePolicy) (stores : StoragePolicy) (node : String)
    (ops : List (World × Op)) (db : Database) (ran : run (.withNode policy stores node) ops = some db)
    (w : World) (value : String) :
    (db.count w allNamespace value).2 = tally db.namespaces value ∧
      ((allEntry db.namespaces value).isSome ↔ 0 < tally db.namespaces value) := by
  have sound := run_sound (withNode_sound policy stores node) ran
  have entry := sound.balanced.ledger value
  have bound := lt_of_le_of_lt (tally_le_size db.namespaces value) sound.fits
  have counted := (sound.keeps.count w allNamespace value).2
  rw [counted]
  cases all : db.namespaces.get allNamespace with
  | none =>
      have nothing : allEntry db.namespaces value = none := by simp [allEntry, all]
      rw [nothing] at entry ⊢
      simp [entry]
  | some ns =>
      have here : allEntry db.namespaces value = ns.values.get value := by simp [allEntry, all]
      rw [here] at entry ⊢
      cases found : ns.values.get value with
      | none =>
          rw [found] at entry
          simp [Namespace.count, found, entry]
      | some a =>
          rw [found] at entry
          obtain ⟨positive, counts, never⟩ := entry
          have total : a.count = tally db.namespaces value := by
            rw [Attribute.count, counts, OrderedMap.total_single, Nat.mod_eq_of_lt bound]
          simp [Namespace.count, found, Attribute.isExpired_of_ttl never, total, positive]

/-- Two namespaces see a value and one of them is deleted. -/
def seenTwice : List (World × Op) :=
  [(.sample, .write none "a/x" "v" none none ""), (.sample, .write none "a/y" "v" none none "t"),
    (.sample, .delete "a/x")]

theorem consensus_is_tally_seenTwice : ∃ db,
    run (.withNode ⟨0, 0⟩ .storeEverything "local") seenTwice = some db ∧
      (db.count .sample allNamespace "v").2 = 1 ∧ tally db.namespaces "v" = 1 := by
  refine ⟨_, rfl, ?_, by decide⟩
  rw [(consensus_is_tally ⟨0, 0⟩ .storeEverything "local" seenTwice _ rfl .sample "v").1]
  decide

end Consensus

end SightingDB
