import SightingDB.ConsensusSteps
import SightingDB.Balance

/-!
What writers, merges, deletions and sweeps keep between them. While they are under way, `_all`
is behind by what threads have still to tell it and ahead by what they have still to give back,
and the catalogue differs from the map by what they have still to enroll and to take out.
-/
namespace SightingDB.Concurrent

open Threads

/-- How many namespaces that count towards consensus hold a value, expired or not. -/
def counted (m : OrderedMap String Namespace) (value : String) : Nat :=
  m.countP fun name ns => countsTowardsConsensus name && ns.values.contains value

def Shared.lists (sh : Shared) (name : String) : Bool :=
  match sh.shards.get (shardOf name) with
  | none => false
  | some meta_ => meta_.namespaces.contains name

/-! ## What is under way -/

/-- A value is in its namespace and `_all` has not been told. -/
def Point.owes : Point → Bool
  | .allLookup _ | .allCreate _ | .allEnroll _ _ | .allRecord _ _ => true
  | _ => false

def Thread.owes (value : String) : Thread → Nat
  | .change _ c at_ => if at_.owes && c.value = value then 1 else 0
  | _ => 0

/-- Values that are out of their namespace and have still to be given back. -/
def Removal.due (name : String) : Removal → List String
  | .uncatalogue listed => if countsTowardsConsensus name then listed else []
  | .giveFind value rest | .give _ value rest => value :: rest
  | _ => []

def Sweep.due : Sweep → List String
  | .isEmpty name _ expired _ => if countsTowardsConsensus name then expired else []
  | .giveFind value rest _ | .give _ value rest _ => value :: rest
  | _ => []

def Thread.due : Thread → List String
  | .change _ _ _ => []
  | .delete name at_ => at_.due name
  | .sweep _ at_ => at_.due

/-- In the map, and not in the catalogue yet. -/
def Thread.enrolls (name : String) : Thread → Bool
  | .change path _ (.enroll _) => path = name
  | .change _ _ (.allEnroll _ _) => allNamespace = name
  | _ => false

/-- Out of the map, and still in the catalogue. -/
def Thread.uncatalogues (name : String) : Thread → Bool
  | .delete n (.uncatalogue _) => n = name
  | .sweep _ (.uncatalogue removed) => removed.contains name
  | _ => false

def Thread.done : Thread → Bool
  | .change _ _ .done | .delete _ .done | .sweep _ .done => true
  | _ => false

/-! ## The invariant -/

/-- What a handle taken under a name leads to is found under no other; `_all` is never taken out
of the map. -/
structure Owned (sh : Shared) (name : String) (id : Nat) : Prop where
  within : id < sh.namespaces.cells.length
  only : ∀ k, sh.namespaces.handle k = some id → k = name
  stays : name = allNamespace → sh.namespaces.handle allNamespace = some id

/-- The handles a thread works on, with the names they were taken under. -/
def Point.refs (path : String) : Point → List (String × Nat)
  | .lookup | .create | .done => []
  | .enroll id | .apply id | .allLookup id | .allCreate id | .mark id => [(path, id)]
  | .allEnroll id all | .allRecord id all => [(path, id), (allNamespace, all)]

def Removal.refs : Removal → List (String × Nat)
  | .give all _ _ => [(allNamespace, all)]
  | _ => []

def Sweep.refs : Sweep → List (String × Nat)
  | .check name id walk | .retain name id walk => (name, id) :: walk.todo
  | .isEmpty _ _ _ walk | .giveFind _ _ walk => walk.todo
  | .give all _ _ walk => (allNamespace, all) :: walk.todo
  | .snapshot | .prune _ | .uncatalogue _ | .done => []

def Thread.refs : Thread → List (String × Nat)
  | .change path _ at_ => at_.refs path
  | .delete _ at_ => at_.refs
  | .sweep _ at_ => at_.refs

/-- The namespaces a sweep may reclaim. -/
def Sweep.emptied : Sweep → List String
  | .check _ _ walk | .retain _ _ walk | .isEmpty _ _ _ walk | .giveFind _ _ walk
  | .give _ _ _ walk => walk.emptied
  | .prune emptied => emptied
  | .snapshot | .uncatalogue _ | .done => []

/-- What callers promise, and what a sweep keeps to by itself. -/
def Thread.Fair : Thread → Prop
  | .change path c _ => path ≠ allNamespace ∧ c.tells path = countsTowardsConsensus path
  | .delete name _ => name ≠ allNamespace
  | .sweep _ at_ => allNamespace ∉ at_.emptied ∧
      ∀ name id expired walk, at_ = .isEmpty name id expired walk → name ≠ allNamespace

structure Ok (_threads : List Thread) (sh : Shared) (_i : Nat) (t : Thread) : Prop where
  refs : ∀ r ∈ t.refs, Owned sh r.1 r.2
  due : t.due.Nodup
  fair : t.Fair

structure Sound (server : Server) (threads : List Thread) (sh : Shared) : Prop where
  balance : ∃ f, Ledger server.node sh.namespaces.objects f ∧ ∀ v,
    f v + total (Thread.owes v) threads =
      counted sh.namespaces.objects v + total (fun t => t.due.count v) threads
  fresh : ∀ name id, sh.namespaces.handle name = some id →
    sh.lists name = true ∨ Among (fun t => t.enrolls name = true) threads
  stale : ∀ name, sh.lists name = true →
    (∃ id, sh.namespaces.handle name = some id) ∨ Among (fun t => t.uncatalogues name = true) threads

/-! ## Counting -/

section Counting

variable {m m' : OrderedMap String Namespace} {name : String}

theorem counted_insert (name : String) (ns : Namespace) (v : String) :
    counted (m.insert name ns) v +
        (countsTowardsConsensus name && (m.get name).elim false (·.values.contains v)).toNat =
      counted m v + (countsTowardsConsensus name && ns.values.contains v).toNat := by
  have count := m.countP_insert
    (fun name ns => countsTowardsConsensus name && ns.values.contains v) name ns
  cases found : m.get name with
  | none => simpa [counted, found] using count
  | some old => simpa [counted, found] using count

theorem counted_erase (name v : String) :
    counted (m.erase name) v +
        (countsTowardsConsensus name && (m.get name).elim false (·.values.contains v)).toNat =
      counted m v := by
  have count := m.countP_erase (fun name ns => countsTowardsConsensus name && ns.values.contains v) name
  cases found : m.get name with
  | none => simpa [counted, found] using count
  | some old => simpa [counted, found] using count

/-- `_all` itself does not count. -/
theorem counted_insert_all (ns : Namespace) (v : String) :
    counted (m.insert allNamespace ns) v = counted m v := by
  have step := counted_insert (m := m) allNamespace ns v
  have none : countsTowardsConsensus allNamespace = false := by decide
  simpa [none] using step

theorem counted_insert_empty (absent : m.get name = none) (v : String) :
    counted (m.insert name .empty) v = counted m v := by
  have step := counted_insert (m := m) name .empty v
  simpa [absent, Namespace.empty, OrderedMap.contains] using step

theorem counted_le_size (v : String) : counted m v ≤ m.size := List.countP_le_length

/-- The ledger is all in `_all`. -/
theorem ledger_congr {node : String} {f : String → Nat} (ledger : Ledger node m f)
    (same : m'.get allNamespace = m.get allNamespace) : Ledger node m' f := by
  intro v
  rw [show allEntry m' v = allEntry m v by rw [allEntry, allEntry, same]]
  exact ledger v

end Counting

/-! ## One turn -/

section Turn

variable {server : Server} {threads : List Thread} {sh sh' : Shared} {i : Nat} {t t' : Thread}

/-- What the turn does to the books, for itself: the ledger, what it owes and what it is due. -/
def Squares (server : Server) (sh sh' : Shared) (t t' : Thread) : Prop :=
  ∀ f, Ledger server.node sh.namespaces.objects f → (∀ v, f v + 1 < u64Size) →
    ∃ f', Ledger server.node sh'.namespaces.objects f' ∧ ∀ v,
      f' v + t'.owes v + counted sh.namespaces.objects v + t.due.count v =
        f v + t.owes v + counted sh'.namespaces.objects v + t'.due.count v

theorem Thread.due_done (done : t.done = true) : t.due = [] := by
  cases t with
  | change path c at_ => rfl
  | delete name at_ => cases at_ <;> first | rfl | cases done
  | sweep now at_ => cases at_ <;> first | rfl | cases done

theorem Thread.owes_done (done : t.done = true) (v : String) : t.owes v = 0 := by
  cases t with
  | change path c at_ => cases at_ <;> first | rfl | cases done
  | delete name at_ => rfl
  | sweep now at_ => rfl

theorem Thread.enrolls_done (done : t.done = true) (n : String) : t.enrolls n = false := by
  cases t with
  | change path c at_ => cases at_ <;> first | rfl | cases done
  | delete name at_ => rfl
  | sweep now at_ => rfl

theorem Thread.uncatalogues_done (done : t.done = true) (n : String) : t.uncatalogues n = false := by
  cases t with
  | change path c at_ => rfl
  | delete name at_ => cases at_ <;> first | rfl | cases done
  | sweep now at_ => cases at_ <;> first | rfl | cases done

/-- Every operation under way gives back at most one of each value. -/
theorem total_due_le (oks : ∀ i t, threads[i]? = some t → Ok threads sh i t) (v : String) :
    total (fun t => t.due.count v) threads ≤ threads.countP fun t => !t.done := by
  refine total_le_countP fun t mem => ?_
  obtain ⟨i, here⟩ := List.mem_iff_getElem?.mp mem
  have once := List.nodup_iff_count_le_one.mp (oks i t here).due v
  cases done : t.done with
  | true => simp [Thread.due_done done]
  | false => simpa using once

theorem ledger_fits {f : String → Nat} (oks : ∀ i t, threads[i]? = some t → Ok threads sh i t)
    (tables : sh.namespaces.map.size < Consensus.tableLimit)
    (room : threads.countP (fun t => !t.done) < Consensus.tableLimit)
    (balance : ∀ v, f v + total (Thread.owes v) threads =
      counted sh.namespaces.objects v + total (fun t => t.due.count v) threads) (v : String) :
    f v + 1 < u64Size := by
  have due := total_due_le oks v
  have held := counted_le_size (m := sh.namespaces.objects) v
  rw [Handles.size_objects] at held
  have sum := balance v
  simp only [Consensus.tableLimit] at tables room
  simp only [u64Size]
  omega

/-- A turn that squares its own books keeps everybody's. -/
theorem keeps_of_squares (sound : Sound server threads sh)
    (oks : ∀ i t, threads[i]? = some t → Ok threads sh i t)
    (tables : sh.namespaces.map.size < Consensus.tableLimit)
    (room : threads.countP (fun t => !t.done) < Consensus.tableLimit)
    (here : threads[i]? = some t) (squares : Squares server sh sh' t t')
    (fresh : ∀ name id, sh'.namespaces.handle name = some id →
      sh'.lists name = true ∨ Among (fun t => t.enrolls name = true) (threads.set i t'))
    (stale : ∀ name, sh'.lists name = true → (∃ id, sh'.namespaces.handle name = some id) ∨
      Among (fun t => t.uncatalogues name = true) (threads.set i t'))
    (owned : ∀ name id, Owned sh name id → Owned sh' name id) (own : Ok threads sh' i t') :
    Pool.Keeps (Sound server) Ok i threads sh (threads.set i t') sh' t' := by
  obtain ⟨f, ledger, balance⟩ := sound.balance
  obtain ⟨f', ledger', square⟩ := squares f ledger (ledger_fits oks tables room balance)
  refine ⟨⟨⟨f', ledger', fun v => ?_⟩, fresh, stale⟩, ⟨own.refs, own.due, own.fair⟩, ?_⟩
  · have owes := total_set (f := Thread.owes v) here t'
    have due := total_set (f := fun t : Thread => t.due.count v) here t'
    have before := balance v
    have turn := square v
    omega
  · intro j u _ _ ok
    exact ⟨fun r mem => owned r.1 r.2 (ok.refs r mem), ok.due, ok.fair⟩

end Turn

/-! ## The map and the catalogue -/

theorem Owned.of_handle {sh : Shared} {name : String} {id : Nat}
    (found : sh.namespaces.handle name = some id) : Owned sh name id where
  within := sh.namespaces.within name id found
  only k found' := sh.namespaces.apart k name id found' found
  stays same := same ▸ found

theorem Owned.same {sh sh' : Shared} {name : String} {id : Nat} (owned : Owned sh name id)
    (handles : ∀ n, sh'.namespaces.handle n = sh.namespaces.handle n)
    (cells : sh'.namespaces.cells.length = sh.namespaces.cells.length) : Owned sh' name id where
  within := by
    rw [cells]
    exact owned.within
  only k found := owned.only k (handles k ▸ found)
  stays same := by
    rw [handles]
    exact owned.stays same

theorem get_cell {sh : Shared} {name : String} {id : Nat} (found : sh.namespaces.handle name = some id) :
    sh.namespaces.get name = some (sh.cell id) := by
  obtain ⟨ns, held⟩ := sh.namespaces.exists_get found
  obtain ⟨id', found', at_⟩ := (Handles.get_eq_some _).mp held
  cases found.symm.trans found'
  rw [held, Shared.cell, at_]
  rfl

/-- A handle still leads to its name, or to nothing that is found. -/
theorem Owned.cases {sh : Shared} {name : String} {id : Nat} (owned : Owned sh name id) :
    sh.namespaces.handle name = some id ∨ ∀ k, sh.namespaces.handle k ≠ some id := by
  by_cases found : sh.namespaces.handle name = some id
  · exact .inl found
  · refine .inr fun k found' => found ?_
    have same := owned.only k found'
    exact same ▸ found'

theorem objects_create {sh : Shared} {name : String} (absent : sh.namespaces.handle name = none) :
    (sh.create name).1 = { sh with namespaces := sh.namespaces.add name .empty } ∧
      (sh.create name).2 = sh.namespaces.cells.length := by
  simp [Shared.create, absent]

theorem Owned.add {sh : Shared} {n name : String} {id : Nat} (owned : Owned sh n id)
    (absent : sh.namespaces.handle name = none) :
    Owned { sh with namespaces := sh.namespaces.add name .empty } n id where
  within := by
    have := owned.within
    simp only [Handles.add, List.length_append, List.length_singleton]
    omega
  only k found := by
    simp only [Handles.handle_add] at found
    split at found
    · cases found
      exact absurd owned.within (lt_irrefl _)
    · exact owned.only k found
  stays same := by
    have held := owned.stays same
    have other : allNamespace ≠ name := by
      rintro rfl
      rw [absent] at held
      cases held
    simp only [Handles.handle_add, if_neg other, held]

theorem lists_enroll (sh : Shared) (name : String) (now : DateTime) (n : String) :
    (sh.enroll name now).lists n = (decide (n = name) || sh.lists n) := by
  simp only [Shared.lists, Shared.enroll, Database.catalogue, OrderedMap.get_insert]
  by_cases shard : shardOf n = shardOf name
  · rw [if_pos shard, shard]
    cases sh.shards.get (shardOf name) with
    | none => by_cases same : n = name <;> simp [ShardMeta.default, OrderedMap.contains, OrderedMap.get_insert, same]
    | some meta_ => by_cases same : n = name <;> simp [OrderedMap.contains, OrderedMap.get_insert, same]
  · have other : n ≠ name := fun same => shard (same ▸ rfl)
    simp [shard, other]

theorem lists_uncatalogue (sh : Shared) (name n : String) :
    (sh.uncatalogue name).lists n = (decide (n ≠ name) && sh.lists n) := by
  unfold Shared.uncatalogue
  cases found : sh.shards.get (shardOf name) with
  | none =>
      by_cases same : n = name
      · subst same
        simp [Shared.lists, found]
      · simp [same]
  | some meta_ =>
      simp only [Shared.lists, OrderedMap.get_insert]
      by_cases shard : shardOf n = shardOf name
      · rw [if_pos shard, shard, found]
        by_cases same : n = name <;> simp [OrderedMap.contains, OrderedMap.get_erase, same]
      · have other : n ≠ name := fun same => shard (same ▸ rfl)
        simp [shard, other]

@[simp] theorem uncatalogue_namespaces (sh : Shared) (name : String) :
    (sh.uncatalogue name).namespaces = sh.namespaces := by
  unfold Shared.uncatalogue
  split <;> rfl

theorem lists_uncatalogueAll (removed : List String) (sh : Shared) (n : String) :
    (removed.foldl Shared.uncatalogue sh).lists n = (decide (n ∉ removed) && sh.lists n) := by
  induction removed generalizing sh with
  | nil => simp
  | cons name rest ih =>
      rw [List.foldl_cons, ih, lists_uncatalogue]
      by_cases same : n = name <;> by_cases mem : n ∈ rest <;> simp [same, mem]

theorem uncatalogueAll_namespaces (removed : List String) (sh : Shared) :
    (removed.foldl Shared.uncatalogue sh).namespaces = sh.namespaces := by
  induction removed generalizing sh with
  | nil => rfl
  | cons name rest ih => rw [List.foldl_cons, ih, uncatalogue_namespaces]

@[simp] theorem handle_unlink (sh : Shared) (name n : String) :
    (sh.unlink name).namespaces.handle n = if n = name then none else sh.namespaces.handle n := by
  unfold Shared.unlink
  rw [Handles.handle_filter]
  by_cases same : n = name <;> simp [same]

theorem objects_unlink (sh : Shared) (name : String) :
    (sh.unlink name).namespaces.objects = sh.namespaces.objects.erase name :=
  Handles.objects_erase _ _

theorem handle_unlinkAll (removed : List String) (sh : Shared) (n : String) :
    (removed.foldl Shared.unlink sh).namespaces.handle n =
      if n ∈ removed then none else sh.namespaces.handle n := by
  induction removed generalizing sh with
  | nil => simp
  | cons name rest ih =>
      rw [List.foldl_cons, ih, handle_unlink]
      by_cases same : n = name <;> by_cases mem : n ∈ rest <;> simp [same, mem]

theorem unlinkAll_rest (removed : List String) (sh : Shared) :
    (removed.foldl Shared.unlink sh).shards = sh.shards ∧
      (removed.foldl Shared.unlink sh).namespaces.cells = sh.namespaces.cells := by
  induction removed generalizing sh with
  | nil => exact ⟨rfl, rfl⟩
  | cons name rest ih => exact ih (sh.unlink name)

/-- Taking out namespaces that are empty moves no count. -/
theorem counted_unlinkAll (removed : List String) (sh : Shared)
    (empty : ∀ name ∈ removed, ∀ ns, sh.namespaces.get name = some ns → ns.isEmpty = true) (v : String) :
    counted (removed.foldl Shared.unlink sh).namespaces.objects v = counted sh.namespaces.objects v := by
  induction removed generalizing sh with
  | nil => rfl
  | cons name rest ih =>
      rw [List.foldl_cons, ih (sh.unlink name)]
      · have step := counted_erase (m := sh.namespaces.objects) name v
        rw [objects_unlink]
        cases found : sh.namespaces.get name with
        | none => simpa [Handles.get_objects, found] using step
        | some ns =>
            have gone : ns.values.contains v = false := OrderedMap.not_contains_iff.mpr
              (Namespace.get_of_isEmpty (empty name (by simp) ns found) v)
            simpa [Handles.get_objects, found, gone] using step
      · intro n mem ns found
        refine empty n (List.mem_cons_of_mem _ mem) ns ?_
        unfold Shared.unlink at found
        rw [Handles.get_filter] at found
        split at found
        · exact found
        · cases found

/-! ## Kinds of turns -/

section Kinds

variable {server : Server} {threads : List Thread} {sh sh' : Shared} {i : Nat} {t t' : Thread}
  (sound : Sound server threads sh) (oks : ∀ i t, threads[i]? = some t → Ok threads sh i t)
  (tables : sh.namespaces.map.size < Consensus.tableLimit)
  (room : threads.countP (fun t => !t.done) < Consensus.tableLimit) (here : threads[i]? = some t)

/-- Neither the books nor what the thread has still to do for them change. -/
theorem squares_same (objects : sh'.namespaces.objects = sh.namespaces.objects)
    (owes : ∀ v, t'.owes v = t.owes v) (due : t'.due = t.due) : Squares server sh sh' t t' := by
  intro f ledger _
  refine ⟨f, by rw [objects]; exact ledger, fun v => ?_⟩
  rw [objects, owes, due]

include sound oks tables room here in
/-- A turn that moves nothing in the map and nothing in the catalogue. -/
theorem keeps_inside (handles : ∀ n, sh'.namespaces.handle n = sh.namespaces.handle n)
    (cells : sh'.namespaces.cells.length = sh.namespaces.cells.length) (shards : sh'.shards = sh.shards)
    (squares : Squares server sh sh' t t') (enrolls : ∀ n, t.enrolls n = true → t'.enrolls n = true)
    (uncatalogues : ∀ n, t.uncatalogues n = true → t'.uncatalogues n = true) (own : Ok threads sh' i t') :
    Pool.Keeps (Sound server) Ok i threads sh (threads.set i t') sh' t' := by
  have lists : ∀ n, sh'.lists n = sh.lists n := fun n => by simp only [Shared.lists, shards]
  refine keeps_of_squares sound oks tables room here squares (fun n id found => ?_) (fun n listed => ?_)
    (fun n id owned => owned.same handles cells) own
  · rw [handles] at found
    rw [lists]
    exact (sound.fresh n id found).imp_right fun among => .set here (enrolls n) among
  · rw [lists] at listed
    rw [handles]
    exact (sound.stale n listed).imp_right fun among => .set here (uncatalogues n) among

include sound oks tables room here in
theorem keeps_quiet (owes : ∀ v, t'.owes v = t.owes v) (due : t'.due = t.due)
    (enrolls : ∀ n, t.enrolls n = true → t'.enrolls n = true)
    (uncatalogues : ∀ n, t.uncatalogues n = true → t'.uncatalogues n = true) (own : Ok threads sh i t') :
    Pool.Keeps (Sound server) Ok i threads sh (threads.set i t') sh t' :=
  keeps_inside sound oks tables room here (fun _ => rfl) rfl rfl (squares_same rfl owes due) enrolls
    uncatalogues own

theorem put_handles (id : Nat) (ns : Namespace) (n : String) :
    (sh.put id ns).namespaces.handle n = sh.namespaces.handle n := rfl

theorem put_cells (id : Nat) (ns : Namespace) :
    (sh.put id ns).namespaces.cells.length = sh.namespaces.cells.length := List.length_modify ..

include sound oks tables room here in
/-- A namespace registered under a name that was not in the map. -/
theorem keeps_create {name : String} (absent : sh.namespaces.handle name = none)
    (owes : ∀ v, t'.owes v = t.owes v) (due : t'.due = t.due) (enrolls : t'.enrolls name = true)
    (quiet : ∀ n, t.enrolls n = false ∧ t.uncatalogues n = false)
    (own : Ok threads { sh with namespaces := sh.namespaces.add name .empty } i t') :
    Pool.Keeps (Sound server) Ok i threads sh (threads.set i t')
      { sh with namespaces := sh.namespaces.add name .empty } t' := by
  have bound := (List.getElem?_eq_some_iff.mp here).1
  have gone : sh.namespaces.objects.get name = none := by
    rw [Handles.get_objects]
    exact (Handles.get_eq_none _).mpr absent
  refine keeps_of_squares sound oks tables room here (fun f ledger _ => ⟨f, ?_, fun v => ?_⟩)
    (fun n id found => ?_) (fun n listed => ?_) (fun n id owned => owned.add absent) own
  · rw [Handles.objects_add]
    by_cases all : name = allNamespace
    · subst all
      intro v
      simpa [allEntry, gone, Namespace.empty] using ledger v
    · exact ledger_congr ledger (OrderedMap.get_insert_of_ne _ _ (Ne.symm all))
  · rw [Handles.objects_add, counted_insert_empty gone, owes, due]
  · simp only [Handles.handle_add] at found
    split at found
    next same => exact .inr ⟨t', List.mem_set bound t', same ▸ enrolls⟩
    next =>
      refine (sound.fresh n id found).imp_right fun among => .set here (fun does => ?_) among
      rw [(quiet n).1] at does
      cases does
  · simp only [Handles.handle_add]
    rcases sound.stale n listed with ⟨id, found⟩ | among
    · left
      split
      · exact ⟨_, rfl⟩
      · exact ⟨id, found⟩
    · refine .inr (.set here (fun does => ?_) among)
      rw [(quiet n).2] at does
      cases does

include sound oks tables room here in
/-- A namespace entered in the catalogue, while it is in the map or about to leave the catalogue. -/
theorem keeps_enroll {name : String} (now : DateTime)
    (there : (sh.namespaces.handle name).isSome = true ∨ threads.any (·.uncatalogues name) = true)
    (owes : ∀ v, t'.owes v = t.owes v) (due : t'.due = t.due)
    (only : ∀ n, t.enrolls n = true → n = name) (quiet : ∀ n, t.uncatalogues n = false)
    (own : Ok threads (sh.enroll name now) i t') :
    Pool.Keeps (Sound server) Ok i threads sh (threads.set i t') (sh.enroll name now) t' := by
  have still : ∀ n, Among (fun t => t.uncatalogues n = true) threads →
      Among (fun t => t.uncatalogues n = true) (threads.set i t') := by
    intro n
    refine .set here fun does => ?_
    rw [quiet n] at does
    cases does
  refine keeps_of_squares sound oks tables room here (squares_same rfl owes due) (fun n id found => ?_)
    (fun n listed => ?_) (fun n id owned => owned.same (fun _ => rfl) rfl) own
  · rw [lists_enroll]
    rcases sound.fresh n id found with listed | ⟨u, mem, does⟩
    · simp [listed]
    · obtain ⟨j, at_⟩ := List.mem_iff_getElem?.mp mem
      by_cases same : i = j
      · subst same
        rw [here] at at_
        cases at_
        simp [only n does]
      · exact .inr (.of_get (by rw [List.getElem?_set_ne same, at_]) does)
  · rw [lists_enroll] at listed
    rcases Bool.or_eq_true_iff.mp listed with same | old
    · obtain rfl := of_decide_eq_true same
      refine there.imp (fun found => Option.isSome_iff_exists.mp found) fun someone => still n ?_
      obtain ⟨u, mem, does⟩ := List.any_eq_true.mp someone
      exact ⟨u, mem, does⟩
    · exact (sound.stale n old).imp_right (still n)

include sound oks tables room here in
/-- Namespaces taken out of the catalogue, while they are out of the map or about to enter the
catalogue again. -/
theorem keeps_uncatalogue {removed : List String}
    (gone : ∀ name ∈ removed, sh.namespaces.handle name = none ∨ threads.any (·.enrolls name) = true)
    (owes : ∀ v, t'.owes v = t.owes v) (due : t'.due = t.due)
    (only : ∀ n, t.uncatalogues n = true → n ∈ removed) (quiet : ∀ n, t.enrolls n = false)
    (own : Ok threads (removed.foldl Shared.uncatalogue sh) i t') :
    Pool.Keeps (Sound server) Ok i threads sh (threads.set i t') (removed.foldl Shared.uncatalogue sh) t' := by
  have still : ∀ n, Among (fun t => t.enrolls n = true) threads →
      Among (fun t => t.enrolls n = true) (threads.set i t') := by
    intro n
    refine .set here fun does => ?_
    rw [quiet n] at does
    cases does
  have maps := uncatalogueAll_namespaces removed sh
  refine keeps_of_squares sound oks tables room here (squares_same (by rw [maps]) owes due)
    (fun n id found => ?_) (fun n listed => ?_)
    (fun n id owned => owned.same (fun _ => by rw [maps]) (by rw [maps])) own
  · rw [maps] at found
    rw [lists_uncatalogueAll]
    by_cases mem : n ∈ removed
    · rcases gone n mem with none_ | someone
      · rw [none_] at found
        cases found
      · obtain ⟨u, mem, does⟩ := List.any_eq_true.mp someone
        exact .inr (still n ⟨u, mem, does⟩)
    · simpa [mem] using (sound.fresh n id found).imp_right (still n)
  · rw [lists_uncatalogueAll] at listed
    obtain ⟨out, old⟩ := Bool.and_eq_true_iff.mp listed
    rw [maps]
    refine (sound.stale n old).imp_right fun among => .set here (fun does => ?_) among
    exact absurd (only n does) (of_decide_eq_true out)

include sound oks tables room here in
/-- Namespaces taken out of the map, to leave the catalogue next. -/
theorem keeps_unlink (removed : List String) (other : allNamespace ∉ removed)
    (squares : Squares server sh (removed.foldl Shared.unlink sh) t t')
    (uncatalogues : ∀ n ∈ removed, t'.uncatalogues n = true)
    (quiet : ∀ n, t.enrolls n = false ∧ t.uncatalogues n = false)
    (own : Ok threads (removed.foldl Shared.unlink sh) i t') :
    Pool.Keeps (Sound server) Ok i threads sh (threads.set i t') (removed.foldl Shared.unlink sh) t' := by
  have bound := (List.getElem?_eq_some_iff.mp here).1
  obtain ⟨shards, cells⟩ := unlinkAll_rest removed sh
  have lists : ∀ n, (removed.foldl Shared.unlink sh).lists n = sh.lists n :=
    fun n => by simp only [Shared.lists, shards]
  refine keeps_of_squares sound oks tables room here squares (fun n id found => ?_) (fun n listed => ?_)
    (fun n id owned => ⟨?_, fun k found => ?_, fun same => ?_⟩) own
  · rw [handle_unlinkAll] at found
    rw [lists]
    split at found
    · cases found
    · refine (sound.fresh n id found).imp_right fun among => .set here (fun does => ?_) among
      rw [(quiet n).1] at does
      cases does
  · rw [lists] at listed
    rw [handle_unlinkAll]
    by_cases mem : n ∈ removed
    · exact .inr ⟨t', List.mem_set bound t', uncatalogues n mem⟩
    · rw [if_neg mem]
      refine (sound.stale n listed).imp_right fun among => .set here (fun does => ?_) among
      rw [(quiet n).2] at does
      cases does
  · rw [cells]
    exact owned.within
  · rw [handle_unlinkAll] at found
    split at found
    · cases found
    · exact owned.only k found
  · rw [handle_unlinkAll, if_neg other]
    exact owned.stays same

end Kinds

/-! ## The books, section by section -/

section Books

variable {server : Server} {sh : Shared} {path : String} {c : Change}

theorem Change.apply_contains (ns : Namespace) (v : String) :
    (c.apply server ns).values.contains v = (decide (v = c.value) || ns.values.contains v) := by
  cases c with
  | write origin value when ttl consensus tags =>
      simp only [Change.apply, Change.value, Namespace.record_values, OrderedMap.contains, OrderedMap.get_insert]
      by_cases same : v = value <;> simp [same]
  | merge value incoming =>
      simp only [Change.apply, Change.value, Namespace.merge_values, OrderedMap.contains, OrderedMap.get_insert]
      by_cases same : v = value <;> simp [same]

theorem Change.isNew_eq (ns : Namespace) : c.isNew server ns = !ns.values.contains c.value := by
  cases c with
  | write origin value when ttl consensus tags => exact Namespace.record_isNew ..
  | merge value incoming => exact Namespace.merge_isNew ..

theorem objects_put {name : String} {id : Nat} (found : sh.namespaces.handle name = some id) (ns : Namespace) :
    (sh.put id ns).namespaces.objects = sh.namespaces.objects.insert name ns :=
  Handles.objects_modify _ found ns

theorem get_objects_cell {name : String} {id : Nat} (found : sh.namespaces.handle name = some id) :
    sh.namespaces.objects.get name = some (sh.cell id) := by
  rw [Handles.get_objects]
  exact get_cell found

/-- A value goes into a namespace that is found: one more holds it, and one more is owed. -/
theorem counted_apply (server : Server) (c : Change) {id : Nat} (found : sh.namespaces.handle path = some id) (v : String) :
    counted (sh.put id (c.apply server (sh.cell id))).namespaces.objects v =
      counted sh.namespaces.objects v +
        if (countsTowardsConsensus path && c.isNew server (sh.cell id)) && c.value = v then 1 else 0 := by
  have step := counted_insert (m := sh.namespaces.objects) path (c.apply server (sh.cell id)) v
  rw [objects_put found]
  rw [get_objects_cell found, Option.elim_some, Change.apply_contains] at step
  rw [Change.isNew_eq]
  by_cases same : v = c.value
  · subst same
    cases counts : countsTowardsConsensus path <;>
      cases held : (sh.cell id).values.contains c.value <;> simp_all
  · simpa [same, Ne.symm same] using step

theorem squares_apply {id : Nat} (owned : Owned sh path id) (other : path ≠ allNamespace)
    (tells : c.tells path = countsTowardsConsensus path)
    (meets : sh.namespaces.handle path = some id ∨ (c.tells path && c.isNew server (sh.cell id)) = false) :
    Squares server sh (sh.put id (c.apply server (sh.cell id))) (.change path c (.apply id))
      (.change path c (if c.tells path && c.isNew server (sh.cell id) then .allLookup id else .mark id)) := by
  intro f ledger _
  have owes : ∀ v, (Thread.change path c
      (if c.tells path && c.isNew server (sh.cell id) then .allLookup id else .mark id)).owes v =
      if (c.tells path && c.isNew server (sh.cell id)) && c.value = v then 1 else 0 := by
    intro v
    cases tellsNew : c.tells path && c.isNew server (sh.cell id) <;> simp [Thread.owes, Point.owes]
  rcases owned.cases with found | orphan
  · refine ⟨f, ledger_congr ledger ?_, fun v => ?_⟩
    · rw [objects_put found]
      exact OrderedMap.get_insert_of_ne _ _ (Ne.symm other)
    · have more := counted_apply server c found v
      have none_ : (Thread.change path c (.apply id)).owes v = 0 := by simp [Thread.owes, Point.owes]
      rw [owes, tells, none_]
      simp only [Thread.due, List.count_nil]
      omega
  · have same : (sh.put id (c.apply server (sh.cell id))).namespaces.objects = sh.namespaces.objects :=
      Handles.objects_modify_orphan _ orphan _
    have told := meets.resolve_left (orphan path)
    refine ⟨f, by rw [same]; exact ledger, fun v => ?_⟩
    rw [same, owes, told]
    simp [Thread.due, Thread.owes, Point.owes]

/-- `_all` is told of one more. -/
theorem squares_allRecord {id all : Nat} {when : DateTime}
    (found : sh.namespaces.handle allNamespace = some all) :
    Squares server sh
      (sh.put all ((sh.cell all).record server.node c.value when none server.statsRetention "").1)
      (.change path c (.allRecord id all)) (.change path c (.mark id)) := by
  intro f ledger fits
  have recorded := ledger.record c.value when server.statsRetention (fits c.value)
  rw [get_objects_cell found, Option.getD_some, ← objects_put found] at recorded
  refine ⟨_, recorded, fun v => ?_⟩
  rw [objects_put found, counted_insert_all]
  simp only [Thread.owes, Point.owes, Thread.due, List.count_nil, Bool.true_and, Bool.false_and]
  by_cases same : c.value = v
  · subst same
    simp
  · simp [same, Function.update_of_ne (Ne.symm same)]

/-- `_all` gives one back, which was there to be given. -/
theorem squares_give {all : Nat} {value : String} {rest : List String} {t t' : Thread}
    (found : sh.namespaces.handle allNamespace = some all)
    (there : (sh.cell all).values.contains value = true) (owes : ∀ v, t.owes v = 0 ∧ t'.owes v = 0)
    (due : t.due = value :: rest) (due' : t'.due = rest) :
    Squares server sh (sh.put all ((sh.cell all).release server.node value)) t t' := by
  intro f ledger fits
  have released := ledger.release value (get_objects_cell found) (by have := fits value; omega)
  rw [← objects_put found] at released
  have some_ : 0 < f value := by
    obtain ⟨a, held⟩ := OrderedMap.contains_iff.mp there
    have entry := ledger value
    rw [allEntry, get_objects_cell found, Option.bind_some, held] at entry
    exact entry.1
  refine ⟨_, released, fun v => ?_⟩
  rw [objects_put found, counted_insert_all, (owes v).1, (owes v).2, due, due']
  by_cases same : v = value
  · subst same
    simp only [Function.update_self, List.count_cons_self]
    omega
  · simp only [Function.update_of_ne same, List.count_cons_of_ne (Ne.symm same)]

/-- A deletion takes out what it listed. -/
theorem squares_unlink {name : String} {id : Nat} {listed : List String}
    (found : sh.namespaces.handle name = some id) (other : name ≠ allNamespace)
    (meets : countsTowardsConsensus name = false ∨ (sh.cell id).valueNames = listed) :
    Squares server sh (sh.unlink name) (.delete name (.unlink listed)) (.delete name (.uncatalogue listed)) := by
  intro f ledger _
  refine ⟨f, ledger_congr ledger ?_, fun v => ?_⟩
  · rw [objects_unlink, OrderedMap.get_erase, if_neg (Ne.symm other)]
  · have step := counted_erase (m := sh.namespaces.objects) name v
    rw [get_objects_cell found, Option.elim_some] at step
    rw [objects_unlink]
    simp only [Thread.owes, Thread.due, Removal.due, List.count_nil]
    rcases meets with uncounted | same
    · simp only [uncounted, Bool.false_and, Bool.toNat_false, Bool.false_eq_true, if_false,
        List.count_nil] at step ⊢
      omega
    · have count := OrderedMap.count_keys (sh.cell id).values v
      rw [show (sh.cell id).values.keys = listed from same] at count
      cases counts : countsTowardsConsensus name <;> simp [counts] at step ⊢ <;> omega

/-- Nothing in `_all` ever expires. -/
theorem all_never_expires {f : String → Nat} {id : Nat} (now : DateTime)
    (ledger : Ledger server.node sh.namespaces.objects f)
    (found : sh.namespaces.handle allNamespace = some id) :
    (sh.cell id).removeExpired now = (sh.cell id, []) := by
  apply Namespace.removeExpired_none
  intro v a held
  have entry := ledger v
  rw [allEntry, get_objects_cell found, Option.bind_some, held] at entry
  exact Attribute.isExpired_of_ttl entry.2.2 now

end Books

end SightingDB.Concurrent
