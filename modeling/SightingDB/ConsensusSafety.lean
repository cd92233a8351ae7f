import SightingDB.ConsensusInvariant

/-!
When the tally and the catalogue come out right: once nobody is under way, `_all` says how many
namespaces hold each value and the catalogue lists what is in the map, as long as no turn fell
into one of the gaps that `clear` names.
-/
namespace SightingDB.Concurrent

open Threads

/-! ## The turns that do not go wrong -/

/-- A value that is new goes into a namespace that is still in the map; a namespace enters the
catalogue while it is in the map, and leaves it while it is not; a deletion takes out the values
it read; a sweep takes values out of namespaces that are still in the map; and what is given
back is there. -/
def clear (server : Server) (threads : List Thread) (sh : Shared) : Thread → Bool
  | .change path _ (.enroll _) =>
      (sh.namespaces.handle path).isSome || threads.any (·.uncatalogues path)
  | .change path c (.apply id) =>
      sh.namespaces.handle path = some id || !(c.tells path && c.isNew server (sh.cell id))
  | .delete name (.unlink listed) =>
      !countsTowardsConsensus name || ((sh.namespaces.get name).all fun ns => ns.valueNames = listed)
  | .delete name (.uncatalogue _) =>
      (sh.namespaces.handle name).isNone || threads.any (·.enrolls name)
  | .delete _ (.giveFind _ _) | .sweep _ (.giveFind _ _ _) => (sh.namespaces.handle allNamespace).isSome
  | .delete _ (.give all value _) | .sweep _ (.give all value _ _) => (sh.cell all).values.contains value
  | .sweep now (.retain name id _) =>
      sh.namespaces.handle name = some id || !countsTowardsConsensus name ||
        ((sh.cell id).removeExpired now).2.isEmpty
  | .sweep _ (.uncatalogue removed) =>
      removed.all fun name => (sh.namespaces.handle name).isNone || threads.any (·.enrolls name)
  | _ => true

/-- Callers write to namespaces that are not the database's own, or to a shadow without telling
`_all`, and neither merge into `_all` nor delete it. A table asked to grow past `isize::MAX`
aborts the process, and no more operations than that are under way at once. -/
def Allowed (server : Server) (p : Pool Shared Thread) : Move Input Thread → Prop
  | .start (.change path (.write _ _ _ _ consensus _) .lookup) =>
      (isInternal path = false ∧ consensus = true) ∨
        (startsWith path shadowPrefix = true ∧ consensus = false)
  | .start (.change path (.merge _ _) .lookup) => path ≠ allNamespace
  | .start (.delete name .find) => name ≠ allNamespace
  | .start (.sweep _ .snapshot) => True
  | .start _ => False
  | .go i input => (p.threads[i]?).all (clear server p.threads p.shared) = true ∧
      p.threads.countP (fun t => !t.done) < Consensus.tableLimit ∧
      (p.step (program server) (.go i input)).shared.namespaces.map.size < Consensus.tableLimit

/-! ## Turns of a write or a merge -/

section Changes

variable {server : Server} {threads : List Thread} {sh sh' : Shared} {i : Nat} {path : String}
  {c : Change} {at_ at' : Point}
  (sound : Sound server threads sh) (oks : ∀ i t, threads[i]? = some t → Ok threads sh i t)
  (tables : sh.namespaces.map.size < Consensus.tableLimit)
  (room : threads.countP (fun t => !t.done) < Consensus.tableLimit) (input : Input)

/-- What one section of a write or a merge has to leave behind. -/
def ChangeKeeps (server : Server) (input : Input) (threads : List Thread) (sh : Shared) (i : Nat)
    (path : String) (c : Change) (at_ : Point) : Prop :=
  let r := change server input sh path c at_
  Pool.Keeps (Sound server) Ok i threads sh (threads.set i (.change path c r.2)) r.1 (.change path c r.2)

theorem Ok.change (fair : (Thread.change path c at_).Fair) (refs : ∀ r ∈ at_.refs path, Owned sh r.1 r.2) :
    Ok threads sh i (.change path c at_) := ⟨refs, List.nodup_nil, fair⟩

theorem change_owes (same : at'.owes = at_.owes) (v : String) :
    (Thread.change path c at').owes v = (Thread.change path c at_).owes v := by
  simp only [Thread.owes, same]

include sound oks tables room in
theorem keeps_lookup (ok : Ok threads sh i (.change path c .lookup))
    (here : threads[i]? = some (.change path c .lookup)) :
    ChangeKeeps server input threads sh i path c .lookup := by
  simp only [ChangeKeeps, change]
  cases found : sh.namespaces.handle path with
  | some id =>
      refine keeps_quiet sound oks tables room here (change_owes rfl) rfl (fun _ none => none)
        (fun _ none => none) (.change ok.fair fun r mem => ?_)
      obtain rfl := List.mem_singleton.mp mem
      exact .of_handle found
  | none =>
      exact keeps_quiet sound oks tables room here (change_owes rfl) rfl (fun _ none => none)
        (fun _ none => none) (.change ok.fair (by simp [Point.refs]))

include sound oks tables room in
/-- `entry(name).or_default()`, for the namespace of the write and for `_all`. -/
theorem keeps_entry {name : String} (here : threads[i]? = some (.change path c at_))
    (fair : (Thread.change path c at_).Fair) (owes : at'.owes = at_.owes)
    (old : ∀ r ∈ at_.refs path, Owned sh r.1 r.2) (refs : at'.refs path = at_.refs path ++ [(name, (sh.create name).2)])
    (quiet : ∀ n, (Thread.change path c at_).enrolls n = false ∧ (Thread.change path c at_).uncatalogues n = false)
    (enrolls : (Thread.change path c at').enrolls name = true) :
    Pool.Keeps (Sound server) Ok i threads sh (threads.set i (.change path c at')) (sh.create name).1
      (.change path c at') := by
  cases found : sh.namespaces.handle name with
  | some id =>
      have still : sh.create name = (sh, id) := by simp [Shared.create, found]
      rw [still] at refs ⊢
      refine keeps_quiet sound oks tables room here (change_owes owes) rfl (fun n does => ?_)
        (fun n does => ?_) (.change fair fun r mem => ?_)
      · rw [(quiet n).1] at does
        cases does
      · rw [(quiet n).2] at does
        cases does
      · rw [refs] at mem
        rcases List.mem_append.mp mem with before | new
        · exact old r before
        · obtain rfl := List.mem_singleton.mp new
          exact .of_handle found
  | none =>
      obtain ⟨added, fresh⟩ := objects_create found
      rw [fresh] at refs
      rw [added]
      refine keeps_create sound oks tables room here found (change_owes owes) rfl enrolls quiet
        (.change fair fun r mem => ?_)
      rw [refs] at mem
      rcases List.mem_append.mp mem with before | new
      · exact (old r before).add found
      · obtain rfl := List.mem_singleton.mp new
        exact .of_handle (by simp [Handles.handle_add])

include sound oks tables room in
/-- `record`, for the namespace of the write and for `_all`. -/
theorem keeps_record {name : String} (now : DateTime) (here : threads[i]? = some (.change path c at_))
    (fair : (Thread.change path c at_).Fair) (owes : at'.owes = at_.owes)
    (old : ∀ r ∈ at_.refs path, Owned sh r.1 r.2) (refs : at'.refs path = at_.refs path)
    (there : (sh.namespaces.handle name).isSome = true ∨ threads.any (·.uncatalogues name) = true)
    (only : ∀ n, (Thread.change path c at_).enrolls n = true → n = name)
    (quiet : ∀ n, (Thread.change path c at_).uncatalogues n = false) :
    Pool.Keeps (Sound server) Ok i threads sh (threads.set i (.change path c at')) (sh.enroll name now)
      (.change path c at') := by
  refine keeps_enroll sound oks tables room here now there (change_owes owes) rfl only quiet
    (.change fair fun r mem => ?_)
  rw [refs] at mem
  exact (old r mem).same (fun _ => rfl) rfl

include sound oks tables room in
theorem keeps_apply {id : Nat} (ok : Ok threads sh i (.change path c (.apply id)))
    (here : threads[i]? = some (.change path c (.apply id)))
    (meets : clear server threads sh (.change path c (.apply id)) = true) :
    ChangeKeeps server input threads sh i path c (.apply id) := by
  have owned : Owned sh path id := ok.refs (path, id) (by simp [Thread.refs, Point.refs])
  have told : sh.namespaces.handle path = some id ∨
      (c.tells path && c.isNew server (sh.cell id)) = false := by
    simpa only [clear, Bool.or_eq_true, decide_eq_true_eq, Bool.not_eq_true'] using meets
  refine keeps_inside sound oks tables room here (put_handles id _) (put_cells id _) rfl
    (squares_apply owned ok.fair.1 ok.fair.2 told) (fun _ none => (by cases none))
    (fun _ none => (by cases none)) (.change ok.fair fun r mem => ?_)
  have same : r = (path, id) := by
    change r ∈ (if c.tells path && c.isNew server (sh.cell id) then Point.allLookup id
      else .mark id).refs path at mem
    split at mem <;> exact List.mem_singleton.mp mem
  rw [same]
  exact owned.same (put_handles id _) (put_cells id _)

include sound oks tables room in
theorem keeps_allLookup {id : Nat} (ok : Ok threads sh i (.change path c (.allLookup id)))
    (here : threads[i]? = some (.change path c (.allLookup id))) :
    ChangeKeeps server input threads sh i path c (.allLookup id) := by
  have owned : Owned sh path id := ok.refs (path, id) (by simp [Thread.refs, Point.refs])
  simp only [ChangeKeeps, change]
  cases found : sh.namespaces.handle allNamespace with
  | some all =>
      refine keeps_quiet sound oks tables room here (change_owes rfl) rfl (fun _ none => none)
        (fun _ none => none) (.change ok.fair fun r mem => ?_)
      rcases List.mem_cons.mp mem with rfl | mem
      · exact owned
      · obtain rfl := List.mem_singleton.mp mem
        exact .of_handle found
  | none =>
      exact keeps_quiet sound oks tables room here (change_owes rfl) rfl (fun _ none => none)
        (fun _ none => none) (.change ok.fair ok.refs)

include sound oks tables room in
theorem keeps_allRecord {id all : Nat} (ok : Ok threads sh i (.change path c (.allRecord id all)))
    (here : threads[i]? = some (.change path c (.allRecord id all))) :
    ChangeKeeps server input threads sh i path c (.allRecord id all) := by
  have owned : Owned sh path id := ok.refs (path, id) (by simp [Thread.refs, Point.refs])
  have found := (ok.refs (allNamespace, all) (by simp [Thread.refs, Point.refs])).stays rfl
  refine keeps_inside sound oks tables room here (put_handles all _) (put_cells all _) rfl
    (squares_allRecord found) (fun _ none => (by cases none)) (fun _ none => (by cases none))
    (.change ok.fair fun r mem => ?_)
  obtain rfl := List.mem_singleton.mp mem
  exact owned.same (put_handles all _) (put_cells all _)

include sound oks tables room in
/-- Every section of a write or a merge. -/
theorem change_keeps (here : threads[i]? = some (.change path c at_))
    (meets : clear server threads sh (.change path c at_) = true) :
    ChangeKeeps server input threads sh i path c at_ := by
  have ok := oks i _ here
  cases at_ with
  | lookup => exact keeps_lookup sound oks tables room input ok here
  | create =>
      exact keeps_entry sound oks tables room here ok.fair rfl ok.refs rfl (fun _ => ⟨rfl, rfl⟩)
        (decide_eq_true rfl)
  | enroll id =>
      exact keeps_record sound oks tables room input.now here ok.fair rfl ok.refs rfl
        (by simpa [clear] using meets) (fun n does => (by simpa [Thread.enrolls, eq_comm] using does))
        (fun _ => rfl)
  | apply id => exact keeps_apply sound oks tables room input ok here meets
  | allLookup id => exact keeps_allLookup sound oks tables room input ok here
  | allCreate id =>
      exact keeps_entry sound oks tables room here ok.fair rfl ok.refs rfl (fun _ => ⟨rfl, rfl⟩)
        (decide_eq_true (rfl : allNamespace = allNamespace))
  | allEnroll id all =>
      have found := (ok.refs (allNamespace, all) (by simp [Thread.refs, Point.refs])).stays rfl
      exact keeps_record sound oks tables room input.now here ok.fair rfl ok.refs rfl
        (.inl (by rw [found]; rfl)) (fun n does => (by simpa [Thread.enrolls, eq_comm] using does))
        (fun _ => rfl)
  | allRecord id all => exact keeps_allRecord sound oks tables room input ok here
  | mark id =>
      exact keeps_quiet sound oks tables room here (change_owes rfl) rfl (fun _ none => none)
        (fun _ none => none) (.change ok.fair (by simp [change, Point.refs]))
  | done =>
      exact keeps_quiet sound oks tables room here (fun _ => rfl) rfl (fun _ none => none)
        (fun _ none => none) ok

end Changes

/-! ## Turns of a deletion -/

section Removals

variable {server : Server} {threads : List Thread} {sh : Shared} {i : Nat} {name : String}
  {at_ at' : Removal}
  (sound : Sound server threads sh) (oks : ∀ i t, threads[i]? = some t → Ok threads sh i t)
  (tables : sh.namespaces.map.size < Consensus.tableLimit)
  (room : threads.countP (fun t => !t.done) < Consensus.tableLimit)

/-- What one section of a deletion has to leave behind. -/
def RemovalKeeps (server : Server) (threads : List Thread) (sh : Shared) (i : Nat) (name : String)
    (at_ : Removal) : Prop :=
  let r := delete server sh name at_
  Pool.Keeps (Sound server) Ok i threads sh (threads.set i (.delete name r.2)) r.1 (.delete name r.2)

theorem Removal.due_next (values : List String) : (Removal.next values).due name = values := by
  cases values <;> rfl

theorem Removal.refs_next (values : List String) : (Removal.next values).refs = [] := by
  cases values <;> rfl

/-- Points without a handle. -/
theorem Ok.delete (other : name ≠ allNamespace) (due : (at_.due name).Nodup) (refs : at_.refs = []) :
    Ok threads sh i (.delete name at_) := by
  refine ⟨fun r mem => ?_, due, other⟩
  simp [Thread.refs, refs] at mem

include sound oks tables room in
theorem keeps_unlinked {listed : List String} (ok : Ok threads sh i (.delete name (.unlink listed)))
    (here : threads[i]? = some (.delete name (.unlink listed)))
    (meets : clear server threads sh (.delete name (.unlink listed)) = true) :
    RemovalKeeps server threads sh i name (.unlink listed) := by
  have other : name ≠ allNamespace := ok.fair
  simp only [RemovalKeeps, delete]
  cases found : sh.namespaces.handle name with
  | none =>
      exact keeps_quiet sound oks tables room here (fun _ => rfl) rfl (fun _ none => none)
        (fun _ none => none) (.delete other List.nodup_nil rfl)
  | some id =>
      have listed_ : countsTowardsConsensus name = false ∨ (sh.cell id).valueNames = listed := by
        simpa [clear, get_cell found] using meets
      have due : (Removal.due name (.uncatalogue listed)).Nodup := by
        rcases listed_ with uncounted | same
        · simp [Removal.due, uncounted]
        · simp only [Removal.due]
          split
          · rw [← same]
            exact OrderedMap.keys_nodup _
          · exact List.nodup_nil
      exact keeps_unlink sound oks tables room here [name] (by simp [Ne.symm other])
        (squares_unlink found other listed_) (by simp [Thread.uncatalogues]) (fun _ => ⟨rfl, rfl⟩)
        (.delete other due rfl)

include sound oks tables room in
theorem keeps_uncatalogued {listed : List String} (ok : Ok threads sh i (.delete name (.uncatalogue listed)))
    (here : threads[i]? = some (.delete name (.uncatalogue listed)))
    (meets : clear server threads sh (.delete name (.uncatalogue listed)) = true) :
    RemovalKeeps server threads sh i name (.uncatalogue listed) := by
  have gone : ∀ n ∈ [name], sh.namespaces.handle n = none ∨ threads.any (·.enrolls n) = true := by
    intro n mem
    obtain rfl := List.mem_singleton.mp mem
    simpa only [clear, Bool.or_eq_true, Option.isNone_iff_eq_none] using meets
  have due : (if countsTowardsConsensus name then Removal.next listed else .done).due name =
      Removal.due name (.uncatalogue listed) := by
    cases counts : countsTowardsConsensus name with
    | true =>
        rw [if_pos rfl, Removal.due_next]
        simp [Removal.due, counts]
    | false => simp [Removal.due, counts]
  have refs : (if countsTowardsConsensus name then Removal.next listed else .done).refs = [] := by
    split
    · exact Removal.refs_next listed
    · rfl
  exact keeps_uncatalogue sound oks tables room here gone (fun _ => rfl) due
    (fun n does => (by simpa [Thread.uncatalogues, eq_comm] using does)) (fun _ => rfl)
    (.delete ok.fair (due ▸ ok.due) refs)

include sound oks tables room in
/-- Every section of a deletion. -/
theorem delete_keeps (here : threads[i]? = some (.delete name at_))
    (meets : clear server threads sh (.delete name at_) = true) :
    RemovalKeeps server threads sh i name at_ := by
  have ok := oks i _ here
  have other : name ≠ allNamespace := ok.fair
  cases at_ with
  | find =>
      simp only [RemovalKeeps, delete]
      cases sh.namespaces.handle name with
      | some id =>
          exact keeps_quiet sound oks tables room here (fun _ => rfl) rfl (fun _ none => none)
            (fun _ none => none) (.delete other List.nodup_nil rfl)
      | none =>
          exact keeps_quiet sound oks tables room here (fun _ => rfl) rfl (fun _ none => none)
            (fun _ none => none) (.delete other List.nodup_nil rfl)
  | values id =>
      exact keeps_quiet sound oks tables room here (fun _ => rfl) rfl (fun _ none => none)
        (fun _ none => none) (.delete other List.nodup_nil rfl)
  | unlink listed => exact keeps_unlinked sound oks tables room ok here meets
  | uncatalogue listed => exact keeps_uncatalogued sound oks tables room ok here meets
  | giveFind value rest =>
      simp only [RemovalKeeps, delete]
      cases found : sh.namespaces.handle allNamespace with
      | none => simp [clear, found] at meets
      | some all =>
          refine keeps_quiet sound oks tables room here (fun _ => rfl) rfl (fun _ none => none)
            (fun _ none => none) ⟨fun r mem => ?_, ok.due, other⟩
          obtain rfl := List.mem_singleton.mp mem
          exact .of_handle found
  | give all value rest =>
      have found := (ok.refs (allNamespace, all) (by simp [Thread.refs, Removal.refs])).stays rfl
      refine keeps_inside sound oks tables room here (put_handles all _) (put_cells all _) rfl
        (squares_give found meets (fun _ => ⟨rfl, rfl⟩) rfl (Removal.due_next rest))
        (fun _ none => (by cases none)) (fun _ none => (by cases none))
        (.delete other ?_ (Removal.refs_next rest))
      have due : (value :: rest).Nodup := ok.due
      rw [show (delete server sh name (.give all value rest)).2 = .next rest from rfl, Removal.due_next]
      exact (List.nodup_cons.mp due).2
  | done =>
      exact keeps_quiet sound oks tables room here (fun _ => rfl) rfl (fun _ none => none)
        (fun _ none => none) ok

end Removals

/-! ## Turns of a sweep -/

section Sweeps

variable {server : Server} {threads : List Thread} {sh : Shared} {i : Nat} {now : DateTime}
  {at_ : Sweep} {walk : Walk}
  (sound : Sound server threads sh) (oks : ∀ i t, threads[i]? = some t → Ok threads sh i t)
  (tables : sh.namespaces.map.size < Consensus.tableLimit)
  (room : threads.countP (fun t => !t.done) < Consensus.tableLimit) (input : Input)

/-- What one section of a sweep has to leave behind. -/
def SweepKeeps (server : Server) (input : Input) (threads : List Thread) (sh : Shared) (i : Nat)
    (now : DateTime) (at_ : Sweep) : Prop :=
  let r := sweep server input threads sh now at_
  Pool.Keeps (Sound server) Ok i threads sh (threads.set i (.sweep now r.2)) r.1 (.sweep now r.2)

/-- Where a sweep goes on to: another entry, or the end of the walk. -/
structure Sweep.GoesOn (todo : List (String × Nat)) (emptied : List String) (at_ : Sweep) : Prop where
  due : at_.due = []
  refs : ∀ r ∈ at_.refs, r ∈ todo
  emptied : at_.emptied = emptied
  fresh : ∀ name id expired walk, at_ ≠ .isEmpty name id expired walk

theorem Sweep.next_goesOn (entries todo : List (String × Nat)) (emptied : List String) :
    Sweep.GoesOn todo emptied (Sweep.next entries emptied todo) := by
  induction todo with
  | nil => exact ⟨rfl, by simp [Sweep.next, Sweep.refs], rfl, by simp [Sweep.next]⟩
  | cons e rest ih =>
      simp only [Sweep.next]
      split
      · exact ⟨ih.due, fun r mem => List.mem_cons_of_mem _ (ih.refs r mem), ih.emptied, ih.fresh⟩
      · exact ⟨rfl, fun r mem => mem, rfl, by simp⟩

/-- On to the next entry: nothing of it is in the books yet. -/
theorem Ok.next (walk : Walk) (refs : ∀ r ∈ walk.todo, Owned sh r.1 r.2) (fair : allNamespace ∉ walk.emptied) :
    Ok threads sh i (.sweep now walk.next) := by
  have on := Sweep.next_goesOn walk.entries walk.todo walk.emptied
  refine ⟨fun r mem => refs r (on.refs r mem), ?_, ?_, fun name id expired walk same => ?_⟩
  · rw [show (Thread.sweep now walk.next).due = [] from on.due]
    exact List.nodup_nil
  · rw [show walk.next.emptied = walk.emptied from on.emptied]
    exact fair
  · exact absurd same (on.fresh name id expired walk)

theorem Walk.due_giving (values : List String) : (walk.giving values).due = values := by
  cases values with
  | nil => exact (Sweep.next_goesOn _ _ _).due
  | cons value rest => rfl

theorem Ok.giving (walk : Walk) {values : List String} (refs : ∀ r ∈ walk.todo, Owned sh r.1 r.2)
    (fair : allNamespace ∉ walk.emptied) (nodup : values.Nodup) :
    Ok threads sh i (.sweep now (walk.giving values)) := by
  cases values with
  | nil => exact .next walk refs fair
  | cons value rest => exact ⟨refs, nodup, fair, fun _ _ _ _ same => (by cases same)⟩

/-- A sweep takes expired values out of a namespace that is found, and will give them back. -/
theorem counted_retain (now : DateTime) {name : String} {id : Nat} (found : sh.namespaces.handle name = some id) (v : String) :
    counted (sh.put id ((sh.cell id).removeExpired now).1).namespaces.objects v +
        (if countsTowardsConsensus name then ((sh.cell id).removeExpired now).2 else []).count v =
      counted sh.namespaces.objects v := by
  have step := counted_insert (m := sh.namespaces.objects) name ((sh.cell id).removeExpired now).1 v
  have split_ := Namespace.removeExpired_count (sh.cell id) now v
  rw [get_objects_cell found, Option.elim_some] at step
  rw [objects_put found]
  cases counts : countsTowardsConsensus name with
  | false => simpa [counts] using step
  | true =>
      simp only [counts, Bool.true_and, if_true] at step ⊢
      omega

theorem squares_retain {name : String} {id : Nat} {t t' : Thread} (owned : Owned sh name id)
    (owes : ∀ v, t.owes v = 0 ∧ t'.owes v = 0) (due : t.due = [])
    (due' : t'.due = if countsTowardsConsensus name then ((sh.cell id).removeExpired now).2 else [])
    (meets : sh.namespaces.handle name = some id ∨ countsTowardsConsensus name = false ∨
      ((sh.cell id).removeExpired now).2 = []) :
    Squares server sh (sh.put id ((sh.cell id).removeExpired now).1) t t' := by
  intro f ledger _
  rcases owned.cases with found | orphan
  · refine ⟨f, ?_, fun v => ?_⟩
    · by_cases all : name = allNamespace
      · subst all
        rw [objects_put found, all_never_expires now ledger found,
          OrderedMap.insert_self _ (get_objects_cell found)]
        exact ledger
      · refine ledger_congr ledger ?_
        rw [objects_put found]
        exact OrderedMap.get_insert_of_ne _ _ (Ne.symm all)
    · have less := counted_retain now found v
      rw [due, due', (owes v).1, (owes v).2, List.count_nil]
      omega
  · have same : (sh.put id ((sh.cell id).removeExpired now).1).namespaces.objects = sh.namespaces.objects :=
      Handles.objects_modify_orphan _ orphan _
    have none_ : (if countsTowardsConsensus name then ((sh.cell id).removeExpired now).2 else []) = [] := by
      rcases meets.resolve_left (orphan name) with uncounted | nothing
      · simp [uncounted]
      · simp [nothing]
    refine ⟨f, by rw [same]; exact ledger, fun v => ?_⟩
    rw [same, due, due', none_, (owes v).1, (owes v).2]

include sound oks tables room in
theorem keeps_retain {name : String} {id : Nat} (ok : Ok threads sh i (.sweep now (.retain name id walk)))
    (here : threads[i]? = some (.sweep now (.retain name id walk)))
    (meets : clear server threads sh (.sweep now (.retain name id walk)) = true) :
    SweepKeeps server input threads sh i now (.retain name id walk) := by
  have owned : Owned sh name id := ok.refs (name, id) (by simp [Thread.refs, Sweep.refs])
  have todo : ∀ ns, ∀ r ∈ walk.todo, Owned (sh.put id ns) r.1 r.2 := fun ns r mem =>
    (ok.refs r (List.mem_cons_of_mem _ mem)).same (put_handles id ns) (put_cells id ns)
  have there : sh.namespaces.handle name = some id ∨ countsTowardsConsensus name = false ∨
      ((sh.cell id).removeExpired now).2 = [] := by
    simpa [clear, or_assoc] using meets
  have fair : allNamespace ∉ walk.emptied := ok.fair.1
  simp only [SweepKeeps, sweep]
  cases none_ : ((sh.cell id).removeExpired now).2.isEmpty with
  | true =>
      have nothing := List.isEmpty_iff.mp none_
      have on := Sweep.next_goesOn walk.entries walk.todo walk.emptied
      refine keeps_inside sound oks tables room here (put_handles id _) (put_cells id _) rfl
        (squares_retain owned (fun _ => ⟨rfl, rfl⟩) rfl ?_ there) (fun _ none => (by cases none))
        (fun _ none => (by cases none)) (.next walk (todo _) fair)
      rw [nothing, ite_self]
      exact on.due
  | false =>
      obtain ⟨f, ledger, -⟩ := sound.balance
      refine keeps_inside sound oks tables room here (put_handles id _) (put_cells id _) rfl
        (squares_retain owned (fun _ => ⟨rfl, rfl⟩) rfl rfl there) (fun _ none => (by cases none))
        (fun _ none => (by cases none)) ⟨todo _, ?_, fair, fun n _ _ _ same => ?_⟩
      · simp only [if_neg Bool.false_ne_true, Thread.due, Sweep.due]
        split
        · exact Namespace.removeExpired_keys_nodup _ _
        · exact List.nodup_nil
      · cases same
        rintro rfl
        rw [all_never_expires now ledger (owned.stays rfl)] at none_
        cases none_

include sound oks tables room in
theorem keeps_prune {emptied : List String} (ok : Ok threads sh i (.sweep now (.prune emptied)))
    (here : threads[i]? = some (.sweep now (.prune emptied))) :
    SweepKeeps server input threads sh i now (.prune emptied) := by
  have other : allNamespace ∉ emptied.filter (sh.prunes threads) :=
    fun mem => ok.fair.1 (List.mem_filter.mp mem).1
  have empty : ∀ name ∈ emptied.filter (sh.prunes threads), ∀ ns, sh.namespaces.get name = some ns →
      ns.isEmpty = true := by
    intro name mem ns found
    have taken := (List.mem_filter.mp mem).2
    obtain ⟨id, handle, -⟩ := (Handles.get_eq_some _).mp found
    rw [get_cell handle] at found
    cases found
    simp only [Shared.prunes, handle, Bool.and_eq_true] at taken
    exact taken.2.2
  refine keeps_unlink sound oks tables room here _ other (fun f ledger _ => ⟨f, ?_, fun v => ?_⟩)
    (fun n mem => ?_) (fun _ => ⟨rfl, rfl⟩) ⟨by simp [sweep, Thread.refs, Sweep.refs], List.nodup_nil, ?_⟩
  · refine ledger_congr ledger ?_
    rw [Handles.get_objects, Handles.get_objects]
    simp only [Handles.get, handle_unlinkAll, if_neg other, (unlinkAll_rest _ sh).2]
  · rw [counted_unlinkAll _ sh empty]
    rfl
  · exact List.contains_iff_mem.mpr mem
  · exact ⟨by simp [sweep, Sweep.emptied], fun _ _ _ _ same => (by cases same)⟩

include sound oks tables room in
/-- Every section of a sweep. -/
theorem sweep_keeps (here : threads[i]? = some (.sweep now at_))
    (meets : clear server threads sh (.sweep now at_) = true) :
    SweepKeeps server input threads sh i now at_ := by
  have ok := oks i _ here
  have on := fun walk : Walk => Sweep.next_goesOn walk.entries walk.todo walk.emptied
  cases at_ with
  | snapshot =>
      refine keeps_quiet sound oks tables room here (fun _ => rfl) (on ⟨_, _, _⟩).due (fun _ none => none)
        (fun _ none => (by cases none)) (Ok.next ⟨_, _, _⟩ (fun r mem => ?_) (by simp))
      obtain ⟨name, -, found⟩ := List.mem_filterMap.mp mem
      obtain ⟨id, handle, rfl⟩ := Option.map_eq_some_iff.mp found
      exact .of_handle handle
  | check name id walk =>
      simp only [SweepKeeps, sweep]
      split
      · exact keeps_quiet sound oks tables room here (fun _ => rfl) rfl (fun _ none => none)
          (fun _ none => none) ⟨ok.refs, List.nodup_nil, ok.fair.1, fun _ _ _ _ same => (by cases same)⟩
      · exact keeps_quiet sound oks tables room here (fun _ => rfl) (on walk).due (fun _ none => none)
          (fun _ none => (by cases none))
          (.next walk (fun r mem => ok.refs r (List.mem_cons_of_mem _ mem)) ok.fair.1)
  | retain name id walk => exact keeps_retain sound oks tables room input ok here meets
  | isEmpty name id expired walk =>
      have other : name ≠ allNamespace := ok.fair.2 name id expired walk rfl
      simp only [SweepKeeps, sweep]
      generalize emptied_ : (if (sh.cell id).isEmpty then walk.emptied ++ [name] else walk.emptied) = emptied
      have before : allNamespace ∉ walk.emptied := ok.fair.1
      have fair : allNamespace ∉ emptied := by
        rw [← emptied_]
        split
        · simp [before, Ne.symm other]
        · exact before
      have due := ok.due
      cases counts : countsTowardsConsensus name with
      | true =>
          simp only [Thread.due, Sweep.due, counts, if_true] at due
          refine keeps_quiet sound oks tables room here (fun _ => rfl) ?_ (fun _ none => none)
            (fun _ none => (by cases none)) (Ok.giving ⟨_, _, _⟩ ok.refs fair due)
          simp only [Thread.due, Sweep.due, counts, if_true]
          exact Walk.due_giving expired
      | false =>
          refine keeps_quiet sound oks tables room here (fun _ => rfl) ?_ (fun _ none => none)
            (fun _ none => (by cases none)) (Ok.next ⟨_, _, _⟩ ok.refs fair)
          simp only [Thread.due, Sweep.due, counts]
          exact (on ⟨_, _, _⟩).due
  | giveFind value rest walk =>
      simp only [SweepKeeps, sweep]
      cases found : sh.namespaces.handle allNamespace with
      | none => simp [clear, found] at meets
      | some all =>
          refine keeps_quiet sound oks tables room here (fun _ => rfl) rfl (fun _ none => none)
            (fun _ none => none)
            ⟨fun r mem => ?_, ok.due, ok.fair.1, fun _ _ _ _ same => (by cases same)⟩
          rcases List.mem_cons.mp mem with rfl | mem
          · exact .of_handle found
          · exact ok.refs r mem
  | give all value rest walk =>
      have found := (ok.refs (allNamespace, all) (by simp [Thread.refs, Sweep.refs])).stays rfl
      have due : (value :: rest).Nodup := ok.due
      refine keeps_inside sound oks tables room here (put_handles all _) (put_cells all _) rfl
        (squares_give found meets (fun _ => ⟨rfl, rfl⟩) rfl (Walk.due_giving rest))
        (fun _ none => (by cases none)) (fun _ none => (by cases none))
        (.giving walk (fun r mem => ?_) ok.fair.1 (List.nodup_cons.mp due).2)
      exact (ok.refs r (List.mem_cons_of_mem _ mem)).same (put_handles all _) (put_cells all _)
  | prune emptied => exact keeps_prune sound oks tables room input ok here
  | uncatalogue removed =>
      have gone : ∀ n ∈ removed, sh.namespaces.handle n = none ∨ threads.any (·.enrolls n) = true := by
        intro n mem
        have each := List.all_eq_true.mp meets n mem
        simpa only [Bool.or_eq_true, Option.isNone_iff_eq_none] using each
      exact keeps_uncatalogue sound oks tables room here gone (fun _ => rfl) rfl
        (fun n does => List.contains_iff_mem.mp does) (fun _ => rfl)
        ⟨by simp [sweep, Thread.refs, Sweep.refs], List.nodup_nil, by simp [sweep, Sweep.emptied],
          fun _ _ _ _ same => (by cases same)⟩
  | done =>
      exact keeps_quiet sound oks tables room here (fun _ => rfl) rfl (fun _ none => none)
        (fun _ none => none) ok

end Sweeps

/-! ## Runs -/

/-- A database nobody is working on, with its tally and its catalogue in order. -/
structure Start (server : Server) (sh : Shared) : Prop where
  ledger : Ledger server.node sh.namespaces.objects (counted sh.namespaces.objects)
  listed : ∀ name, sh.lists name = true ↔ (sh.namespaces.handle name).isSome = true
  fits : sh.namespaces.map.size < Consensus.tableLimit

/-- What a run keeps. -/
structure Running (server : Server) (p : Pool Shared Thread) : Prop where
  holds : Pool.Holds (Sound server) Ok p
  fits : p.shared.namespaces.map.size < Consensus.tableLimit

variable {server : Server}

theorem Start.running {sh : Shared} (start : Start server sh) : Running server ⟨sh, []⟩ := by
  refine ⟨⟨⟨⟨_, start.ledger, fun _ => rfl⟩, fun name id found => .inl ?_, fun name listed => .inl ?_⟩,
    by simp⟩, start.fits⟩
  · exact (start.listed name).mpr (by rw [found]; rfl)
  · exact Option.isSome_iff_exists.mp ((start.listed name).mp listed)

theorem shadow_uncounted {path : String} (shadow : startsWith path shadowPrefix = true) :
    path ≠ allNamespace ∧ countsTowardsConsensus path = false := by
  constructor
  · rintro rfl
    exact absurd shadow (by decide)
  · simp [countsTowardsConsensus, shadow]

/-- A thread that starts has nothing in the books. -/
theorem start_ok {p : Pool Shared Thread} {threads : List Thread} {sh : Shared} {i : Nat} {t : Thread}
    (allowed : Allowed server p (.start t)) :
    Ok threads sh i t ∧ (∀ v, t.owes v = 0) ∧ t.due = [] := by
  unfold Allowed at allowed
  split at allowed
  next same =>
    cases same
    rcases allowed with ⟨external, rfl⟩ | ⟨shadow, rfl⟩
    · exact ⟨.change ⟨external_ne_all external, (countsTowardsConsensus_of_external external).symm⟩
        (by simp [Point.refs]), fun _ => rfl, rfl⟩
    · exact ⟨.change ⟨(shadow_uncounted shadow).1, (shadow_uncounted shadow).2.symm⟩
        (by simp [Point.refs]), fun _ => rfl, rfl⟩
  next same =>
    cases same
    exact ⟨.change ⟨allowed, rfl⟩ (by simp [Point.refs]), fun _ => rfl, rfl⟩
  next same =>
    cases same
    exact ⟨.delete allowed List.nodup_nil rfl, fun _ => rfl, rfl⟩
  next same =>
    cases same
    exact ⟨⟨by simp [Thread.refs, Sweep.refs], List.nodup_nil, by simp [Sweep.emptied], by simp⟩,
      fun _ => rfl, rfl⟩
  next => cases allowed
  next same => cases same

theorem start_keeps {threads : List Thread} {sh : Shared} {t : Thread} (sound : Sound server threads sh)
    (own : Ok (threads ++ [t]) sh threads.length t) (owes : ∀ v, t.owes v = 0) (due : t.due = []) :
    Pool.Keeps (Sound server) Ok threads.length threads sh (threads ++ [t]) sh t where
  all := by
    obtain ⟨f, ledger, balance⟩ := sound.balance
    refine ⟨⟨f, ledger, fun v => ?_⟩, fun name id found => ?_, fun name listed => ?_⟩
    · rw [total_append, total_append, owes, due, List.count_nil]
      exact balance v
    · exact (sound.fresh name id found).imp_right (.append t)
    · exact (sound.stale name listed).imp_right (.append t)
  own := own
  others _ _ _ _ ok := ⟨ok.refs, ok.due, ok.fair⟩

/-- Every allowed move keeps the invariant. -/
theorem step_running (p : Pool Shared Thread) (m : Move Input Thread) (running : Running server p)
    (allowed : Allowed server p m) : Running server (p.step (program server) m) := by
  refine ⟨Pool.step_keeps (fun p m => Allowed server p m ∧
    p.shared.namespaces.map.size < Consensus.tableLimit) ?_ ?_ p m running.holds
    ⟨allowed, running.fits⟩, ?_⟩
  · intro p t holds allowed
    obtain ⟨own, owes, due⟩ := start_ok allowed.1
    exact start_keeps holds.shared own owes due
  · intro p i input t holds allowed here
    obtain ⟨⟨meets, room, -⟩, tables⟩ := allowed
    rw [here, Option.all_some] at meets
    cases t with
    | change path c at_ => exact change_keeps holds.shared holds.thread tables room input here meets
    | delete name at_ => exact delete_keeps holds.shared holds.thread tables room here meets
    | sweep now at_ => exact sweep_keeps holds.shared holds.thread tables room input here meets
  · cases m with
    | start t => exact running.fits
    | go i input => exact allowed.2.2

/-- The count `_all` gives a value. -/
def Shared.consensus (sh : Shared) (value : String) (now : DateTime) : Nat :=
  (sh.namespaces.get allNamespace).elim 0 fun all => all.count value now

/-- What `_all` answers is what the ledger says. -/
theorem consensus_of_ledger {sh : Shared} {f : String → Nat} {value : String}
    (ledger : Ledger server.node sh.namespaces.objects f) (fits : f value < u64Size) (now : DateTime) :
    sh.consensus value now = f value := by
  have entry := ledger value
  unfold Shared.consensus
  rw [allEntry, Handles.get_objects] at entry
  cases found : sh.namespaces.get allNamespace with
  | none =>
      rw [found] at entry
      exact Eq.symm entry
  | some all =>
      rw [found, Option.bind_some] at entry
      simp only [Option.elim_some, Namespace.count]
      cases held : all.values.get value with
      | none =>
          rw [held] at entry
          exact Eq.symm entry
      | some a =>
          rw [held] at entry
          obtain ⟨-, counts, never⟩ := entry
          simp [Attribute.isExpired_of_ttl never, Attribute.count, counts, OrderedMap.total_single,
            Nat.mod_eq_of_lt fits]

/-- Once nobody is under way, `_all` counts the namespaces that hold each value, and the
catalogue lists what is in the map. -/
theorem consensus_settles (server : Server) (sh : Shared) (start : Start server sh) (moves : List (Move Input Thread))
    (allowed : Pool.AllAllowed (program server) (Allowed server) ⟨sh, []⟩ moves)
    (finished : ∀ t ∈ (Pool.run (program server) ⟨sh, []⟩ moves).threads, t.done = true) :
    let p := Pool.run (program server) ⟨sh, []⟩ moves
    (∀ value now, p.shared.consensus value now = counted p.shared.namespaces.objects value) ∧
      ∀ name, (p.shared.namespaces.handle name).isSome = true ↔ p.shared.lists name = true := by
  obtain ⟨holds, tables⟩ := Pool.run_keeps step_running moves _ start.running allowed
  generalize Pool.run (program server) ⟨sh, []⟩ moves = p at *
  obtain ⟨f, ledger, balance⟩ := holds.shared.balance
  have settled : ∀ v, f v = counted p.shared.namespaces.objects v := by
    intro v
    have sum := balance v
    rw [total_eq_zero fun t mem => Thread.owes_done (finished t mem) v,
      total_eq_zero fun t mem => by rw [Thread.due_done (finished t mem), List.count_nil]] at sum
    exact sum
  refine ⟨fun value now => ?_, fun name => ⟨fun found => ?_, fun listed => ?_⟩⟩
  · rw [consensus_of_ledger ledger _ now, settled]
    have held := counted_le_size (m := p.shared.namespaces.objects) value
    rw [Handles.size_objects, ← settled] at held
    exact lt_of_le_of_lt held (lt_trans tables (by decide))
  · obtain ⟨id, handle⟩ := Option.isSome_iff_exists.mp found
    refine (holds.shared.fresh name id handle).resolve_right ?_
    rintro ⟨t, mem, does⟩
    exact absurd does (by simp [Thread.enrolls_done (finished t mem)])
  · have there := (holds.shared.stale name listed).resolve_right ?_
    · exact Option.isSome_iff_exists.mpr there
    · rintro ⟨t, mem, does⟩
      exact absurd does (by simp [Thread.uncatalogues_done (finished t mem)])

/-- What the server allows, decided. -/
def allows (server : Server) (p : Pool Shared Thread) : Move Input Thread → Bool
  | .start (.change path (.write _ _ _ _ consensus _) .lookup) =>
      (!isInternal path && consensus) || (startsWith path shadowPrefix && !consensus)
  | .start (.change path (.merge _ _) .lookup) => path ≠ allNamespace
  | .start (.delete name .find) => name ≠ allNamespace
  | .start (.sweep _ .snapshot) => true
  | .start _ => false
  | .go i input => (p.threads[i]?).all (clear server p.threads p.shared) &&
      p.threads.countP (fun t => !t.done) < Consensus.tableLimit &&
      (p.step (program server) (.go i input)).shared.namespaces.map.size < Consensus.tableLimit

theorem allowed_of_allows (p : Pool Shared Thread) (m : Move Input Thread)
    (ok : allows server p m = true) : Allowed server p m := by
  unfold allows at ok
  unfold Allowed
  split at ok
  · simpa using ok
  · simpa using ok
  · simpa using ok
  · trivial
  · cases ok
  · simpa [and_assoc] using ok

/-- No namespaces. -/
def Shared.empty : Shared := ⟨.empty, ∅⟩

theorem Shared.empty_start : Start server .empty where
  ledger _ := rfl
  listed name := by
    constructor
    · intro listed
      cases listed
    · intro found
      cases found
  fits := by decide

/-- Turns of one thread at the epoch. -/
def turns (i n : Nat) (order : List String) : List (Move Input Thread) :=
  List.replicate n (.go i ⟨.unixEpoch, order⟩)

def writes (path value : String) : Move Input Thread :=
  .start (.change path (.write "here" value .unixEpoch none true "") .lookup)

/-- Two writers take turns, one of their namespaces is deleted, and a sweep comes by. -/
def takingTurns : List (Move Input Thread) :=
  [writes "a/x" "v", writes "a/y" "v"] ++ turns 0 4 [] ++ turns 1 5 [] ++ turns 0 5 [] ++ turns 1 4 [] ++
    .start (.delete "a/x" .find) :: turns 2 6 [] ++
    .start (.sweep .unixEpoch .snapshot) :: turns 3 5 ["a/y", "_all"]

theorem consensus_settles_takingTurns :
    let p := Pool.run (program ⟨"here", 0⟩) ⟨.empty, []⟩ takingTurns
    p.shared.consensus "v" .unixEpoch = 1 ∧ counted p.shared.namespaces.objects "v" = 1 := by
  have allowed : Pool.AllAllowed (program ⟨"here", 0⟩) (Allowed ⟨"here", 0⟩) ⟨.empty, []⟩ takingTurns :=
    Pool.allAllowed_of_checks allowed_of_allows takingTurns _ (by decide +kernel)
  have one : counted (Pool.run (program ⟨"here", 0⟩) ⟨.empty, []⟩ takingTurns).shared.namespaces.objects "v" = 1 := by
    decide +kernel
  have settled := consensus_settles ⟨"here", 0⟩ .empty Shared.empty_start takingTurns allowed (by decide +kernel)
  exact ⟨(settled.1 "v" .unixEpoch).trans one, one⟩

/-- A writer registers a namespace, which is deleted before the writer records its value there. -/
def recordsLate : List (Move Input Thread) :=
  writes "a/x" "v" :: turns 0 3 [] ++ .start (.delete "a/x" .find) :: turns 1 4 [] ++ turns 0 6 []

theorem late_record_drifts :
    let p := Pool.run (program ⟨"here", 0⟩) ⟨.empty, []⟩ recordsLate
    (∀ t ∈ p.threads, t.done = true) ∧ p.shared.consensus "v" .unixEpoch = 1 ∧
      counted p.shared.namespaces.objects "v" = 0 := by
  refine ⟨?_, ?_, ?_⟩ <;> decide +kernel

end SightingDB.Concurrent
