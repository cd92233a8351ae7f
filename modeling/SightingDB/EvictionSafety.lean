import SightingDB.EvictionInvariant

/-!
When no sighting is lost to eviction. A sighting that has been recorded stays in the namespace
it was recorded in, or in the file of its shard, as long as no step falls into one of the gaps
between the three locks; `clear` names them.
-/
namespace SightingDB.Eviction

open Threads

/-- The turns that do not go wrong. A read that expects its namespace finds the shard flagged as
out of memory when the lookup failed, and in memory after `page_in`; `page_in` reads a file in
while nothing of it is in memory; a namespace is registered, and a shard saved, with the whole
file in memory; a mark is taken away when none was made since the pass last looked, and a shard
is dropped while it is unmarked. -/
def clear (server : Server) (threads : List Thread) (sh : Shared) : Thread → Bool
  | .access name (.read true) .catalogue => !sh.isResident (shardOf name)
  | .access name (.read true) .lookupAgain => sh.inMemory server (shardOf name)
  | .access name _ (.load _) =>
      sh.isResident (shardOf name) || sh.outOfMemory server (shardOf name)
  | .access name _ .create =>
      (sh.namespaces.handle name).isSome || sh.inMemory server (shardOf name)
  | .evictor (.save shard _) => sh.inMemory server shard
  | .evictor (.unmark shard _ looked) => !sh.dirty.contains shard || sh.marks.count shard = looked
  | .evictor (.drop shard _) => busy threads sh shard || !sh.dirty.contains shard
  | _ => true

/-- Threads start at the first section of their code, writes are to shards in play, and every
turn is clear. -/
def Allowed (server : Server) (p : Pool Shared Thread) : Move Int Thread → Prop
  | .start (.access name (.write _) .touch) => server.names.used (shardOf name)
  | .start (.access _ (.read false) .touch) => True
  | .start (.evictor .candidates) => True
  | .start _ => False
  | .go i _ => (p.threads[i]?).all (clear server p.threads p.shared) = true

variable {server : Server}

/-! ## Turns -/

section Turns

variable {threads threads' : List Thread} {sh sh' : Shared} {i : Nat} {t t' : Thread}

/-- A turn, then the move of the thread that took it. -/
theorem Follows.moved (follows : Follows server threads sh threads sh')
    (pends : ∀ n, Among (Thread.Unmarked n) threads → Among (Thread.Unmarked n) threads') :
    Follows server threads sh threads' sh' where
  kept := follows.kept
  filed := follows.filed
  listed := follows.listed
  held := follows.held
  marks := follows.marks
  saved shard used same saved name b here found :=
    (follows.saved shard used same saved name b here found).imp_right (pends name)

theorem Sound.moved (sound : Sound server threads sh)
    (pends : ∀ n, Among (Thread.Unmarked n) threads → Among (Thread.Unmarked n) threads')
    (enrolls : ∀ n, Among (Thread.Enrolling n) threads → Among (Thread.Enrolling n) threads') :
    Sound server threads' sh :=
  sound.reshard pends sound.inPlay fun n => Or.imp_right (enrolls n)

/-- A turn of a thread that neither stops being about to mark nor to enroll. -/
theorem keeps_moved (sound : Sound server threads sh') (follows : Follows server threads sh threads sh')
    (here : threads[i]? = some t) (pends : ∀ n, t.Unmarked n → t'.Unmarked n)
    (enrolls : ∀ n, t.Enrolling n → t'.Enrolling n) (own : Ok server (threads.set i t') sh' i t') :
    Pool.Keeps (Sound server) (Ok server) i threads sh (threads.set i t') sh' t' :=
  keeps_of_follows (sound.moved (fun n => .set here (pends n)) fun n => .set here (enrolls n))
    (follows.moved fun n => .set here (pends n)) own

theorem Follows.refl : Follows server threads sh threads sh := .same rfl rfl rfl rfl fun _ pend => pend

/-- A turn that changes nothing the threads share. -/
theorem keeps_still (sound : Sound server threads sh) (here : threads[i]? = some t)
    (pends : ∀ n, t.Unmarked n → t'.Unmarked n) (enrolls : ∀ n, t.Enrolling n → t'.Enrolling n)
    (own : Ok server (threads.set i t') sh i t') :
    Pool.Keeps (Sound server) (Ok server) i threads sh (threads.set i t') sh t' :=
  keeps_moved sound .refl here pends enrolls own

/-- A turn that rewrites one entry of the catalogue without unlisting anything. -/
theorem keeps_catalogue {shard : String} {meta' : ShardMeta} (sound : Sound server threads sh)
    (here : threads[i]? = some t) (used : server.names.used shard)
    (grows : ∀ meta_, sh.shards.get shard = some meta_ → ∀ n, meta_.namespaces.contains n = true →
      meta'.namespaces.contains n = true)
    (pends : ∀ n, t.Unmarked n → t'.Unmarked n)
    (enrolls : ∀ n, t.Enrolling n → t'.Enrolling n ∨
      ({ sh with shards := sh.shards.insert shard meta' } : Shared).Listed n)
    (own : Ok server (threads.set i t') { sh with shards := sh.shards.insert shard meta' } i t') :
    Pool.Keeps (Sound server) (Ok server) i threads sh (threads.set i t')
      { sh with shards := sh.shards.insert shard meta' } t' := by
  have listed : ∀ n, sh.Listed n →
      ({ sh with shards := sh.shards.insert shard meta' } : Shared).Listed n := by
    rintro n ⟨meta_, found, mem⟩
    simp only [Shared.Listed, OrderedMap.get_insert]
    split
    next same => exact ⟨meta', rfl, grows meta_ (same ▸ found) n mem⟩
    next => exact ⟨meta_, found, mem⟩
  have pending : ∀ n, Among (Thread.Unmarked n) threads → Among (Thread.Unmarked n) (threads.set i t') :=
    fun n => .set here (pends n)
  refine keeps_of_follows (sound.reshard pending (fun s m found => ?_) fun n => ?_)
    (.reshard pending listed) own
  · rw [OrderedMap.get_insert] at found
    split at found
    next same => exact same ▸ used
    next => exact sound.inPlay s m found
  · rintro (old | ⟨u, mem, enrolling⟩)
    · exact .inl (listed n old)
    · obtain ⟨j, at_⟩ := List.mem_iff_getElem?.mp mem
      by_cases same : i = j
      · subst same
        rw [here] at at_
        cases at_
        rcases enrolls n enrolling with still | done
        · exact .inr ⟨t', List.mem_set (List.getElem?_eq_some_iff.mp here).1 t', still⟩
        · exact .inl done
      · exact .inr (.of_get (by rw [List.getElem?_set_ne same, at_]) enrolling)

section Accesses

variable {name : String} {goal : Goal} {at_ : Point} {id : Nat}

variable (used : ∀ s, goal = .write s → server.names.used (shardOf name))

/-- The points without a handle. What a read relies on is passed on. -/
theorem AccessOk.waiting (used : ∀ s, goal = .write s → server.names.used (shardOf name))
    (pages : at_.pages = true → server.names.used (shardOf name))
    (reads : ∀ e, goal = .read e → at_.extends = false) (handle : at_.handle = none)
    (recorded : at_.recorded = false) (other : at_ ≠ .missing)
    (filed : goal = .read true → at_.waits = true → (∃ f, sh.sheet server name = some f) ∧ sh.Listed name) :
    AccessOk server sh i name goal at_ where
  used := used
  pages := pages
  reads := reads
  held id holds := by
    rw [handle] at holds
    cases holds
  recorded s _ after := by
    rw [recorded] at after
    cases after
  waits := filed
  answered _ := other

/-- A write, wherever it stands outside `page_in`. -/
theorem AccessOk.writing {s : Sighting} (used : server.names.used (shardOf name))
    (pages : at_.pages = false)
    (held : ∀ id, at_.handle = some id → sh.namespaces.handle name = some id)
    (kept : at_.recorded = true → sh.Kept server name (i, s.value)) :
    AccessOk server sh i name (.write s) at_ where
  used _ _ := used
  pages inside := by
    rw [pages] at inside
    cases inside
  reads := by simp
  held := held
  recorded s' same after := by
    cases same
    exact kept after
  waits := by simp
  answered := by simp

include used in
theorem AccessOk.found (handle : sh.namespaces.handle name = some id) :
    AccessOk server sh i name goal (goal.found id) := by
  cases goal with
  | write s =>
      refine .writing (used s rfl) rfl (fun cell holds => ?_) (by simp [Goal.found, Point.recorded])
      cases holds
      exact handle
  | read e =>
      refine ⟨by simp, by simp [Goal.found, Point.pages], fun _ _ => rfl, fun cell holds => ?_,
        by simp, by simp [Goal.found, Point.waits], by simp [Goal.found]⟩
      cases holds
      exact handle

include used in
theorem AccessOk.absent (unexpected : goal ≠ .read true) :
    AccessOk server sh i name goal goal.absent := by
  cases goal with
  | write s => exact .writing (used s rfl) rfl (by simp [Goal.absent, Point.handle]) (by simp [Goal.absent, Point.recorded])
  | read e =>
      refine ⟨by simp, by simp [Goal.absent, Point.pages], fun _ _ => rfl, fun _ holds => ?_, by simp,
        by simp [Goal.absent, Point.waits], fun reads => absurd reads unexpected⟩
      cases holds

/-- After `page_in`, from either place. -/
theorem AccessOk.loaded {extending : Bool} (ok : AccessOk server sh i name goal at_)
    (same : at_.extends = extending) (waits : at_.waits = true)
    (kept : ∀ n, sh.Listed n → sh'.Listed n) (files : sh'.files = sh.files) :
    AccessOk server sh' i name goal (.loaded extending) := by
  have extends_ : (Point.loaded extending).extends = extending := by
    cases extending <;> rfl
  refine .waiting ok.used ?_ (fun e reads => ?_) ?_ ?_ ?_ (fun reads _ => ?_)
  · cases extending <;> simp [Point.loaded, Point.pages]
  · rw [extends_, ← same]
    exact ok.reads e reads
  · cases extending <;> rfl
  · cases extending <;> rfl
  · cases extending <;> simp [Point.loaded]
  · obtain ⟨⟨f, filed⟩, listed⟩ := ok.waits reads waits
    refine ⟨⟨f, ?_⟩, kept name listed⟩
    rw [← filed]
    simp only [Shared.sheet, Shared.fileOf, files]

/-- Only a write gets to the points after a failed lookup. -/
theorem AccessOk.writes (ok : AccessOk server sh i name goal at_) (extends_ : at_.extends = true) :
    ∃ s, goal = .write s := by
  cases goal with
  | write s => exact ⟨s, rfl⟩
  | read e =>
      rw [ok.reads e rfl] at extends_
      cases extends_

/-- A thread about to enroll a namespace has it in the map. -/
theorem enrolling_handle (oks : ∀ i t, threads[i]? = some t → Ok server threads sh i t)
    (enrolling : Among (Thread.Enrolling name) threads) : ∃ id, sh.namespaces.handle name = some id := by
  obtain ⟨t, mem, enrolling⟩ := enrolling
  obtain ⟨j, at_⟩ := List.mem_iff_getElem?.mp mem
  have ok := oks j t at_
  cases t with
  | evictor pass => cases enrolling
  | access n goal point =>
      obtain ⟨rfl, enrolling⟩ := enrolling
      cases point with
      | enroll id => exact ⟨id, ok.held id rfl⟩
      | _ => cases enrolling

/-- A namespace that is there and not in memory is in its file, and listed. -/
theorem filed_of_absent (sound : Sound server threads sh)
    (oks : ∀ i t, threads[i]? = some t → Ok server threads sh i t)
    (present : sh.Present server name) (absent : sh.namespaces.handle name = none) :
    (∃ f, sh.sheet server name = some f) ∧ sh.Listed name := by
  have gone : sh.namespaces.get name = none := (Handles.get_eq_none _).mpr absent
  have filed : ∃ f, sh.sheet server name = some f := by
    rcases present with ⟨b, found⟩ | filed
    · rw [gone] at found
      cases found
    · exact filed
  refine ⟨filed, (sound.listed name present).resolve_right fun enrolling => ?_⟩
  obtain ⟨id, found⟩ := enrolling_handle oks enrolling
  rw [absent] at found
  cases found

theorem catalogued_of_listed (listed : sh.Listed name) (flagged : sh.isResident (shardOf name) = false) :
    sh.catalogued (shardOf name) name = true := by
  obtain ⟨meta_, found, mem⟩ := listed
  simp only [Shared.isResident, found, Option.map_some, Option.getD_some] at flagged
  simp [Shared.catalogued, found, flagged, mem]

section Points

variable (sound : Sound server threads sh) (oks : ∀ i t, threads[i]? = some t → Ok server threads sh i t)
  (here : threads[i]? = some (.access name goal at_)) (now : Int)

/-- What one section of a request has to leave behind. -/
def AccessKeeps (server : Server) (now : Int) (threads : List Thread) (sh : Shared) (i : Nat)
    (name : String) (goal : Goal) (at_ : Point) : Prop :=
  let r := access server now i sh name goal at_
  Pool.Keeps (Sound server) (Ok server) i threads sh (threads.set i (.access name r.2.1 r.2.2)) r.1
    (.access name r.2.1 r.2.2)

/-- Points that are not about to mark, or to enroll, let go of nothing. -/
theorem no_pend {goal' : Goal} {at' : Point} (unmarked : at_.unmarked = false) (n : String)
    (pend : (Thread.access name goal at_).Unmarked n) : (Thread.access name goal' at').Unmarked n := by
  rw [pend.2] at unmarked
  cases unmarked

theorem no_enroll {goal' : Goal} {at' : Point} (enrolling : at_.enrolling = false) (n : String)
    (pend : (Thread.access name goal at_).Enrolling n) : (Thread.access name goal' at').Enrolling n := by
  rw [pend.2] at enrolling
  cases enrolling

include sound in
theorem keeps_touch (ok : AccessOk server sh i name goal .touch)
    (here : threads[i]? = some (.access name goal .touch)) :
    AccessKeeps server now threads sh i name goal .touch := by
  have own : ∀ sh', AccessOk server sh' i name goal .lookup := fun sh' =>
    .waiting ok.used (by simp [Point.pages]) (fun _ _ => rfl) rfl rfl (by simp) (by simp [Point.waits])
  simp only [AccessKeeps, access, Shared.touch]
  cases found : sh.shards.get (shardOf name) with
  | none => exact keeps_still sound here (no_pend rfl) (no_enroll rfl) (own _)
  | some meta_ =>
      refine keeps_catalogue sound here (sound.inPlay _ _ found) (fun m same n mem => ?_) (no_pend rfl)
        (fun n enrolling => .inl (no_enroll rfl n enrolling)) (own _)
      cases found.symm.trans same
      exact mem

include sound oks in
theorem keeps_lookup (ok : AccessOk server sh i name goal .lookup)
    (here : threads[i]? = some (.access name goal .lookup)) :
    AccessKeeps server now threads sh i name goal .lookup := by
  simp only [AccessKeeps, access]
  have used : ∀ s, goal.looked (sh.written.contains name) = .write s →
      server.names.used (shardOf name) := by
    intro s writes
    cases goal with
    | write s' => exact ok.used s' rfl
    | read e => cases writes
  cases handle : sh.namespaces.handle name with
  | some id => exact keeps_still sound here (no_pend rfl) (no_enroll rfl) (AccessOk.found used handle)
  | none =>
      refine keeps_still sound here (no_pend rfl) (no_enroll rfl) (AccessOk.waiting used
        (by simp [Point.pages]) (fun _ _ => rfl) rfl rfl (by simp) fun expected _ => ?_)
      have written : name ∈ sh.written := by
        cases goal with
        | write s => cases expected
        | read e => simpa [Goal.looked] using expected
      exact filed_of_absent sound oks (sound.written name written) handle

include sound in
theorem keeps_catalogued (ok : AccessOk server sh i name goal .catalogue)
    (here : threads[i]? = some (.access name goal .catalogue))
    (meets : clear server threads sh (.access name goal .catalogue) = true) :
    AccessKeeps server now threads sh i name goal .catalogue := by
  simp only [AccessKeeps, access]
  cases catalogued : sh.catalogued (shardOf name) name with
  | true =>
      refine keeps_still sound here (no_pend rfl) (no_enroll rfl) (AccessOk.waiting ok.used (fun _ => ?_)
        (fun _ _ => rfl) rfl rfl (by simp) fun expected _ => ok.waits expected rfl)
      cases found : sh.shards.get (shardOf name) with
      | none => simp [Shared.catalogued, found] at catalogued
      | some meta_ => exact sound.inPlay _ _ found
  | false =>
      refine keeps_still sound here (no_pend rfl) (no_enroll rfl) (AccessOk.absent ok.used ?_)
      rintro rfl
      have listed := (ok.waits rfl rfl).2
      rw [catalogued_of_listed listed (by simpa [clear] using meets)] at catalogued
      cases catalogued

include sound in
theorem keeps_load {extending : Bool} (ok : AccessOk server sh i name goal (.load extending))
    (here : threads[i]? = some (.access name goal (.load extending)))
    (meets : clear server threads sh (.access name goal (.load extending)) = true) :
    AccessKeeps server now threads sh i name goal (.load extending) := by
  simp only [AccessKeeps, access]
  cases resident : sh.isResident (shardOf name) with
  | true =>
      exact keeps_still sound here (no_pend rfl) (no_enroll rfl)
        (ok.loaded rfl rfl (fun _ listed => listed) rfl)
  | false =>
      have used := ok.pages rfl
      have out : sh.outOfMemory server (shardOf name) = true := by
        cases goal with
        | write s => simpa [clear, resident] using meets
        | read e => cases e <;> simpa [clear, resident] using meets
      exact keeps_moved (sound.load used) (.load sound used out) here (no_pend rfl) (no_enroll rfl)
        (AccessOk.waiting ok.used (fun _ => used) (fun e reads => ok.reads e reads) rfl rfl (by simp)
          fun expected _ => ok.waits expected rfl)

include sound in
theorem keeps_flag {extending : Bool} {listed : List String}
    (ok : AccessOk server sh i name goal (.flag extending listed))
    (here : threads[i]? = some (.access name goal (.flag extending listed))) :
    AccessKeeps server now threads sh i name goal (.flag extending listed) := by
  have grows : ∀ meta_, sh.shards.get (shardOf name) = some meta_ → ∀ n,
      meta_.namespaces.contains n = true →
      (listed.foldl (fun names name => names.insert name ())
        ((sh.shards.get (shardOf name)).getD .default).namespaces).contains n = true := by
    intro meta_ found n mem
    rw [OrderedMap.contains_foldl_insert, found, Option.getD_some, mem, Bool.true_or]
  have keeps : ∀ n, sh.Listed n → (sh.flag (shardOf name) listed now).Listed n := by
    rintro n ⟨meta_, found, mem⟩
    simp only [Shared.Listed, Shared.flag, OrderedMap.get_insert]
    split
    next same => exact ⟨_, rfl, grows meta_ (same ▸ found) n mem⟩
    next => exact ⟨meta_, found, mem⟩
  exact keeps_catalogue sound here (ok.pages rfl) grows (no_pend rfl)
    (fun n enrolling => .inl (no_enroll rfl n enrolling)) (ok.loaded rfl rfl keeps rfl)

include sound in
theorem keeps_lookupAgain (ok : AccessOk server sh i name goal .lookupAgain)
    (here : threads[i]? = some (.access name goal .lookupAgain))
    (meets : clear server threads sh (.access name goal .lookupAgain) = true) :
    AccessKeeps server now threads sh i name goal .lookupAgain := by
  simp only [AccessKeeps, access]
  cases handle : sh.namespaces.handle name with
  | some id => exact keeps_still sound here (no_pend rfl) (no_enroll rfl) (AccessOk.found ok.used handle)
  | none =>
      refine keeps_still sound here (no_pend rfl) (no_enroll rfl) (AccessOk.absent ok.used ?_)
      rintro rfl
      obtain ⟨f, filed⟩ := (ok.waits rfl rfl).1
      obtain ⟨b, found⟩ := get_of_inMemory meets filed
      rw [(Handles.get_eq_none _).mpr handle] at found
      cases found

include sound in
theorem keeps_evicted (ok : AccessOk server sh i name goal .evicted)
    (here : threads[i]? = some (.access name goal .evicted)) :
    AccessKeeps server now threads sh i name goal .evicted := by
  obtain ⟨s, rfl⟩ := ok.writes rfl
  simp only [AccessKeeps, access]
  split
  · exact keeps_still sound here (no_pend rfl) (no_enroll rfl)
      (AccessOk.waiting ok.used (fun _ => ok.used s rfl) (by simp) rfl rfl (by simp) (by simp))
  · exact keeps_still sound here (no_pend rfl) (no_enroll rfl)
      (AccessOk.waiting ok.used (fun _ => ok.used s rfl) (by simp) rfl rfl (by simp) (by simp))

include sound in
theorem keeps_create (ok : AccessOk server sh i name goal .create)
    (here : threads[i]? = some (.access name goal .create))
    (meets : clear server threads sh (.access name goal .create) = true) :
    AccessKeeps server now threads sh i name goal .create := by
  obtain ⟨s, rfl⟩ := ok.writes rfl
  have own : ∀ sh' id, sh'.namespaces.handle name = some id →
      AccessOk server sh' i name (.write s) (.enroll id) := by
    intro sh' id handle
    refine .writing (ok.used s rfl) rfl (fun cell holds => ?_) (by simp [Point.recorded])
    cases holds
    exact handle
  have there : (sh.create name).1.namespaces.handle name = some (sh.create name).2 := handle_create name
  simp only [AccessKeeps, access]
  cases handle : sh.namespaces.handle name with
  | some id =>
      have still : sh.create name = (sh, id) := by simp [Shared.create, handle]
      rw [still]
      exact keeps_still sound here (no_pend rfl) (no_enroll rfl) (own sh id handle)
  | none =>
      have all : sh.inMemory server (shardOf name) = true := by
        simpa [clear, handle] using meets
      have bound := (List.getElem?_eq_some_iff.mp here).1
      generalize (sh.create name).2 = id at there ⊢
      have mem := List.mem_set bound (Thread.access name (.write s) (.enroll id))
      have pend : Among (Thread.Unmarked name) (threads.set i (.access name (.write s) (.enroll id))) :=
        ⟨_, mem, rfl, rfl⟩
      have enrolling : Among (Thread.Enrolling name) (threads.set i (.access name (.write s) (.enroll id))) :=
        ⟨_, mem, rfl, rfl⟩
      rw [create_eq handle] at there ⊢
      exact keeps_of_follows
        (sound.create handle pend enrolling (fun n => .set here (no_pend rfl n))
          (fun n => .set here (no_enroll rfl n)) (ok.used s rfl) all)
        (.create handle pend fun n => .set here (no_pend rfl n)) (own _ id there)

include sound in
theorem keeps_enroll {id : Nat} (ok : AccessOk server sh i name goal (.enroll id))
    (here : threads[i]? = some (.access name goal (.enroll id))) :
    AccessKeeps server now threads sh i name goal (.enroll id) := by
  obtain ⟨s, rfl⟩ := ok.writes rfl
  refine keeps_catalogue sound here (ok.used s rfl) (fun meta_ found n mem => ?_)
    (fun n pend => ⟨pend.1, rfl⟩) (fun n enrolling => .inr ?_) (AccessOk.found ok.used (ok.held id rfl))
  · rw [found, OrderedMap.contains, OrderedMap.get_insert]
    split
    · rfl
    · exact mem
  · obtain ⟨rfl, -⟩ := enrolling
    refine ⟨_, OrderedMap.get_insert_self _ _ _, ?_⟩
    simp [OrderedMap.contains]

include sound in
theorem keeps_record {id : Nat} (ok : AccessOk server sh i name goal (.record id))
    (here : threads[i]? = some (.access name goal (.record id))) :
    AccessKeeps server now threads sh i name goal (.record id) := by
  obtain ⟨s, rfl⟩ := ok.writes rfl
  have held := ok.held id rfl
  have bound := (List.getElem?_eq_some_iff.mp here).1
  have pend : Among (Thread.Unmarked name) (threads.set i (.access name (.write s) (.mark id))) :=
    ⟨_, List.mem_set bound _, rfl, rfl⟩
  have pends : ∀ n, Among (Thread.Unmarked n) threads →
      Among (Thread.Unmarked n) (threads.set i (.access name (.write s) (.mark id))) :=
    fun n => .set here fun unmarked => ⟨unmarked.1, rfl⟩
  refine keeps_of_follows (sound.record held pend pends fun n => .set here (no_enroll rfl n))
    (.record held pend pends) (AccessOk.writing (ok.used s rfl) rfl (fun cell holds => ?_) ?_)
  · cases holds
    exact held
  · exact fun _ => record_kept held

include sound in
theorem keeps_mark {id : Nat} (ok : AccessOk server sh i name goal (.mark id))
    (here : threads[i]? = some (.access name goal (.mark id))) :
    AccessKeeps server now threads sh i name goal (.mark id) := by
  obtain ⟨s, rfl⟩ := ok.writes rfl
  have pends : ∀ n, shardOf n ≠ shardOf name → Among (Thread.Unmarked n) threads →
      Among (Thread.Unmarked n) (threads.set i (.access name (.write s) (.release id))) := by
    intro n other
    refine .set here fun unmarked => ?_
    exact absurd (congrArg shardOf unmarked.1.symm) other
  refine keeps_of_follows (sound.markDirty pends fun n => .set here (no_enroll rfl n)) (.markDirty pends)
    (AccessOk.writing (ok.used s rfl) rfl (fun cell holds => ?_) ?_)
  · cases holds
    exact ok.held id rfl
  · exact fun _ => ok.recorded s rfl rfl

include sound in
theorem keeps_release {id : Nat} (ok : AccessOk server sh i name goal (.release id))
    (here : threads[i]? = some (.access name goal (.release id))) :
    AccessKeeps server now threads sh i name goal (.release id) := by
  cases goal with
  | read e =>
      have own : AccessOk server sh i name (.read e) .done :=
        ⟨by simp, by simp [Point.pages], fun _ _ => rfl, by simp [Point.handle], by simp,
          by simp [Point.waits], by simp⟩
      exact keeps_still sound here (no_pend rfl) (no_enroll rfl) own
  | write s =>
      obtain ⟨b, found⟩ := sh.namespaces.exists_get (ok.held id rfl)
      have pends : ∀ n, Among (Thread.Unmarked n) threads →
          Among (Thread.Unmarked n) (threads.set i (.access name (.write s) .done)) :=
        fun n => .set here (no_pend rfl n)
      exact keeps_of_follows (sound.return_ found pends fun n => .set here (no_enroll rfl n))
        (.same rfl rfl rfl rfl pends)
        (AccessOk.writing (ok.used s rfl) rfl (by simp [access, Point.handle])
          fun _ => ok.recorded s rfl rfl)

include sound oks in
/-- Every section of a request. -/
theorem access_keeps (here : threads[i]? = some (.access name goal at_))
    (meets : clear server threads sh (.access name goal at_) = true) :
    AccessKeeps server now threads sh i name goal at_ := by
  have ok : AccessOk server sh i name goal at_ := oks i _ here
  cases at_ with
  | touch => exact keeps_touch sound now ok here
  | lookup => exact keeps_lookup sound oks now ok here
  | catalogue => exact keeps_catalogued sound now ok here meets
  | load extending => exact keeps_load sound now ok here meets
  | flag extending listed => exact keeps_flag sound now ok here
  | lookupAgain => exact keeps_lookupAgain sound now ok here meets
  | evicted => exact keeps_evicted sound now ok here
  | create => exact keeps_create sound now ok here meets
  | enroll id => exact keeps_enroll sound now ok here
  | record id => exact keeps_record sound now ok here
  | mark id => exact keeps_mark sound now ok here
  | release id => exact keeps_release sound now ok here
  | done => exact keeps_still sound here (no_pend rfl) (no_enroll rfl) ok
  | missing => exact keeps_still sound here (no_pend rfl) (no_enroll rfl) ok

end Points

end Accesses

section Passes

variable {at_ at' : Pass} (sound : Sound server threads sh)
  (oks : ∀ i t, threads[i]? = some t → Ok server threads sh i t)
  (here : threads[i]? = some (.evictor at_)) (now : Int)

/-- What one section of an eviction pass has to leave behind. -/
def PassKeeps (server : Server) (now : Int) (threads : List Thread) (sh : Shared) (i : Nat) (at_ : Pass) :
    Prop :=
  let r := evict server now threads sh at_
  Pool.Keeps (Sound server) (Ok server) i threads sh (threads.set i (.evictor r.2)) r.1 (.evictor r.2)

theorem PassOk.next {rest : List String} (used : ∀ shard ∈ rest, server.names.used shard) :
    PassOk server threads sh (nextShard rest) := by
  cases rest with
  | nil => exact ⟨by simp [nextShard, Pass.shards], by simp [nextShard]⟩
  | cons shard rest => exact ⟨used, by simp [nextShard]⟩

/-- A pass that has just looked: the shard is saved, up to what is about to be marked. -/
theorem PassOk.just {shard : String} {rest : List String}
    (used : ∀ s ∈ shard :: rest, server.names.used s) (saved : Saved server threads sh shard) :
    PassOk server threads sh (.unmark shard rest (sh.marks.count shard)) := by
  refine ⟨used, fun s rest' looked same => ?_⟩
  cases same
  exact ⟨le_rfl, fun _ => saved⟩

include here in
theorem Saved.passed {shard : String} (saved : Saved server threads sh shard) :
    Saved server (threads.set i (.evictor at')) sh shard :=
  fun name b same found => (saved name b same found).imp_right fun pend => .set here (fun none => none) pend

include sound oks in
theorem keeps_drop {shard : String} {rest : List String} (ok : PassOk server threads sh (.drop shard rest))
    (here : threads[i]? = some (.evictor (.drop shard rest)))
    (meets : clear server threads sh (.evictor (.drop shard rest)) = true) :
    PassKeeps server now threads sh i (.drop shard rest) := by
  simp only [PassKeeps, evict]
  cases idle : busy threads sh shard with
  | true =>
      refine keeps_still sound here (fun _ pend => pend) (fun _ pend => pend) (PassOk.next ?_)
      exact fun s mem => ok.used s (List.mem_cons_of_mem _ mem)
  | false =>
      have clean : sh.dirty.contains shard = false := by
        simpa [clear, idle] using meets
      exact keeps_moved (sound.drop idle oks clean) (.drop sound idle oks clean) here
        (fun _ pend => pend) (fun _ pend => pend) ⟨ok.used, by simp⟩

include sound in
theorem keeps_unflag {shard : String} {rest : List String} (ok : PassOk server threads sh (.unflag shard rest))
    (here : threads[i]? = some (.evictor (.unflag shard rest))) :
    PassKeeps server now threads sh i (.unflag shard rest) := by
  have own : ∀ sh', PassOk server (threads.set i (.evictor (nextShard rest))) sh' (nextShard rest) :=
    fun sh' => .next fun s mem => ok.used s (List.mem_cons_of_mem _ mem)
  simp only [PassKeeps, evict, Shared.unflag]
  cases found : sh.shards.get shard with
  | none => exact keeps_still sound here (fun _ pend => pend) (fun _ pend => pend) (own _)
  | some meta_ =>
      refine keeps_catalogue sound here (ok.used shard (by simp [Pass.shards])) (fun m same n mem => ?_)
        (fun _ pend => pend) (fun _ pend => .inl pend) (own _)
      cases found.symm.trans same
      exact mem

include sound oks in
/-- Every section of an eviction pass. -/
theorem evict_keeps (here : threads[i]? = some (.evictor at_))
    (meets : clear server threads sh (.evictor at_) = true) : PassKeeps server now threads sh i at_ := by
  have ok : PassOk server threads sh at_ := oks i _ here
  cases at_ with
  | candidates =>
      refine keeps_still sound here (fun _ pend => pend) (fun _ pend => pend) (PassOk.next ?_)
      intro shard mem
      obtain ⟨meta_, found⟩ := OrderedMap.mem_keys.mp mem
      rw [OrderedMap.get_filter] at found
      exact sound.inPlay shard meta_ (Option.filter_eq_some_iff.mp found).1
  | test shard rest =>
      simp only [PassKeeps, evict]
      cases dirty : sh.dirty.contains shard with
      | true => exact keeps_still sound here (fun _ pend => pend) (fun _ pend => pend) ⟨ok.used, by simp⟩
      | false =>
          exact keeps_still sound here (fun _ pend => pend) (fun _ pend => pend)
            (PassOk.just ok.used ((sound.clean shard dirty).passed here))
  | save shard rest =>
      have used := ok.used shard (by simp [Pass.shards])
      exact keeps_moved (sound.save used meets) (.save sound used meets) here (fun _ pend => pend)
        (fun _ pend => pend) (PassOk.just ok.used ((saved_by_save sound used).passed here))
  | unmark shard rest looked =>
      have saved : sh.dirty.contains shard = false ∨ Saved server threads sh shard := by
        have either : sh.dirty.contains shard = false ∨ sh.marks.count shard = looked := by
          simpa [clear] using meets
        exact either.imp_right (ok.looked shard rest looked rfl).2
      exact keeps_moved (sound.unmark saved) (.same rfl rfl rfl rfl fun _ pend => pend) here
        (fun _ pend => pend) (fun _ pend => pend) ⟨ok.used, by simp [evict]⟩
  | drop shard rest => exact keeps_drop sound oks now ok here meets
  | unflag shard rest => exact keeps_unflag sound now ok here
  | done => exact keeps_still sound here (fun _ pend => pend) (fun _ pend => pend) ⟨ok.used, by simp [evict]⟩

end Passes

/-- A thread that starts disturbs nobody. -/
theorem keeps_start (sound : Sound server threads sh) (own : Ok server (threads ++ [t]) sh threads.length t) :
    Pool.Keeps (Sound server) (Ok server) threads.length threads sh (threads ++ [t]) sh t :=
  keeps_of_follows (sound.moved (fun _ => .append t) fun _ => .append t)
    (.same rfl rfl rfl rfl fun _ => .append t) own

end Turns

/-! ## Runs -/

/-- Where a run may start: what is in memory is listed, and is in a file unless its shard is
dirty; files hold their own shard's namespaces; and no write has been made yet. -/
structure Start (server : Server) (sh : Shared) : Prop where
  own : ∀ shard name f, server.names.used shard → (sh.fileOf server shard).get name = some f →
    shardOf name = shard
  inPlay : ∀ shard meta_, sh.shards.get shard = some meta_ → server.names.used shard
  listed : ∀ name, sh.Present server name → sh.Listed name
  clean : ∀ name b, sh.namespaces.get name = some b → sh.dirty.contains (shardOf name) = false →
    ∃ f, sh.sheet server name = some f
  books : ∀ name b, sh.namespaces.get name = some b → b.seen = []
  sheets : ∀ name f, sh.sheet server name = some f → f.seen = []
  written : ∀ name ∈ sh.written, sh.Present server name

theorem Start.sound {sh : Shared} (start : Start server sh) : Sound server [] sh where
  own := start.own
  inPlay := start.inPlay
  inMap name b found := by
    obtain ⟨meta_, listed, -⟩ := start.listed name (.inl ⟨b, found⟩)
    exact start.inPlay _ _ listed
  covers name b f _ filed t mem := by
    rw [start.sheets name f filed] at mem
    cases mem
  clean shard clean name b same found := by
    obtain ⟨f, filed⟩ := start.clean name b found (same ▸ clean)
    refine .inl ⟨f, filed, fun t mem => ?_⟩
    rw [start.books name b found] at mem
    cases mem
  listed name present := .inl (start.listed name present)
  written := start.written

theorem start_ok {p : Pool Shared Thread} {threads : List Thread} {sh : Shared} {i : Nat} {t : Thread}
    (allowed : Allowed server p (.start t)) : Ok server threads sh i t := by
  unfold Allowed at allowed
  split at allowed
  next name s same =>
    cases same
    exact AccessOk.writing allowed rfl (by simp [Point.handle]) (by simp [Point.recorded])
  next name same =>
    cases same
    exact AccessOk.waiting (by simp) (by simp [Point.pages]) (fun _ _ => rfl) rfl rfl (by simp) (by simp)
  next same =>
    cases same
    exact ⟨by simp [Pass.shards], by simp⟩
  next => cases allowed
  next same => cases same

/-- Every allowed move keeps the invariant. -/
theorem step_holds (p : Pool Shared Thread) (m : Move Int Thread)
    (holds : Pool.Holds (Sound server) (Ok server) p) (allowed : Allowed server p m) :
    Pool.Holds (Sound server) (Ok server) (p.step (program server) m) := by
  refine Pool.step_keeps (Allowed server) (fun p t holds allowed => ?_) (fun p i now t holds allowed here => ?_) p m
    holds allowed
  · exact keeps_start holds.shared (start_ok allowed)
  · have meets : clear server p.threads p.shared t = true := by
      simpa [Allowed, here] using allowed
    cases t with
    | access name goal at_ => exact access_keeps holds.shared holds.thread now here meets
    | evictor at_ => exact evict_keeps holds.shared holds.thread now here meets

/-- A sighting whose write has returned is in memory or in the file of its shard, and a read of
a namespace that had been written is never told that there is none. -/
theorem no_sighting_lost (server : Server) (sh : Shared) (start : Start server sh)
    (moves : List (Move Int Thread))
    (allowed : Pool.AllAllowed (program server) (Allowed server) ⟨sh, []⟩ moves) :
    let p := Pool.run (program server) ⟨sh, []⟩ moves
    (∀ i name s, p.threads[i]? = some (.access name (.write s) .done) →
      p.shared.Kept server name (i, s.value)) ∧
    ∀ (i : Nat) (name : String), p.threads[i]? ≠ some (Thread.access name (.read true) .missing) := by
  have begun : Pool.Holds (Sound server) (Ok server) ⟨sh, []⟩ := ⟨start.sound, by simp⟩
  have holds := Pool.run_keeps step_holds moves _ begun allowed
  refine ⟨fun i name s here => ?_, fun i name here => ?_⟩
  · have ok : AccessOk server _ i name (.write s) .done := holds.thread i _ here
    exact ok.recorded s rfl rfl
  · have ok : AccessOk server _ i name (.read true) .missing := holds.thread i _ here
    exact ok.answered rfl rfl

/-- A server whose shards may leave memory at once. -/
def coldServer : Server := ⟨.sample, "here", 0, ⟨.cold, ∅, 3600⟩⟩

def sighting (value : String) : Sighting := ⟨"here", value, .unixEpoch, none, ""⟩

/-- A thread, and the turns it takes by itself. -/
def turns (i n : Nat) : List (Move Int Thread) := List.replicate n (.go i 0)

/-- Nothing in memory and nothing on disk. -/
def Shared.empty : Shared := ⟨.empty, ∅, ∅, ∅, [], []⟩

theorem Shared.empty_start : Start coldServer .empty where
  own _ _ _ _ found := by cases found
  inPlay _ _ found := by cases found
  listed name present := by
    rcases present with ⟨b, found⟩ | ⟨f, found⟩ <;> cases found
  clean _ _ found := by cases found
  books _ _ found := by cases found
  sheets _ _ found := by cases found
  written _ mem := by cases mem

/-- What `coldServer` allows, decided. -/
def allowedCold (p : Pool Shared Thread) : Move Int Thread → Bool
  | .start (.access name (.write _) .touch) => shardOf name = "a"
  | .start (.access _ (.read false) .touch) => true
  | .start (.evictor .candidates) => true
  | .start _ => false
  | .go i _ => (p.threads[i]?).all (clear coldServer p.threads p.shared)

theorem allowed_of_allowedCold (p : Pool Shared Thread) (m : Move Int Thread)
    (ok : allowedCold p m = true) : Allowed coldServer p m := by
  unfold allowedCold at ok
  unfold Allowed
  split at ok
  · exact .inr (by simpa using ok)
  · trivial
  · trivial
  · cases ok
  · exact ok

/-- A write, an eviction and a read, one after the other. -/
def oneByOne : List (Move Int Thread) :=
  .start (.access "a/x" (.write (sighting "v")) .touch) :: turns 0 9 ++
    .start (.evictor .candidates) :: turns 1 6 ++ .start (.access "a/x" (.read false) .touch) :: turns 2 7

theorem no_sighting_lost_oneByOne :
    let p := Pool.run (program coldServer) ⟨.empty, []⟩ oneByOne
    p.threads[0]? = some (.access "a/x" (.write (sighting "v")) .done) ∧
      p.threads[2]? = some (.access "a/x" (.read true) .done) ∧
      p.shared.Kept coldServer "a/x" (0, "v") := by
  have allowed : Pool.AllAllowed (program coldServer) (Allowed coldServer) ⟨.empty, []⟩ oneByOne :=
    Pool.allAllowed_of_checks allowed_of_allowedCold oneByOne _ (by decide +kernel)
  have done : (Pool.run (program coldServer) ⟨.empty, []⟩ oneByOne).threads[0]? =
      some (.access "a/x" (.write (sighting "v")) .done) := by decide +kernel
  have kept := (no_sighting_lost coldServer .empty Shared.empty_start oneByOne allowed).1 0 "a/x" _ done
  exact ⟨done, by decide +kernel, kept⟩

/-- A first write returns and an eviction pass saves its shard. A second write records, marks
the shard and returns; then the pass takes that mark away and drops the shard. -/
def lateMark : List (Move Int Thread) :=
  .start (.access "a/x" (.write (sighting "v")) .touch) :: turns 0 9 ++
    .start (.evictor .candidates) :: turns 1 3 ++
    .start (.access "a/x" (.write (sighting "w")) .touch) :: turns 2 5 ++ turns 1 3

theorem late_mark_is_lost :
    let p := Pool.run (program coldServer) ⟨.empty, []⟩ lateMark
    p.threads[2]? = some (.access "a/x" (.write (sighting "w")) .done) ∧
      ¬ p.shared.Kept coldServer "a/x" (2, "w") := by
  refine ⟨by decide +kernel, ?_⟩
  have gone : (Pool.run (program coldServer) ⟨.empty, []⟩ lateMark).shared.namespaces.handle "a/x" = none := by
    decide +kernel
  have filed : ((Pool.run (program coldServer) ⟨.empty, []⟩ lateMark).shared.sheet coldServer "a/x").map
      (·.seen) = some [(0, "v")] := by
    decide +kernel
  rintro (⟨b, found, -⟩ | ⟨f, found, mem⟩)
  · rw [(Handles.get_eq_none _).mpr gone] at found
    cases found
  · rw [found, Option.map_some, Option.some.injEq] at filed
    simp [filed] at mem

end SightingDB.Eviction
