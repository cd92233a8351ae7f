import SightingDB.EvictionSteps

/-!
What eviction and requests keep between them, section by section: `Sound` for what they share,
`Ok` for each thread where it stands, and `Follows` for what one turn leaves to the others.
-/
namespace SightingDB.Eviction

open Threads

namespace Shared

variable (server : Server) (sh : Shared)

/-- A namespace as the file of its shard has it. -/
def sheet (name : String) : Option Sheet := (sh.fileOf server (shardOf name)).get name

/-- A sighting is in memory, or in the file of its shard. -/
def Kept (name : String) (t : Token) : Prop :=
  (∃ b, sh.namespaces.get name = some b ∧ t ∈ b.seen) ∨ ∃ f, sh.sheet server name = some f ∧ t ∈ f.seen

def Present (name : String) : Prop :=
  (∃ b, sh.namespaces.get name = some b) ∨ ∃ f, sh.sheet server name = some f

def Listed (name : String) : Prop :=
  ∃ meta_, sh.shards.get (shardOf name) = some meta_ ∧ meta_.namespaces.contains name = true

/-- Everything in the file of a shard is in memory. -/
def inMemory (shard : String) : Bool :=
  (sh.fileOf server shard).keys.all fun name => (sh.namespaces.handle name).isSome

/-- Nothing in the file of a shard is in memory. -/
def outOfMemory (shard : String) : Bool :=
  (sh.fileOf server shard).keys.all fun name => (sh.namespaces.handle name).isNone

end Shared

/-! ## The invariant -/

/-- Points at which a write has its handle and has not marked its shard yet. -/
def Point.unmarked : Point → Bool
  | .enroll _ | .record _ | .mark _ => true
  | _ => false

def Point.enrolling : Point → Bool
  | .enroll _ => true
  | _ => false

def Thread.Unmarked (name : String) : Thread → Prop
  | .access n _ at_ => n = name ∧ at_.unmarked = true
  | .evictor _ => False

def Thread.Enrolling (name : String) : Thread → Prop
  | .access n _ at_ => n = name ∧ at_.enrolling = true
  | .evictor _ => False

variable (server : Server)

/-- Whatever a shard has in memory is in its file, or is about to be marked. -/
def Saved (threads : List Thread) (sh : Shared) (shard : String) : Prop :=
  ∀ name b, shardOf name = shard → sh.namespaces.get name = some b →
    (∃ f, sh.sheet server name = some f ∧ ∀ t ∈ b.seen, t ∈ f.seen) ∨
      Among (Thread.Unmarked name) threads

structure Sound (threads : List Thread) (sh : Shared) : Prop where
  own : ∀ shard name f, server.names.used shard → (sh.fileOf server shard).get name = some f →
    shardOf name = shard
  inPlay : ∀ shard meta_, sh.shards.get shard = some meta_ → server.names.used shard
  inMap : ∀ name b, sh.namespaces.get name = some b → server.names.used (shardOf name)
  covers : ∀ name b f, sh.namespaces.get name = some b → sh.sheet server name = some f →
    ∀ t ∈ f.seen, t ∈ b.seen
  clean : ∀ shard, sh.dirty.contains shard = false → Saved server threads sh shard
  listed : ∀ name, sh.Present server name → sh.Listed name ∨ Among (Thread.Enrolling name) threads
  written : ∀ name ∈ sh.written, sh.Present server name

/-- Points only a write gets to. -/
def Point.extends : Point → Bool
  | .load extending | .flag extending _ => extending
  | .evicted | .create | .enroll _ | .record _ | .mark _ => true
  | _ => false

/-- Points from which a lookup may still succeed. -/
def Point.waits : Point → Bool
  | .catalogue | .load _ | .flag _ _ | .lookupAgain => true
  | _ => false

/-- Points inside `page_in`. -/
def Point.pages : Point → Bool
  | .load _ | .flag _ _ => true
  | _ => false

def Point.recorded : Point → Bool
  | .mark _ | .release _ | .done => true
  | _ => false

structure AccessOk (sh : Shared) (i : Nat) (name : String) (goal : Goal) (at_ : Point) : Prop where
  used : ∀ s, goal = .write s → server.names.used (shardOf name)
  pages : at_.pages = true → server.names.used (shardOf name)
  reads : ∀ e, goal = .read e → at_.extends = false
  held : ∀ id, at_.handle = some id → sh.namespaces.handle name = some id
  recorded : ∀ s, goal = .write s → at_.recorded = true → sh.Kept server name (i, s.value)
  waits : goal = .read true → at_.waits = true → (∃ f, sh.sheet server name = some f) ∧ sh.Listed name
  answered : goal = .read true → at_ ≠ .missing

def Pass.shards : Pass → List String
  | .candidates | .done => []
  | .test shard rest | .save shard rest | .unmark shard rest _ | .drop shard rest
  | .unflag shard rest => shard :: rest

structure PassOk (threads : List Thread) (sh : Shared) (at_ : Pass) : Prop where
  used : ∀ shard ∈ at_.shards, server.names.used shard
  looked : ∀ shard rest looked, at_ = .unmark shard rest looked →
    looked ≤ sh.marks.count shard ∧ (sh.marks.count shard = looked → Saved server threads sh shard)

def Ok (threads : List Thread) (sh : Shared) (i : Nat) : Thread → Prop
  | .access name goal at_ => AccessOk server sh i name goal at_
  | .evictor at_ => PassOk server threads sh at_

/-- What a turn leaves for the other threads to rely on. -/
structure Follows (threads : List Thread) (sh : Shared) (threads' : List Thread) (sh' : Shared) :
    Prop where
  kept : ∀ name t, sh.Kept server name t → sh'.Kept server name t
  filed : ∀ name f, sh.sheet server name = some f → ∃ f', sh'.sheet server name = some f'
  listed : ∀ name, sh.Listed name → sh'.Listed name
  held : ∀ name id, Among (fun t => t.handle = some id) threads →
    sh.namespaces.handle name = some id → sh'.namespaces.handle name = some id
  marks : ∀ shard, sh.marks.count shard ≤ sh'.marks.count shard
  saved : ∀ shard, server.names.used shard → sh'.marks.count shard = sh.marks.count shard →
    Saved server threads sh shard → Saved server threads' sh' shard

variable {server}

/-- The assertion of a thread that did not move. -/
theorem Ok.follows {threads threads' : List Thread} {sh sh' : Shared} {j : Nat} {u : Thread}
    (follows : Follows server threads sh threads' sh') (here : threads[j]? = some u)
    (ok : Ok server threads sh j u) : Ok server threads' sh' j u := by
  cases u with
  | access name goal at_ =>
      refine ⟨ok.used, ok.pages, ok.reads, fun id holds => ?_, fun s writes recorded => ?_,
        fun reads waits => ?_, ok.answered⟩
      · exact follows.held name id (.of_get here holds) (ok.held id holds)
      · exact follows.kept name _ (ok.recorded s writes recorded)
      · obtain ⟨⟨f, filed⟩, listed⟩ := ok.waits reads waits
        exact ⟨follows.filed name f filed, follows.listed name listed⟩
  | evictor at_ =>
      refine ⟨ok.used, fun shard rest looked unmark => ?_⟩
      obtain ⟨before, saved⟩ := ok.looked shard rest looked unmark
      have grown := follows.marks shard
      refine ⟨by omega, fun same => ?_⟩
      apply follows.saved shard _ (by omega) (saved (by omega))
      exact ok.used shard (by simp [unmark, Pass.shards])

/-- A turn keeps everything when the next thread finds its own assertion. -/
theorem keeps_of_follows {threads threads' : List Thread} {sh sh' : Shared} {i : Nat} {t' : Thread}
    (sound : Sound server threads' sh') (follows : Follows server threads sh threads' sh')
    (own : Ok server threads' sh' i t') :
    Pool.Keeps (Sound server) (Ok server) i threads sh threads' sh' t' where
  all := sound
  own := own
  others _ _ _ here ok := ok.follows follows here

/-! ## One section at a time -/

section Sections

variable {threads threads' : List Thread} {sh : Shared} (sound : Sound server threads sh)

theorem sheet_of_file {shard name : String} {f : Sheet} (sound : Sound server threads sh)
    (used : server.names.used shard) (filed : (sh.fileOf server shard).get name = some f) :
    shardOf name = shard ∧ sh.sheet server name = some f := by
  have same := sound.own shard name f used filed
  refine ⟨same, ?_⟩
  rw [Shared.sheet, same]
  exact filed

theorem get_of_inMemory {shard name : String} {f : Sheet} (all : sh.inMemory server shard = true)
    (filed : (sh.fileOf server shard).get name = some f) : ∃ b, sh.namespaces.get name = some b := by
  have mem : name ∈ (sh.fileOf server shard).keys := OrderedMap.mem_keys.mpr ⟨f, filed⟩
  have handle := List.all_eq_true.mp all name mem
  rw [← Handles.get_isSome] at handle
  exact Option.isSome_iff_exists.mp handle

theorem get_of_outOfMemory {shard name : String} {f : Sheet} (none_ : sh.outOfMemory server shard = true)
    (filed : (sh.fileOf server shard).get name = some f) : sh.namespaces.get name = none := by
  have mem : name ∈ (sh.fileOf server shard).keys := OrderedMap.mem_keys.mpr ⟨f, filed⟩
  have handle := List.all_eq_true.mp none_ name mem
  exact (Handles.get_eq_none _).mpr (Option.isNone_iff_eq_none.mp handle)

/-! ### The catalogue -/

section Catalogue

variable {x : OrderedMap String ShardMeta}

include sound in
theorem Sound.reshard
    (pend : ∀ name, Among (Thread.Unmarked name) threads → Among (Thread.Unmarked name) threads')
    (known : ∀ shard meta_, x.get shard = some meta_ → server.names.used shard)
    (listed : ∀ name, sh.Listed name ∨ Among (Thread.Enrolling name) threads →
      ({ sh with shards := x } : Shared).Listed name ∨ Among (Thread.Enrolling name) threads') :
    Sound server threads' { sh with shards := x } where
  own := sound.own
  inPlay := known
  inMap := sound.inMap
  covers := sound.covers
  clean shard clean name b same found := (sound.clean shard clean name b same found).imp_right (pend name)
  listed name present := listed name (sound.listed name present)
  written := sound.written

theorem Follows.reshard
    (pend : ∀ name, Among (Thread.Unmarked name) threads → Among (Thread.Unmarked name) threads')
    (listed : ∀ name, sh.Listed name → ({ sh with shards := x } : Shared).Listed name) :
    Follows server threads sh threads' { sh with shards := x } where
  kept _ _ kept := kept
  filed _ f filed := ⟨f, filed⟩
  listed := listed
  held _ _ _ found := found
  marks _ := le_rfl
  saved _ _ _ saved name b same found := (saved name b same found).imp_right (pend name)

end Catalogue

/-! ### The map section of `page_in` -/

theorem get_load (shard name : String) : (sh.load server shard).namespaces.get name =
    (((sh.fileOf server shard).get name).map fun f => f.load server.node).or (sh.namespaces.get name) := by
  unfold Shared.load
  rw [Handles.get_addAll _ _ (OrderedMap.keys_nodup _)]
  change (OrderedMap.get _ name).or _ = _
  rw [OrderedMap.get_mapValues]

theorem get_load_of_filed {shard name : String} {f : Sheet}
    (filed : (sh.fileOf server shard).get name = some f) :
    (sh.load server shard).namespaces.get name = some (f.load server.node) := by
  rw [get_load, filed]
  rfl

theorem get_load_of_not_filed {shard name : String} (out : (sh.fileOf server shard).get name = none) :
    (sh.load server shard).namespaces.get name = sh.namespaces.get name := by
  rw [get_load, out]
  rfl

/-- What was in memory still is, and is not in the file. -/
theorem load_keeps {shard name : String} {b : Book} (out : sh.outOfMemory server shard = true)
    (found : sh.namespaces.get name = some b) : (sh.load server shard).namespaces.get name = some b := by
  cases filed : (sh.fileOf server shard).get name with
  | none => rw [get_load_of_not_filed filed, found]
  | some f =>
      rw [get_of_outOfMemory out filed] at found
      cases found

theorem handle_load {shard name : String} {id : Nat} (out : sh.outOfMemory server shard = true)
    (found : sh.namespaces.handle name = some id) :
    (sh.load server shard).namespaces.handle name = some id := by
  unfold Shared.load
  rw [Handles.handle_addAll_of_not_mem, found]
  intro mem
  obtain ⟨b, filed⟩ := OrderedMap.mem_keys.mp mem
  rw [OrderedMap.get_mapValues] at filed
  obtain ⟨f, filed, -⟩ := Option.map_eq_some_iff.mp filed
  have absent := (Handles.get_eq_none _).mp (get_of_outOfMemory out filed)
  rw [absent] at found
  cases found

theorem Saved.load {s shard : String} (saved : Saved server threads sh s)
    (sound : Sound server threads sh) (used : server.names.used shard) :
    Saved server threads (sh.load server shard) s := by
  intro name b same found
  cases here : (sh.fileOf server shard).get name with
  | none => exact saved name b same (get_load_of_not_filed here ▸ found)
  | some f =>
      rw [get_load_of_filed here] at found
      cases found
      exact .inl ⟨f, (sheet_of_file sound used here).2, fun t mem => mem⟩

include sound in
theorem Sound.load {shard : String} (used : server.names.used shard) :
    Sound server threads (sh.load server shard) where
  own := sound.own
  inPlay := sound.inPlay
  inMap name b found := by
    cases filed : (sh.fileOf server shard).get name with
    | none => exact sound.inMap name b (get_load_of_not_filed filed ▸ found)
    | some f =>
        rw [(sheet_of_file sound used filed).1]
        exact used
  covers name b f found filed := by
    cases here : (sh.fileOf server shard).get name with
    | none => exact sound.covers name b f (get_load_of_not_filed here ▸ found) filed
    | some f' =>
        rw [get_load_of_filed here] at found
        have same := (sheet_of_file sound used here).2.symm.trans filed
        cases found
        cases same
        exact fun t mem => mem
  clean s clean := (sound.clean s clean).load sound used
  listed name present := by
    apply sound.listed name
    rcases present with ⟨b, found⟩ | filed
    · cases here : (sh.fileOf server shard).get name with
      | none => exact .inl ⟨b, get_load_of_not_filed here ▸ found⟩
      | some f => exact .inr ⟨f, (sheet_of_file sound used here).2⟩
    · exact .inr filed
  written name mem := by
    rcases sound.written name mem with ⟨b, found⟩ | filed
    · cases here : (sh.fileOf server shard).get name with
      | none => exact .inl ⟨b, (get_load_of_not_filed here).trans found⟩
      | some f => exact .inr ⟨f, (sheet_of_file sound used here).2⟩
    · exact .inr filed

include sound in
theorem Follows.load {shard : String} (used : server.names.used shard)
    (out : sh.outOfMemory server shard = true) :
    Follows server threads sh threads (sh.load server shard) where
  kept _ _ kept := kept.imp_left fun ⟨b, found, mem⟩ => ⟨b, load_keeps out found, mem⟩
  filed _ f filed := ⟨f, filed⟩
  listed _ listed := listed
  held _ _ _ found := handle_load out found
  marks _ := le_rfl
  saved _ _ _ saved := saved.load sound used

/-! ### Registering a namespace -/

theorem create_eq {name : String} (absent : sh.namespaces.handle name = none) :
    (sh.create name).1 = { sh with namespaces := sh.namespaces.add name .blank } := by
  unfold Shared.create
  rw [absent]

theorem handle_create (name : String) :
    (sh.create name).1.namespaces.handle name = some (sh.create name).2 := by
  unfold Shared.create
  cases found : sh.namespaces.handle name with
  | none => simp [Handles.handle_add]
  | some id => exact found

section Create

variable {name : String} (absent : sh.namespaces.handle name = none)
  (pend : Among (Thread.Unmarked name) threads') (enrolling : Among (Thread.Enrolling name) threads')
  (pends : ∀ n, Among (Thread.Unmarked n) threads → Among (Thread.Unmarked n) threads')
  (enrolls : ∀ n, Among (Thread.Enrolling n) threads → Among (Thread.Enrolling n) threads')

include pend pends in
theorem Saved.create {s : String} (saved : Saved server threads sh s) :
    Saved server threads' { sh with namespaces := sh.namespaces.add name .blank } s := by
  intro n b same found
  simp only [Handles.get_add] at found
  split at found
  next here => exact .inr (here ▸ pend)
  next => exact (saved n b same found).imp_right (pends n)

include sound absent pend enrolling pends enrolls in
theorem Sound.create (used : server.names.used (shardOf name))
    (all : sh.inMemory server (shardOf name) = true) :
    Sound server threads' { sh with namespaces := sh.namespaces.add name .blank } where
  own := sound.own
  inPlay := sound.inPlay
  inMap n b found := by
    simp only [Handles.get_add] at found
    split at found
    next here => exact here ▸ used
    next => exact sound.inMap n b found
  covers n b f found filed := by
    simp only [Handles.get_add] at found
    split at found
    next here =>
      -- The rest of the shard is in memory, so a file that had this one would make it found.
      subst here
      obtain ⟨b', found'⟩ := get_of_inMemory all filed
      rw [(Handles.get_eq_none _).mpr absent] at found'
      cases found'
    next => exact sound.covers n b f found filed
  clean s clean := (sound.clean s clean).create pend pends
  listed n present := by
    by_cases here : n = name
    · exact .inr (here ▸ enrolling)
    · refine (sound.listed n ?_).imp_right (enrolls n)
      refine present.imp_left fun ⟨b, found⟩ => ⟨b, ?_⟩
      simpa only [Handles.get_add, if_neg here] using found
  written n mem := by
    refine (sound.written n mem).imp_left fun ⟨b, found⟩ => ?_
    simp only [Handles.get_add]
    split
    · exact ⟨.blank, rfl⟩
    · exact ⟨b, found⟩

include absent pend pends in
theorem Follows.create :
    Follows server threads sh threads' { sh with namespaces := sh.namespaces.add name .blank } where
  kept n t kept := by
    refine kept.imp_left fun ⟨b, found, mem⟩ => ⟨b, ?_, mem⟩
    have other : n ≠ name := by
      rintro rfl
      rw [(Handles.get_eq_none _).mpr absent] at found
      cases found
    simp only [Handles.get_add, if_neg other, found]
  filed _ f filed := ⟨f, filed⟩
  listed _ listed := listed
  held n id _ found := by
    have other : n ≠ name := by
      rintro rfl
      rw [absent] at found
      cases found
    simp only [Handles.handle_add, if_neg other, found]
  marks _ := le_rfl
  saved _ _ _ saved := saved.create pend pends

end Create

/-! ### Recording a value -/

section Record

variable {name : String} {cell thread : Nat} {s : Sighting}
  (held : sh.namespaces.handle name = some cell)

include held in
theorem get_record (n : String) : (sh.record server cell thread s).namespaces.get n =
    if n = name then (sh.namespaces.get n).map (·.record thread s server.statsRetention)
    else sh.namespaces.get n := by
  unfold Shared.record
  simp only [Handles.get_modify]
  have iff : sh.namespaces.handle n = some cell ↔ n = name := by
    refine ⟨fun found => sh.namespaces.apart n name cell found held, ?_⟩
    rintro rfl
    exact held
  simp only [iff]

include held in
/-- A sighting is added to one namespace, and nothing is taken from any. -/
theorem record_grows (server : Server) (thread : Nat) (s : Sighting) {n : String} {b : Book}
    (found : sh.namespaces.get n = some b) : ∃ b',
      (sh.record server cell thread s).namespaces.get n = some b' ∧ (∀ t ∈ b.seen, t ∈ b'.seen) ∧
      (n ≠ name → b' = b) := by
  rw [get_record held, found]
  by_cases here : n = name
  · exact ⟨_, by rw [if_pos here]; rfl, fun t mem => List.mem_append_left _ mem,
      fun other => absurd here other⟩
  · exact ⟨b, by rw [if_neg here], fun t mem => mem, fun _ => rfl⟩

include held in
theorem record_only {n : String} {b' : Book}
    (found : (sh.record server cell thread s).namespaces.get n = some b') :
    ∃ b, sh.namespaces.get n = some b := by
  rw [get_record held] at found
  cases old : sh.namespaces.get n with
  | none => simp [old] at found
  | some b => exact ⟨b, rfl⟩

include held in
theorem record_kept : (sh.record server cell thread s).Kept server name (thread, s.value) := by
  obtain ⟨b, found⟩ := sh.namespaces.exists_get held
  refine .inl ⟨b.record thread s server.statsRetention, ?_, ?_⟩
  · rw [get_record held, if_pos rfl, found]
    rfl
  · exact List.mem_append_right _ (by simp)

variable (pend : Among (Thread.Unmarked name) threads')
  (pends : ∀ n, Among (Thread.Unmarked n) threads → Among (Thread.Unmarked n) threads')
  (enrolls : ∀ n, Among (Thread.Enrolling n) threads → Among (Thread.Enrolling n) threads')

include held pend pends in
theorem Saved.record {shard : String} (saved : Saved server threads sh shard) :
    Saved server threads' (sh.record server cell thread s) shard := by
  intro n b' same found
  by_cases here : n = name
  · exact .inr (here ▸ pend)
  · rw [get_record held, if_neg here] at found
    exact (saved n b' same found).imp_right (pends n)

include sound held pend pends enrolls in
theorem Sound.record : Sound server threads' (sh.record server cell thread s) where
  own := sound.own
  inPlay := sound.inPlay
  inMap n b' found := by
    obtain ⟨b, old⟩ := record_only held found
    exact sound.inMap n b old
  covers n b' f found filed t mem := by
    obtain ⟨b, old⟩ := record_only held found
    obtain ⟨b'', found', grown, -⟩ := record_grows held server thread s old
    cases found.symm.trans found'
    exact grown t (sound.covers n b f old filed t mem)
  clean shard clean := (sound.clean shard clean).record held pend pends
  listed n present := by
    refine (sound.listed n ?_).imp_right (enrolls n)
    exact present.imp_left fun ⟨b', found⟩ => record_only held found
  written n mem := by
    refine (sound.written n mem).imp_left fun ⟨b, found⟩ => ?_
    obtain ⟨b', found', -⟩ := record_grows held server thread s found
    exact ⟨b', found'⟩

include held pend pends in
theorem Follows.record : Follows server threads sh threads' (sh.record server cell thread s) where
  kept n t kept := by
    refine kept.imp_left fun ⟨b, found, mem⟩ => ?_
    obtain ⟨b', found', grown, -⟩ := record_grows held server thread s found
    exact ⟨b', found', grown t mem⟩
  filed _ f filed := ⟨f, filed⟩
  listed _ listed := listed
  held _ _ _ found := found
  marks _ := le_rfl
  saved _ _ _ saved := saved.record held pend pends

end Record

/-! ### Marks -/

section Marks

variable {shard : String}

include sound in
/-- The marked shard has nothing to say for a while; the others are as they were. -/
theorem Sound.markDirty
    (pends : ∀ n, shardOf n ≠ shard →
      Among (Thread.Unmarked n) threads → Among (Thread.Unmarked n) threads')
    (enrolls : ∀ n, Among (Thread.Enrolling n) threads → Among (Thread.Enrolling n) threads') :
    Sound server threads' (sh.markDirty shard) where
  own := sound.own
  inPlay := sound.inPlay
  inMap := sound.inMap
  covers := sound.covers
  clean s clean := by
    have other : s ≠ shard := by
      rintro rfl
      simp [Shared.markDirty, OrderedMap.contains] at clean
    have before : sh.dirty.contains s = false := by
      simpa [Shared.markDirty, OrderedMap.contains, OrderedMap.get_insert, other] using clean
    intro n b same found
    exact (sound.clean s before n b same found).imp_right (pends n (same ▸ other))
  listed n present := (sound.listed n present).imp_right (enrolls n)
  written := sound.written

theorem Follows.markDirty
    (pends : ∀ n, shardOf n ≠ shard →
      Among (Thread.Unmarked n) threads → Among (Thread.Unmarked n) threads') :
    Follows server threads sh threads' (sh.markDirty shard) where
  kept _ _ kept := kept
  filed _ f filed := ⟨f, filed⟩
  listed _ listed := listed
  held _ _ _ found := found
  marks s := List.count_le_count_cons
  saved s _ same saved n b here found := by
    have other : s ≠ shard := by
      rintro rfl
      simp [Shared.markDirty] at same
    exact (saved n b here found).imp_right (pends n (here ▸ other))

include sound in
theorem Sound.unmark (saved : sh.dirty.contains shard = false ∨ Saved server threads sh shard) :
    Sound server threads (sh.unmark shard) where
  own := sound.own
  inPlay := sound.inPlay
  inMap := sound.inMap
  covers := sound.covers
  clean s clean := by
    by_cases here : s = shard
    · subst here
      exact saved.elim (sound.clean s) fun saved => saved
    · apply sound.clean s
      simpa [Shared.unmark, OrderedMap.contains, OrderedMap.get_erase, here] using clean
  listed := sound.listed
  written := sound.written

/-- Every field another thread relies on is as before. -/
theorem Follows.same {sh' : Shared} (namespaces : sh'.namespaces = sh.namespaces)
    (files : sh'.files = sh.files) (shards : sh'.shards = sh.shards) (marks : sh'.marks = sh.marks)
    (pends : ∀ n, Among (Thread.Unmarked n) threads → Among (Thread.Unmarked n) threads') :
    Follows server threads sh threads' sh' := by
  have sheets : ∀ name, sh'.sheet server name = sh.sheet server name := by
    intro name
    simp only [Shared.sheet, Shared.fileOf, files]
  refine ⟨fun name t kept => ?_, fun name f filed => ⟨f, ?_⟩, fun name listed => ?_,
    fun name id _ found => ?_, fun shard => ?_, fun shard _ _ saved name b same found => ?_⟩
  · simpa only [Shared.Kept, namespaces, sheets] using kept
  · rw [sheets, filed]
  · simpa only [Shared.Listed, shards] using listed
  · rw [namespaces, found]
  · rw [marks]
  · rw [namespaces] at found
    rw [sheets]
    exact (saved name b same found).imp_right (pends name)

include sound in
theorem Sound.return_ {name : String} {b : Book} (found : sh.namespaces.get name = some b)
    (pends : ∀ n, Among (Thread.Unmarked n) threads → Among (Thread.Unmarked n) threads')
    (enrolls : ∀ n, Among (Thread.Enrolling n) threads → Among (Thread.Enrolling n) threads') :
    Sound server threads' (sh.return_ name) where
  own := sound.own
  inPlay := sound.inPlay
  inMap := sound.inMap
  covers := sound.covers
  clean s clean n b same found := (sound.clean s clean n b same found).imp_right (pends n)
  listed n present := (sound.listed n present).imp_right (enrolls n)
  written n mem := by
    rcases List.mem_cons.mp mem with rfl | old
    · exact .inl ⟨b, found⟩
    · exact sound.written n old

end Marks

/-! ### Writing a shard out -/

section Save

variable {shard : String} (used : server.names.used shard)

theorem fileOf_save_self : (sh.save server shard).fileOf server shard =
    (sh.namespaces.objects.filter fun name _ => shardOf name = shard).mapValues fun _ b => b.save := by
  simp [Shared.save, Shared.fileOf]

theorem fileOf_save_of_ne {s : String} (other : server.names.file s ≠ server.names.file shard) :
    (sh.save server shard).fileOf server s = sh.fileOf server s := by
  simp [Shared.save, Shared.fileOf, OrderedMap.get_insert_of_ne _ _ other]

theorem get_fileOf_save_self (name : String) : ((sh.save server shard).fileOf server shard).get name =
    if shardOf name = shard then (sh.namespaces.get name).map Book.save else none := by
  rw [fileOf_save_self, OrderedMap.get_mapValues, OrderedMap.get_filter, Handles.get_objects]
  by_cases here : shardOf name = shard
  · cases sh.namespaces.get name <;> simp [here]
  · simp [here]

include sound used in
theorem sheet_save (name : String) : (sh.save server shard).sheet server name =
    if shardOf name = shard then (sh.namespaces.get name).map Book.save else sh.sheet server name := by
  unfold Shared.sheet
  by_cases here : shardOf name = shard
  · rw [here, get_fileOf_save_self, if_pos here, if_pos rfl]
  · rw [if_neg here]
    by_cases file : server.names.file (shardOf name) = server.names.file shard
    · -- A file shared with a shard out of play never held anything of that shard.
      have old : sh.fileOf server (shardOf name) = sh.fileOf server shard := by
        simp only [Shared.fileOf, file]
      have new : (sh.save server shard).fileOf server (shardOf name) =
          (sh.save server shard).fileOf server shard := by
        simp only [Shared.fileOf, file]
      rw [new, get_fileOf_save_self, if_neg here, old]
      cases filed : (sh.fileOf server shard).get name with
      | none => rfl
      | some f => exact absurd (sound.own shard name f used filed) here
    · rw [fileOf_save_of_ne file]

include sound used in
/-- With the whole shard in memory, whatever a file held it still holds. -/
theorem save_covers {name : String} {f : Sheet} (all : sh.inMemory server shard = true)
    (filed : sh.sheet server name = some f) :
    ∃ f', (sh.save server shard).sheet server name = some f' ∧ ∀ t ∈ f.seen, t ∈ f'.seen := by
  rw [sheet_save sound used]
  by_cases here : shardOf name = shard
  · have inFile : (sh.fileOf server shard).get name = some f := by
      rw [← here]
      exact filed
    obtain ⟨b, found⟩ := get_of_inMemory all inFile
    refine ⟨b.save, ?_, sound.covers name b f found filed⟩
    rw [if_pos here, found]
    rfl
  · exact ⟨f, by rw [if_neg here, filed], fun t mem => mem⟩

include sound used in
theorem saved_by_save : Saved server threads (sh.save server shard) shard := by
  intro name b here found
  refine .inl ⟨b.save, ?_, fun t mem => mem⟩
  rw [sheet_save sound used, if_pos here, show sh.namespaces.get name = some b from found]
  rfl

include sound used in
theorem Saved.save {s : String} (saved : Saved server threads sh s) :
    Saved server threads (sh.save server shard) s := by
  by_cases here : s = shard
  · subst here
    exact saved_by_save sound used
  · intro name b same found
    rw [sheet_save sound used, if_neg (same ▸ here)]
    exact saved name b same found

include sound used in
theorem Sound.save (all : sh.inMemory server shard = true) :
    Sound server threads (sh.save server shard) where
  own s name f used' filed := by
    by_cases here : s = shard
    · subst here
      rw [get_fileOf_save_self] at filed
      split at filed
      · assumption
      · cases filed
    · have file : server.names.file s ≠ server.names.file shard :=
        fun same => here (server.names.apart s shard used' used same)
      rw [fileOf_save_of_ne file] at filed
      exact sound.own s name f used' filed
  inPlay := sound.inPlay
  inMap := sound.inMap
  covers name b f found filed t mem := by
    rw [sheet_save sound used] at filed
    split at filed
    · obtain ⟨b', found', rfl⟩ := Option.map_eq_some_iff.mp filed
      cases found'.symm.trans found
      exact mem
    · exact sound.covers name b f found filed t mem
  clean s clean := (sound.clean s clean).save sound used
  listed name present := by
    apply sound.listed name
    rcases present with inMap | ⟨f, filed⟩
    · exact .inl inMap
    · rw [sheet_save sound used] at filed
      split at filed
      · obtain ⟨b, found, -⟩ := Option.map_eq_some_iff.mp filed
        exact .inl ⟨b, found⟩
      · exact .inr ⟨f, filed⟩
  written name mem := by
    rcases sound.written name mem with inMap | ⟨f, filed⟩
    · exact .inl inMap
    · obtain ⟨f', filed', -⟩ := save_covers sound used all filed
      exact .inr ⟨f', filed'⟩

include sound used in
theorem Follows.save (all : sh.inMemory server shard = true) :
    Follows server threads sh threads (sh.save server shard) where
  kept name t kept := by
    refine kept.imp_right fun ⟨f, filed, mem⟩ => ?_
    obtain ⟨f', filed', grown⟩ := save_covers sound used all filed
    exact ⟨f', filed', grown t mem⟩
  filed name f filed := by
    obtain ⟨f', filed', -⟩ := save_covers sound used all filed
    exact ⟨f', filed'⟩
  listed _ listed := listed
  held _ _ _ found := found
  marks _ := le_rfl
  saved _ _ _ saved := saved.save sound used

end Save

/-! ### Dropping a shard -/

section Drop

variable {shard : String} (idle : busy threads sh shard = false)

theorem get_drop (name : String) : (sh.drop shard).namespaces.get name =
    if shardOf name = shard then none else sh.namespaces.get name := by
  unfold Shared.drop
  rw [Handles.get_filter]
  by_cases here : shardOf name = shard <;> simp [here]

theorem drop_only {name : String} {b : Book} (found : (sh.drop shard).namespaces.get name = some b) :
    shardOf name ≠ shard ∧ sh.namespaces.get name = some b := by
  rw [get_drop] at found
  split at found
  · cases found
  · exact ⟨by assumption, found⟩

include idle in
/-- Nobody who still has to mark a namespace of the shard, or to let go of one, has a handle. -/
theorem not_held {name : String} {id : Nat} (here : shardOf name = shard)
    (found : sh.namespaces.handle name = some id) : ¬ Among (fun t => t.handle = some id) threads := by
  rintro ⟨t, mem, holds⟩
  have entry : (name, id) ∈ sh.namespaces.map.entries := OrderedMap.mem_entries.mpr found
  have someone : busy threads sh shard = true := by
    unfold busy
    refine List.any_eq_true.mpr ⟨(name, id), entry, ?_⟩
    simp only [here, decide_true, Bool.true_and]
    exact List.any_eq_true.mpr ⟨t, mem, by simpa using holds⟩
  rw [idle] at someone
  cases someone

/-- Every thread that has still to mark holds a handle. -/
theorem Thread.Unmarked.handle {name : String} {i : Nat} {t : Thread} (pend : t.Unmarked name)
    (ok : Ok server threads sh i t) :
    ∃ id, t.handle = some id ∧ sh.namespaces.handle name = some id := by
  cases t with
  | evictor at_ => cases pend
  | access n goal at_ =>
      obtain ⟨rfl, unmarked⟩ := pend
      cases at_ with
      | enroll id | record id | mark id => exact ⟨id, rfl, ok.held id rfl⟩
      | _ => cases unmarked

variable (oks : ∀ i t, threads[i]? = some t → Ok server threads sh i t)

include idle oks in
theorem not_unmarked {name : String} (here : shardOf name = shard) :
    ¬ Among (Thread.Unmarked name) threads := by
  rintro ⟨t, mem, pend⟩
  obtain ⟨i, at_⟩ := List.mem_iff_getElem?.mp mem
  obtain ⟨id, holds, handle⟩ := pend.handle (oks i t at_)
  exact not_held idle here handle ⟨t, mem, holds⟩

include sound idle oks in
/-- What a drop takes out of memory is in the file. -/
theorem drop_filed (clean : sh.dirty.contains shard = false) {name : String} {b : Book}
    (here : shardOf name = shard) (found : sh.namespaces.get name = some b) :
    ∃ f, sh.sheet server name = some f ∧ ∀ t ∈ b.seen, t ∈ f.seen :=
  (sound.clean shard clean name b here found).resolve_right (not_unmarked idle oks here)

include sound idle oks in
theorem Sound.drop (clean : sh.dirty.contains shard = false) : Sound server threads (sh.drop shard) where
  own := sound.own
  inPlay := sound.inPlay
  inMap name b found := sound.inMap name b (drop_only found).2
  covers name b f found filed := sound.covers name b f (drop_only found).2 filed
  clean s clean name b same found := sound.clean s clean name b same (drop_only found).2
  listed name present := by
    apply sound.listed name
    exact present.imp_left fun ⟨b, found⟩ => ⟨b, (drop_only found).2⟩
  written name mem := by
    rcases sound.written name mem with ⟨b, found⟩ | filed
    · by_cases here : shardOf name = shard
      · obtain ⟨f, filed, -⟩ := drop_filed sound idle oks clean here found
        exact .inr ⟨f, filed⟩
      · exact .inl ⟨b, by rw [get_drop, if_neg here, found]⟩
    · exact .inr filed

include sound idle oks in
theorem Follows.drop (clean : sh.dirty.contains shard = false) :
    Follows server threads sh threads (sh.drop shard) where
  kept name t kept := by
    rcases kept with ⟨b, found, mem⟩ | filed
    · by_cases here : shardOf name = shard
      · obtain ⟨f, filed, saved⟩ := drop_filed sound idle oks clean here found
        exact .inr ⟨f, filed, saved t mem⟩
      · exact .inl ⟨b, by rw [get_drop, if_neg here, found], mem⟩
    · exact .inr filed
  filed _ f filed := ⟨f, filed⟩
  listed _ listed := listed
  held name id holder found := by
    have other : shardOf name ≠ shard := fun here => not_held idle here found holder
    unfold Shared.drop
    simp [Handles.handle_filter, other, found]
  marks _ := le_rfl
  saved _ _ _ saved name b same found := saved name b same (drop_only found).2

end Drop

end Sections

end SightingDB.Eviction
