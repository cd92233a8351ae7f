import SightingDB.Durability

/-!
Saves that fail. The set of dirty shards is taken before anything is written, and the one
shard that could not be written is put back; what else was in the set and had not had its
turn is not. A save that stops with nothing else waiting is only postponed.
-/
namespace SightingDB

/-- What a save needs besides the shard files: the directory, and two small files beside
them. One of those that has nothing new to say is not written, and so cannot fail. -/
structure SideFiles where
  directory : Bool
  activity : Bool
  latest : Bool
  deriving DecidableEq

/-- Everything besides the shard files goes through. -/
def SideFiles.fine : SideFiles := ⟨true, true, true⟩

/-- `save` with every way it may stop early. -/
def saveAmid (db : Database) (w : World) (side : SideFiles) (all : Bool) (order : List String) :
    Database × Dir × Option SaveReport :=
  if !side.directory then (db, w.dir, none)
  else
    let present := presentShards db
    let dirty := db.dirty
    match saveShards w all dirty order ({ db with dirty := ∅ }, w.dir, ⟨0, 0⟩) with
    | (db, dir, none) => (db, dir, none)
    | (db, dir, some report) =>
        if !side.activity then (db, dir, none)
        else if !side.latest then (db, dir, none)
        else (db, dirty.keys.foldl (removeStale w present) dir, some report)

theorem saveAmid_fine (db : Database) (w : World) (all : Bool) (order : List String) :
    saveAmid db w .fine all order = save db w all order := rfl

/-- The shards a save sets out to write, in the order of its walk. -/
def toWrite (db : Database) (order : List String) : List String := order.filter db.dirty.contains

/-- Those it gets to write completely. -/
def writtenShards (db : Database) (w : World) (side : SideFiles) (order : List String) : List String :=
  if side.directory then (toWrite db order).takeWhile w.writable else []

/-- The files of some shards replaced, one after another. -/
def replaceFiles (db : Database) (w : World) (shards : List String) (dir : Dir) : Dir :=
  shards.foldl (fun dir shard =>
    { dir with files := dir.files.insert (w.names.file shard) (shardSnapshot db shard) }) dir

/-! ## Where a save stops -/

section Stops

variable {w : World} {dirty : Names} {db : Database}

/-- The walk writes up to the first shard that cannot be written. -/
theorem saveShards_stops (order : List String) (dir : Dir) (report : SaveReport) :
    ∃ report', saveShards w false dirty order (db, dir, report) =
      match (order.filter dirty.contains).dropWhile w.writable with
      | [] => (db, replaceFiles db w ((order.filter dirty.contains).takeWhile w.writable) dir, some report')
      | failed :: _ => (db.markShardDirty failed,
          replaceFiles db w ((order.filter dirty.contains).takeWhile w.writable) dir, none) := by
  induction order generalizing dir report with
  | nil => exact ⟨report, rfl⟩
  | cons shard rest ih =>
      by_cases marked : dirty.contains shard = true
      · by_cases good : w.writable shard = true
        · obtain ⟨report', walked⟩ := ih
            { dir with files := dir.files.insert (w.names.file shard) (shardSnapshot db shard) }
            { report with shardsWritten := report.shardsWritten + 1 }
          refine ⟨report', ?_⟩
          simpa [saveShards, marked, writeShard, good, replaceFiles] using walked
        · exact ⟨report, by simp [saveShards, marked, writeShard, good, replaceFiles]⟩
      · obtain ⟨report', walked⟩ := ih dir { report with shardsSkipped := report.shardsSkipped + 1 }
        refine ⟨report', ?_⟩
        simpa [saveShards, marked] using walked

/-- What a save that fails leaves: some files replaced, and at most one shard dirty. -/
theorem saveAmid_failed {side : SideFiles} {order : List String} (made : side.directory = true)
    (failed : (saveAmid db w side false order).2.2 = none) :
    (saveAmid db w side false order).2.1 = replaceFiles db w (writtenShards db w side order) w.dir ∧
      (saveAmid db w side false order).1 =
        { db with dirty := ((toWrite db order).dropWhile w.writable).head?.elim ∅ fun shard =>
          (∅ : Names).insert shard () } := by
  obtain ⟨report', walked⟩ := @saveShards_stops w db.dirty { db with dirty := ∅ } order w.dir ⟨0, 0⟩
  simp only [saveAmid, made, Bool.not_true, Bool.false_eq_true, if_false, walked, writtenShards, if_true,
    toWrite] at failed ⊢
  cases rest : (order.filter db.dirty.contains).dropWhile w.writable with
  | cons shard later => exact ⟨rfl, rfl⟩
  | nil =>
      rw [rest] at failed
      dsimp only at failed ⊢
      split_ifs at failed ⊢
      · exact ⟨rfl, rfl⟩
      · exact ⟨rfl, rfl⟩

theorem saveAmid_report {side : SideFiles} {order : List String} :
    (saveAmid db w side false order).2.2 = none ↔ side.directory = false ∨
      (∃ shard ∈ toWrite db order, w.writable shard = false) ∨ side.activity = false ∨ side.latest = false := by
  obtain ⟨report', walked⟩ := @saveShards_stops w db.dirty { db with dirty := ∅ } order w.dir ⟨0, 0⟩
  have stops : (∃ shard ∈ toWrite db order, w.writable shard = false) ↔
      (order.filter db.dirty.contains).dropWhile w.writable ≠ [] := by
    rw [ne_eq, List.dropWhile_eq_nil_iff, toWrite]
    simp [and_assoc]
  cases made : side.directory with
  | false => simp [saveAmid, made]
  | true =>
      rw [stops]
      simp only [saveAmid, made, Bool.not_true, Bool.false_eq_true, if_false, walked]
      cases rest : (order.filter db.dirty.contains).dropWhile w.writable with
      | cons shard later => simp
      | nil => cases side.activity <;> cases side.latest <;> simp

end Stops

/-! ## What is still marked -/

/-- Every shard that was dirty and has not been written is dirty still. -/
def Postpones (db : Database) (w : World) (side : SideFiles) (order : List String) : Prop :=
  (saveAmid db w side false order).2.2 = none → ∀ shard, db.dirty.contains shard = true →
    shard ∉ writtenShards db w side order → (saveAmid db w side false order).1.dirty.contains shard = true

/-- A save stops before it takes the marks, or not at all, or with nothing else left to do:
no file to remove, and no shard after the one it stops at. -/
def StopsLate (db : Database) (w : World) (side : SideFiles) (order : List String) : Prop :=
  side.directory = false ∨
    ((∀ shard ∈ toWrite db order, w.writable shard = true) ∧ side.activity = true ∧ side.latest = true) ∨
    ((∀ shard, db.dirty.contains shard = true → shard ∈ order) ∧
      ∀ shard ∈ (toWrite db order).dropLast, w.writable shard = true)

section Marks

variable {db : Database} {w : World} {side : SideFiles} {order : List String}

theorem mem_toWrite {shard : String} :
    shard ∈ toWrite db order ↔ shard ∈ order ∧ db.dirty.contains shard = true := by
  simp [toWrite]

/-- All but the last pass exactly when the first that does not is the last. -/
theorem dropLast_all_iff {p : String → Bool} {before after : List String} {stopped : String}
    (good : ∀ x ∈ before, p x = true) (bad : p stopped = false) :
    (∀ x ∈ (before ++ stopped :: after).dropLast, p x = true) ↔ after = [] := by
  cases after with
  | nil => simpa using good
  | cons next rest =>
      refine iff_of_false (fun all => ?_) (List.cons_ne_nil next rest)
      have passed := all stopped (by simp [List.dropLast_append_of_ne_nil])
      rw [bad] at passed
      cases passed

/-- All shards were written, and the save stopped at a file beside them. -/
theorem postpones_iff_beside (made : side.directory = true) (failed : (saveAmid db w side false order).2.2 = none)
    (all : ∀ shard ∈ toWrite db order, w.writable shard = true) :
    Postpones db w side order ↔ ∀ shard, db.dirty.contains shard = true → shard ∈ order := by
  obtain ⟨-, left⟩ := saveAmid_failed made failed
  have wrote : writtenShards db w side order = toWrite db order := by
    rw [writtenShards, if_pos made]
    exact List.takeWhile_eq_self_iff.mpr all
  simp only [Postpones, failed, forall_const, left, List.dropWhile_eq_nil_iff.mpr all, wrote, List.head?_nil,
    Option.elim_none]
  constructor
  · intro kept shard marked
    by_contra absent
    have := kept shard marked fun member => absent (mem_toWrite.mp member).1
    simp [OrderedMap.contains] at this
  · intro present shard marked missed
    exact absurd (mem_toWrite.mpr ⟨present shard marked, marked⟩) missed

/-- The save stopped at a shard: that one is dirty again, and no other. -/
theorem postpones_iff_stopped (apart : order.Nodup) (made : side.directory = true)
    (failed : (saveAmid db w side false order).2.2 = none) {stopped : String} {later : List String}
    (rest : (toWrite db order).dropWhile w.writable = stopped :: later) :
    Postpones db w side order ↔ (∀ shard, db.dirty.contains shard = true → shard ∈ order) ∧
      ∀ shard ∈ (toWrite db order).dropLast, w.writable shard = true := by
  obtain ⟨-, left⟩ := saveAmid_failed made failed
  have bad : w.writable stopped = false := by
    have head := List.head?_dropWhile_not w.writable (toWrite db order)
    simpa [rest] using head
  have parts : (toWrite db order).takeWhile w.writable ++ stopped :: later = toWrite db order := by
    rw [← rest]
    exact List.takeWhile_append_dropWhile
  have onlyLast := @dropLast_all_iff w.writable ((toWrite db order).takeWhile w.writable) later stopped
    (fun shard member => List.mem_takeWhile_imp member) bad
  have only : ∀ shard, ((∅ : Names).insert stopped ()).contains shard = true ↔ shard = stopped := by
    intro shard
    by_cases same : shard = stopped <;> simp [OrderedMap.contains, OrderedMap.get_insert, same]
  have wrote : writtenShards db w side order = (toWrite db order).takeWhile w.writable := if_pos made
  rw [parts] at onlyLast
  simp only [Postpones, failed, forall_const, left, rest, wrote, List.head?_cons, Option.elim_some, only]
  constructor
  · intro kept
    refine ⟨fun shard marked => ?_, onlyLast.mpr ?_⟩
    · by_cases written : shard ∈ (toWrite db order).takeWhile w.writable
      · exact (mem_toWrite.mp (List.takeWhile_subset _ written)).1
      · have inWalk : stopped ∈ toWrite db order := by
          rw [← parts]
          simp
        rw [kept shard marked written]
        exact (mem_toWrite.mp inWalk).1
    · refine List.eq_nil_iff_forall_not_mem.mpr fun shard member => ?_
      have listed : shard ∈ toWrite db order := by
        rw [← parts]
        simp [member]
      have distinct : (toWrite db order).Nodup := apart.filter _
      rw [← parts, List.nodup_append, List.nodup_cons] at distinct
      obtain ⟨_, ⟨fresh, _⟩, disjoint⟩ := distinct
      have unwritten : shard ∉ (toWrite db order).takeWhile w.writable :=
        fun written => disjoint shard written shard (List.mem_cons_of_mem _ member) rfl
      rw [kept shard (mem_toWrite.mp listed).2 unwritten] at member
      exact fresh member
  · rintro ⟨present, all⟩ shard marked missed
    have listed := mem_toWrite.mpr ⟨present shard marked, marked⟩
    rw [← parts, onlyLast.mp all, List.mem_append, List.mem_singleton] at listed
    exact listed.resolve_left missed

theorem postpones_iff (apart : order.Nodup) : Postpones db w side order ↔ StopsLate db w side order := by
  cases made : side.directory with
  | false => exact iff_of_true (fun _ shard marked _ => by simpa [saveAmid, made] using marked) (.inl made)
  | true =>
      have stops := @saveAmid_report w db side order
      by_cases failed : (saveAmid db w side false order).2.2 = none
      · cases rest : (toWrite db order).dropWhile w.writable with
        | nil =>
            have all := List.dropWhile_eq_nil_iff.mp rest
            have kept : ∀ shard ∈ (toWrite db order).dropLast, w.writable shard = true :=
              fun shard member => all shard (List.mem_of_mem_dropLast member)
            have beside : ¬ (side.activity = true ∧ side.latest = true) := by
              rintro ⟨activity, latest⟩
              rcases stops.mp failed with never | ⟨shard, member, bad⟩ | never | never
              · simp [made] at never
              · simp [all shard member] at bad
              · simp [activity] at never
              · simp [latest] at never
            rw [postpones_iff_beside made failed all, StopsLate, made]
            tauto
        | cons stopped later =>
            have member : stopped ∈ toWrite db order :=
              List.dropWhile_subset _ (rest ▸ List.mem_cons_self)
            have bad : w.writable stopped = false := by
              have head := List.head?_dropWhile_not w.writable (toWrite db order)
              simpa [rest] using head
            have some_ : ¬ ∀ shard ∈ toWrite db order, w.writable shard = true := by
              intro all
              rw [all stopped member] at bad
              cases bad
            rw [postpones_iff_stopped apart made failed rest, StopsLate, made]
            tauto
      · refine iff_of_true (fun none => absurd none failed) (.inr (.inl ?_))
        rw [stops] at failed
        simp only [not_or, not_exists, not_and, Bool.not_eq_false] at failed
        exact failed.2

end Marks

/-! ## The next save -/

section Recovery

variable {db : Database} {w : World} {side : SideFiles} {order : List String}

theorem replaceFiles_rewrites {shards : List String} (used : ∀ s ∈ shards, w.names.used s) (dir : Dir) :
    Rewritten w.names db (· ∈ shards) dir (replaceFiles db w shards dir) ∧
      Spreads w.names dir (replaceFiles db w shards dir) := by
  induction shards generalizing dir with
  | nil => exact ⟨⟨fun _ _ _ => rfl, fun s _ member => by simp at member⟩, .refl dir⟩
  | cons shard rest ih =>
      have mine := used shard List.mem_cons_self
      obtain ⟨rewritten, spreads⟩ := ih (fun s member => used s (List.mem_cons_of_mem _ member))
        { dir with files := dir.files.insert (w.names.file shard) (shardSnapshot db shard) }
      have one := Rewritten.one mine dir db
      refine ⟨⟨fun s play missed => ?_, fun s play member => ?_⟩, (Spreads.insert dir mine _).trans spreads⟩
      · obtain ⟨other, elsewhere⟩ := not_or.mp (List.mem_cons.not.mp missed)
        exact (rewritten.same s play elsewhere).trans (one.same s play other)
      · by_cases again : s ∈ rest
        · exact rewritten.new s play again
        · have first := (List.mem_cons.mp member).resolve_right again
          have kept := rewritten.same s play again
          change (replaceFiles db w rest _).files.get (w.names.file s) = _ ∨
            (replaceFiles db w rest _).files.get (w.names.file s) = none ∧ _
          rw [kept]
          exact one.new s play first

/-- A save that is only postponed leaves a state from which the next one makes good. -/
theorem failed_save_durable (durable : (Machine.mk db w.dir).Durable w.names)
    (failed : (saveAmid db w side false order).2.2 = none) (postpones : Postpones db w side order) :
    (Machine.mk (saveAmid db w side false order).1 (saveAmid db w side false order).2.1).Durable w.names ∧
      held w.names (saveAmid db w side false order).2.1 (saveAmid db w side false order).1 =
        held w.names w.dir db := by
  cases made : side.directory with
  | false =>
      simp only [saveAmid, made, Bool.not_false, if_true]
      exact ⟨durable, trivial⟩
  | true =>
      obtain ⟨files, left⟩ := saveAmid_failed made failed
      have kept := postpones failed
      rw [left] at kept
      rw [files, left]
      have dirty : ∀ s ∈ toWrite db order, db.dirty.contains s = true := fun s member => (mem_toWrite.mp member).2
      have written : ∀ s ∈ writtenShards db w side order, db.dirty.contains s = true := by
        intro s member
        rw [writtenShards, if_pos made] at member
        exact dirty s (List.takeWhile_subset _ member)
      obtain ⟨rewritten, spreads⟩ := @replaceFiles_rewrites db w _
        (fun s member => durable.consistent.marks s (written s member)) w.dir
      have fewer : ∀ s, (((toWrite db order).dropWhile w.writable).head?.elim ∅ fun shard =>
          (∅ : Names).insert shard ()).contains s = true → db.dirty.contains s = true := by
        intro s marked
        cases rest : (toWrite db order).dropWhile w.writable with
        | nil => simp [rest, OrderedMap.contains] at marked
        | cons stopped later =>
            have first : s = stopped := by
              by_contra other
              simp [rest, OrderedMap.contains, OrderedMap.get_insert, other] at marked
            have member : stopped ∈ toWrite db order := List.dropWhile_subset _ (rest ▸ List.mem_cons_self)
            exact first ▸ dirty stopped member
      obtain ⟨consistent, same⟩ := durable.consistent.rewritten rewritten
        (fun s member => durable.consistent.here_of_dirty (written s member)) _ fewer fun s marked =>
          (em (s ∈ writtenShards db w side order)).symm.imp (kept s marked) id
      exact ⟨⟨consistent, spreads.tidy durable.tidy⟩, same⟩

end Recovery

/-- A save that fails is only postponed exactly when it stops with nothing else waiting. Then,
from a state in which every unmarked shard is as its file says, the next save that goes
through leaves a directory from which a restart finds what is held. -/
theorem failed_save_postponed (db : Database) (w : World) (side : SideFiles) {order : List String}
    (walk : order.Perm (presentShards db).keys) :
    (Postpones db w side order ↔ StopsLate db w side order) ∧
      (StopsLate db w side order → (Machine.mk db w.dir).Durable w.names →
        ∀ db' dir', saveAmid db w side false order = (db', dir', none) →
          held w.names dir' db' = held w.names w.dir db ∧
          ∀ now order', order'.Perm (presentShards db').keys → ∀ policy stores later,
            ∃ db'' dir'' report restored,
              save db' (.sound w.names dir' now) false order' = (db'', dir'', some report) ∧
                restart dir'' policy stores db'.node later = .ok restored ∧
                ∀ name, (restored.namespaces.get name).map (fun ns => onDisk ns.values) =
                  (held w.names dir' db' name).map onDisk) := by
  have apart : order.Nodup := walk.nodup_iff.mpr (OrderedMap.keys_nodup _)
  refine ⟨postpones_iff apart, fun late durable db' dir' saved => ?_⟩
  obtain ⟨durable', same⟩ := failed_save_durable durable (by rw [saved]) ((postpones_iff apart).mpr late)
  rw [saved] at durable' same
  exact ⟨same, fun now order' walk' policy stores later => durable'.restores now walk' policy stores later⟩

namespace Machine

/-- Only the file of shard `a` cannot be written. -/
def withoutA (names : ShardFiles) (dir : Dir) : World :=
  { World.sound names dir .unixEpoch with writable := fun shard => shard != "a" }

/-- The machine after those writes. -/
def afterWrites : Machine := (fresh.run .sample writtenTwice).getD fresh

/-- The save stops at the last shard it has to write, and the next one makes good. -/
theorem failed_save_postponed_writtenTwice : ∃ db' dir', fresh.run .sample writtenTwice = some afterWrites ∧
    saveAmid afterWrites.db (withoutA .sample afterWrites.dir) .fine false ["_internal", "a"] = (db', dir', none) ∧
    Postpones afterWrites.db (withoutA .sample afterWrites.dir) .fine ["_internal", "a"] ∧
    ∃ db'' dir'' report restored,
      SightingDB.save db' (.sound .sample dir' .unixEpoch) false ["_internal", "a"] = (db'', dir'', some report) ∧
        restart dir'' ⟨0, 0⟩ .storeEverything db'.node .unixEpoch = .ok restored ∧
        ∀ name, (restored.namespaces.get name).map (fun ns => onDisk ns.values) =
          (held .sample dir' db' name).map onDisk := by
  have durable : afterWrites.Durable .sample := run_durable fresh_durable writtenTwice_marks rfl
  obtain ⟨postponed, recovers⟩ := failed_save_postponed afterWrites.db (withoutA .sample afterWrites.dir) .fine
    (show ["_internal", "a"].Perm (presentShards afterWrites.db).keys by decide)
  have late : StopsLate afterWrites.db (withoutA .sample afterWrites.dir) .fine ["_internal", "a"] := by
    refine .inr (.inr ⟨fun shard marked => ?_, by decide⟩)
    have kept : shard ∈ afterWrites.db.dirty.keys := OrderedMap.mem_keys.mpr (OrderedMap.contains_iff.mp marked)
    have listed : afterWrites.db.dirty.keys ⊆ ["_internal", "a"] := by decide
    exact listed kept
  exact ⟨_, _, rfl, rfl, postponed.mpr late,
    (recovers late durable _ _ rfl).2 .unixEpoch _ (by decide) ⟨0, 0⟩ .storeEverything .unixEpoch⟩

/-- Two shards are written to. -/
def writtenApart : List (DateTime × Act) := [(.unixEpoch, sightingOf "a/x"), (.unixEpoch, sightingOf "b/y")]

/-- The save stops at shard `a`; `b`, whose turn had not come, is not dirty any more. -/
theorem waiting_shard_forgotten : ∃ m, fresh.run .sample writtenApart = some m ∧
    ["_internal", "a", "b"].Perm (presentShards m.db).keys ∧
    ¬ Postpones m.db (withoutA .sample m.dir) .fine ["_internal", "a", "b"] := by
  refine ⟨_, rfl, by decide, fun postpones => ?_⟩
  exact absurd (postpones (by decide) "b" (by decide) (by decide)) (by decide)

end Machine

end SightingDB
