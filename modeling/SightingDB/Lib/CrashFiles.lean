import Mathlib.Data.List.Basic
import Mathlib.Logic.Function.Basic

/-!
Files replaced through a temporary one, by several writers, on a disk that may lose its power. What is
in a file is on the disk once it has been synced; changes to the directory get there in their order, so
that a crash may undo the latest of them.
-/
namespace CrashFiles

/-- A name in the directory: a file, or what is written before it is renamed to it. -/
inductive Slot (τ : Type*)
  | file (t : τ)
  | temp (t : τ)
  deriving DecidableEq

structure Inode (β : Type*) where
  bytes : List β
  synced : Bool

/-- What the names of a directory refer to. -/
abbrev Entries (τ : Type*) := Slot τ → Option Nat

structure Disk (τ β : Type*) where
  inode : Nat → Inode β
  /-- From here on inodes are free. -/
  next : Nat
  dir : Entries τ
  /-- What the directory was before, and may be again after a crash; the latest first. -/
  past : List (Entries τ)

/-- How far a writer has come with one file. -/
inductive Stage (τ β : Type*)
  | idle
  | writing (t : τ) (i : Nat) (done rest : List β)
  | written (t : τ) (i : Nat)

def Stage.target {τ β : Type*} : Stage τ β → Option τ
  | .idle => none
  | .writing t _ _ _ => some t
  | .written t _ => some t

structure Sys (ι τ β : Type*) where
  disk : Disk τ β
  stage : ι → Stage τ β

inductive FileAct (ι τ β : Type*)
  /-- The temporary file is created, or cut to nothing. -/
  | start (w : ι) (t : τ) (bytes : List β)
  /-- Some more bytes go to where the writer has come. -/
  | put (w : ι) (n : Nat)
  | finish (w : ι)
  | publish (w : ι)
  /-- The writer gives up and leaves what it has written. -/
  | quit (w : ι)
  | remove (t : τ)
  /-- Everyone stops. The directory is found as it was some changes before, and a file that had not
  been synced holds anything. -/
  | crash (undone : Nat) (found : Nat → List β)

variable {ι τ β : Type*}

namespace Disk

/-- The directories a crash may leave. -/
def dirs (d : Disk τ β) : List (Entries τ) := d.dir :: d.past

def read (d : Disk τ β) (t : τ) : Option (List β) := (d.dir (.file t)).map fun i => (d.inode i).bytes

end Disk

section Operations

/-- Bytes over what is there, from an offset; a gap before it is filled up. -/
def overwrite [Inhabited β] (old : List β) (offset : Nat) (chunk : List β) : List β :=
  (old ++ List.replicate (offset - old.length) default).take offset ++ chunk ++ old.drop (offset + chunk.length)

namespace Disk

variable (d : Disk τ β)

def setInode (i : Nat) (inode : Inode β) : Disk τ β := { d with inode := fun j => if j = i then inode else d.inode j }

def setDir (dir : Entries τ) : Disk τ β := { d with dir := dir, past := d.dir :: d.past }

/-- A new name, for a new and empty file. -/
def added [DecidableEq τ] (a : Slot τ) : Disk τ β where
  inode j := if j = d.next then ⟨[], false⟩ else d.inode j
  next := d.next + 1
  dir b := if b = a then some d.next else d.dir b
  past := d.dir :: d.past

/-- Open a file for writing; one that exists is cut to nothing. -/
def create [DecidableEq τ] (a : Slot τ) : Disk τ β × Nat :=
  match d.dir a with
  | some i => (d.setInode i ⟨[], false⟩, i)
  | none => (d.added a, d.next)

def put [Inhabited β] (i offset : Nat) (chunk : List β) : Disk τ β := d.setInode i ⟨overwrite (d.inode i).bytes offset chunk, false⟩

def sync (i : Nat) : Disk τ β := d.setInode i { d.inode i with synced := true }

def rename [DecidableEq τ] (a b : Slot τ) : Disk τ β :=
  d.setDir fun c => if c = a then none else if c = b then d.dir a else d.dir c

def remove [DecidableEq τ] (a : Slot τ) : Disk τ β := d.setDir fun b => if b = a then none else d.dir b

/-- The disk as it is found after a crash. -/
def crashed (dir : Entries τ) (found : Nat → List β) : Disk τ β where
  inode i := if (d.inode i).synced then d.inode i else ⟨found i, true⟩
  next := d.next
  dir := dir
  past := []

end Disk

namespace Sys

variable (s : Sys ι τ β)

def set [DecidableEq ι] (w : ι) (disk : Disk τ β) (stage : Stage τ β) : Sys ι τ β :=
  ⟨disk, fun v => if v = w then stage else s.stage v⟩

/-- Nobody starts on a file that another writer is at. -/
def Apart : FileAct ι τ β → Prop
  | .start _ t _ => ∀ w, (s.stage w).target ≠ some t
  | _ => True

variable [DecidableEq ι] [DecidableEq τ] [Inhabited β]

/-- One act, where it is possible. Files in `loose` are not synced before they are renamed. -/
def step (loose : τ → Bool) (s : Sys ι τ β) : FileAct ι τ β → Option (Sys ι τ β)
  | .start w t bytes => match s.stage w with
    | .idle => some (s.set w (s.disk.create (.temp t)).1 (.writing t (s.disk.create (.temp t)).2 [] bytes))
    | _ => none
  | .put w n => match s.stage w with
    | .writing t i done rest => some (s.set w (s.disk.put i done.length (rest.take n)) (.writing t i (done ++ rest.take n) (rest.drop n)))
    | _ => none
  | .finish w => match s.stage w with
    | .writing t i _ [] => some (s.set w (if loose t then s.disk else s.disk.sync i) (.written t i))
    | _ => none
  | .publish w => match s.stage w with
    | .written t _ => if (s.disk.dir (.temp t)).isNone then none else some (s.set w (s.disk.rename (.temp t) (.file t)) .idle)
    | _ => none
  | .quit w => some (s.set w s.disk .idle)
  | .remove t => some { s with disk := s.disk.remove (.file t) }
  | .crash undone found => (s.disk.dirs[undone]?).map fun dir => ⟨s.disk.crashed dir found, fun _ => .idle⟩

def run (loose : τ → Bool) (s : Sys ι τ β) : List (FileAct ι τ β) → Option (Sys ι τ β)
  | [] => some s
  | act :: rest => (s.step loose act).bind fun s' => s'.run loose rest

/-- No two writers are ever at one file. -/
def Exclusive (loose : τ → Bool) (s : Sys ι τ β) : List (FileAct ι τ β) → Prop
  | [] => True
  | act :: rest => s.Apart act ∧ ∀ s', s.step loose act = some s' → s'.Exclusive loose rest

end Sys

end Operations

/-- Two writers at one file: the second cuts it to nothing under the first, and the first goes on
from where it was. -/
def crossed : List (FileAct Bool Unit Nat) :=
  [.start false () [1, 1], .put false 1, .start true () [2, 2], .put true 1, .put false 1, .finish false, .publish false]

/-- Such a run is not exclusive, and what is found then is neither what the one nor what the other
set out to write. -/
theorem crossed_torn : let s : Sys Bool Unit Nat := ⟨⟨fun _ => ⟨[], true⟩, 0, fun _ => none, []⟩, fun _ => .idle⟩
    ¬ s.Exclusive (fun _ => false) crossed ∧ (s.run (fun _ => false) crossed).bind (fun s => s.disk.read ()) = some [2, 1] := by
  refine ⟨fun apart => ?_, rfl⟩
  -- At the third act the first writer is still at the file.
  exact ((apart.2 _ rfl).2 _ rfl).1 false rfl

/-- What a writer sets out to put into a file. -/
def FileAct.asks : FileAct ι τ β → Option (τ × List β)
  | .start _ t bytes => some (t, bytes)
  | _ => none

/-! ## The invariant -/

/-- What a writer relies on while it is at a file: the inode is the one under its temporary name, and
holds what has been written to it. -/
def Stage.Held (loose : τ → Bool) (known : τ → List β → Prop) (d : Disk τ β) : Stage τ β → Prop
  | .idle => True
  | .writing t i done rest => d.dir (.temp t) = some i ∧ (d.inode i).bytes = done ∧ known t (done ++ rest)
  | .written t i => d.dir (.temp t) = some i ∧ (loose t = false → (d.inode i).synced = true) ∧ known t (d.inode i).bytes

/-- What writers keep between them. In every directory a crash may leave, a file that is not loose is
synced and holds one of the contents `known` for it, since no inode that is being written has ever been
under the name of a file. -/
structure Sound (loose : τ → Bool) (known : τ → List β → Prop) (s : Sys ι τ β) : Prop where
  one : ∀ dir ∈ s.disk.dirs, ∀ a b i, dir a = some i → dir b = some i → a = b
  used : ∀ dir ∈ s.disk.dirs, ∀ a i, dir a = some i → i < s.disk.next
  hidden : ∀ dir ∈ s.disk.dirs, ∀ t t' i, s.disk.dir (.temp t') = some i → dir (.file t) ≠ some i
  whole : ∀ dir ∈ s.disk.dirs, ∀ t i, dir (.file t) = some i → loose t = false →
    (s.disk.inode i).synced = true ∧ known t (s.disk.inode i).bytes
  held : ∀ w, (s.stage w).Held loose known s.disk
  alone : ∀ v w t, (s.stage v).target = some t → (s.stage w).target = some t → v = w

/-- A disk that nobody is writing to, as it is found at a start. -/
structure Quiet (loose : τ → Bool) (known : τ → List β → Prop) (d : Disk τ β) : Prop where
  past : d.past = []
  one : ∀ a b i, d.dir a = some i → d.dir b = some i → a = b
  used : ∀ a i, d.dir a = some i → i < d.next
  whole : ∀ t i, d.dir (.file t) = some i → loose t = false → (d.inode i).synced = true ∧ known t (d.inode i).bytes

variable {loose : τ → Bool} {known : τ → List β → Prop} {s s' : Sys ι τ β} {d d' : Disk τ β} {stage : Stage τ β}

/-- Nobody is at anything on a quiet disk. -/
theorem Quiet.sound (quiet : Quiet loose known d) : Sound loose known (⟨d, fun _ => .idle⟩ : Sys ι τ β) := by
  have only : ∀ dir ∈ d.dirs, dir = d.dir := by
    intro dir member
    rw [Disk.dirs, quiet.past] at member
    exact List.mem_singleton.mp member
  constructor
  · intro dir member
    rw [only dir member]
    exact quiet.one
  · intro dir member
    rw [only dir member]
    exact quiet.used
  · intro dir member t t' i temp file
    rw [only dir member] at file
    exact absurd (quiet.one _ _ i temp file) nofun
  · intro dir member
    rw [only dir member]
    exact quiet.whole
  · exact fun _ => trivial
  · exact nofun

/-- What a writer relies on is its temporary name and the inode under it. -/
theorem Stage.Held.frame (held : stage.Held loose known d) (entry : ∀ t, stage.target = some t → d'.dir (.temp t) = d.dir (.temp t))
    (inode : ∀ t i, stage.target = some t → d.dir (.temp t) = some i → d'.inode i = d.inode i) : stage.Held loose known d' := by
  cases stage with
  | idle => exact trivial
  | writing t i done rest =>
      obtain ⟨temp, bytes, asked⟩ := held
      refine ⟨(entry t rfl).trans temp, ?_, asked⟩
      rw [inode t i rfl temp]
      exact bytes
  | written t i =>
      obtain ⟨temp, synced, bytes⟩ := held
      refine ⟨(entry t rfl).trans temp, ?_, ?_⟩
      · rw [inode t i rfl temp]
        exact synced
      · rw [inode t i rfl temp]
        exact bytes

theorem Sound.dir_mem (s : Sys ι τ β) : s.disk.dir ∈ s.disk.dirs := List.mem_cons_self

theorem Disk.setInode_self (d : Disk τ β) (i : Nat) (inode : Inode β) : (d.setInode i inode).inode i = inode := if_pos rfl

theorem Disk.setInode_same (d : Disk τ β) (i : Nat) : d.setInode i (d.inode i) = d := by
  have same : (fun j => if j = i then d.inode i else d.inode j) = d.inode := by
    funext j
    split
    · rename_i at_
      rw [at_]
    · rfl
  unfold setInode
  rw [same]

section Names

variable [DecidableEq τ] (d : Disk τ β) (t : τ)

theorem Disk.rename_file (t' : τ) : (d.rename (.temp t) (.file t)).dir (.file t') = if t' = t then d.dir (.temp t) else d.dir (.file t') := by
  change (if Slot.file t' = .temp t then none else if Slot.file t' = .file t then d.dir (.temp t) else d.dir (.file t')) = _
  rw [if_neg nofun]
  simp only [Slot.file.injEq]

theorem Disk.rename_temp (t' : τ) : (d.rename (.temp t) (.file t)).dir (.temp t') = if t' = t then none else d.dir (.temp t') := by
  change (if Slot.temp t' = .temp t then none else if Slot.temp t' = .file t then d.dir (.temp t) else d.dir (.temp t')) = _
  simp only [Slot.temp.injEq, reduceCtorEq, if_false]

theorem Disk.remove_file (t' : τ) : (d.remove (.file t)).dir (.file t') = if t' = t then none else d.dir (.file t') := by
  change (if Slot.file t' = .file t then none else d.dir (.file t')) = _
  simp only [Slot.file.injEq]

theorem Disk.remove_temp (t' : τ) : (d.remove (.file t)).dir (.temp t') = d.dir (.temp t') := by
  change (if Slot.temp t' = .file t then none else d.dir (.temp t')) = _
  exact if_neg nofun

end Names

theorem overwrite_end [Inhabited β] (old chunk : List β) : overwrite old old.length chunk = old ++ chunk := by
  unfold overwrite
  rw [Nat.sub_self, List.replicate_zero, List.append_nil, List.take_length, List.drop_eq_nil_of_le (Nat.le_add_right _ _),
    List.append_nil]

/-- What a crash leaves is quiet. -/
theorem Sound.crashed (sound : Sound loose known s) {dir : Entries τ} (member : dir ∈ s.disk.dirs) (found : Nat → List β) :
    Quiet loose known (s.disk.crashed dir found) where
  past := rfl
  one := sound.one dir member
  used := sound.used dir member
  whole t i file strict := by
    obtain ⟨synced, bytes⟩ := sound.whole dir member t i file strict
    have kept : (s.disk.crashed dir found).inode i = s.disk.inode i := if_pos synced
    rw [kept]
    exact ⟨synced, bytes⟩

/-- A directory that differs from the current one only in files taken away, and in one temporary file
that has become a file. -/
theorem Sound.setDir (sound : Sound loose known s) {dir : Entries τ}
    (temps : ∀ t' i, dir (.temp t') = some i → s.disk.dir (.temp t') = some i)
    (files : ∀ t' i, dir (.file t') = some i → s.disk.dir (.file t') = some i ∨
      s.disk.dir (.temp t') = some i ∧ dir (.temp t') = none ∧
        (loose t' = false → (s.disk.inode i).synced = true ∧ known t' (s.disk.inode i).bytes))
    {stages : ι → Stage τ β} (held : ∀ w, (stages w).Held loose known (s.disk.setDir dir))
    (alone : ∀ v w t, (stages v).target = some t → (stages w).target = some t → v = w) :
    Sound loose known (⟨s.disk.setDir dir, stages⟩ : Sys ι τ β) := by
  have here := Sound.dir_mem s
  have split : ∀ dir' ∈ (s.disk.setDir dir).dirs, dir' = dir ∨ dir' ∈ s.disk.dirs := fun dir' member => List.mem_cons.mp member
  constructor
  · intro dir' member a b i at_a at_b
    rcases split dir' member with rfl | member
    · cases a with
      | temp t =>
          cases b with
          | temp t' => exact sound.one _ here _ _ i (temps t i at_a) (temps t' i at_b)
          | file t' =>
              rcases files t' i at_b with old | ⟨temp, gone, -⟩
              · exact absurd old (sound.hidden _ here t' t i (temps t i at_a))
              · obtain rfl : t = t' := Slot.temp.inj (sound.one _ here _ _ i (temps t i at_a) temp)
                exact absurd (at_a.symm.trans gone) nofun
      | file t =>
          cases b with
          | temp t' =>
              rcases files t i at_a with old | ⟨temp, gone, -⟩
              · exact absurd old (sound.hidden _ here t t' i (temps t' i at_b))
              · obtain rfl : t' = t := Slot.temp.inj (sound.one _ here _ _ i (temps t' i at_b) temp)
                exact absurd (at_b.symm.trans gone) nofun
          | file t' =>
              rcases files t i at_a with old | ⟨temp, -, -⟩
              · rcases files t' i at_b with old' | ⟨temp', -, -⟩
                · exact sound.one _ here _ _ i old old'
                · exact absurd old (sound.hidden _ here t t' i temp')
              · rcases files t' i at_b with old' | ⟨temp', -, -⟩
                · exact absurd old' (sound.hidden _ here t' t i temp)
                · exact congrArg Slot.file (Slot.temp.inj (sound.one _ here _ _ i temp temp'))
    · exact sound.one dir' member a b i at_a at_b
  · intro dir' member a i entry
    rcases split dir' member with rfl | member
    · cases a with
      | temp t => exact sound.used _ here _ i (temps t i entry)
      | file t =>
          rcases files t i entry with old | ⟨temp, -, -⟩
          · exact sound.used _ here _ i old
          · exact sound.used _ here _ i temp
    · exact sound.used dir' member a i entry
  · intro dir' member t t' i temp file
    rcases split dir' member with rfl | member
    · rcases files t i file with old | ⟨temp', gone, -⟩
      · exact sound.hidden _ here t t' i (temps t' i temp) old
      · obtain rfl : t' = t := Slot.temp.inj (sound.one _ here _ _ i (temps t' i temp) temp')
        exact absurd (temp.symm.trans gone) nofun
    · exact sound.hidden dir' member t t' i (temps t' i temp) file
  · intro dir' member t i file strict
    rcases split dir' member with rfl | member
    · rcases files t i file with old | ⟨-, -, good⟩
      · exact sound.whole _ here t i old strict
      · exact good strict
    · exact sound.whole dir' member t i file strict
  · exact held
  · exact alone

/-- A file is found whole: at any moment, however often power failed on the way. -/
theorem Sound.read (sound : Sound loose known s) {t : τ} {bytes : List β} (strict : loose t = false)
    (found : s.disk.read t = some bytes) : known t bytes := by
  obtain ⟨i, entry, rfl⟩ := Option.map_eq_some_iff.mp found
  exact (sound.whole _ (Sound.dir_mem s) t i entry strict).2

section Steps

variable [DecidableEq ι] {w : ι} {t : τ}

theorem Sys.set_stage_same (s : Sys ι τ β) (w : ι) (disk : Disk τ β) (stage : Stage τ β) : (s.set w disk stage).stage w = stage :=
  if_pos rfl

theorem Sys.set_stage_of_ne {v w : ι} (other : v ≠ w) (disk : Disk τ β) (stage : Stage τ β) :
    (s.set w disk stage).stage v = s.stage v := if_neg other

/-- Only one writer is at a file after a writer has moved on with its own, or taken up a free one. -/
theorem Sound.alone_set (sound : Sound loose known s) (disk : Disk τ β)
    (free : ∀ t, stage.target = some t → ∀ v, v ≠ w → (s.stage v).target ≠ some t) :
    ∀ u v t, ((s.set w disk stage).stage u).target = some t → ((s.set w disk stage).stage v).target = some t → u = v := by
  intro u v t at_u at_v
  by_cases first : u = w
  · by_cases second : v = w
    · exact first.trans second.symm
    · subst first
      rw [Sys.set_stage_same] at at_u
      rw [Sys.set_stage_of_ne second] at at_v
      exact absurd at_v (free t at_u v second)
  · by_cases second : v = w
    · subst second
      rw [Sys.set_stage_same] at at_v
      rw [Sys.set_stage_of_ne first] at at_u
      exact absurd at_u (free t at_v u first)
    · rw [Sys.set_stage_of_ne first] at at_u
      rw [Sys.set_stage_of_ne second] at at_v
      exact sound.alone u v t at_u at_v

/-- Everyone keeps what they rely on when a writer moves on and leaves the others' names and inodes alone. -/
theorem Sound.held_set (sound : Sound loose known s) {disk : Disk τ β} (own : stage.Held loose known disk)
    (entry : ∀ v t, v ≠ w → (s.stage v).target = some t → disk.dir (.temp t) = s.disk.dir (.temp t))
    (inode : ∀ v t i, v ≠ w → (s.stage v).target = some t → s.disk.dir (.temp t) = some i → disk.inode i = s.disk.inode i) :
    ∀ v, ((s.set w disk stage).stage v).Held loose known disk := by
  intro v
  by_cases same : v = w
  · subst same
    rw [Sys.set_stage_same]
    exact own
  · rw [Sys.set_stage_of_ne same]
    exact (sound.held v).frame (fun t => entry v t same) fun t i => inode v t i same

/-- What is under a temporary name may change as it likes: no file is there. -/
theorem Sound.setInode (sound : Sound loose known s) {i : Nat} {inode : Inode β} (temp : s.disk.dir (.temp t) = some i)
    (mine : ∀ v, v ≠ w → (s.stage v).target ≠ some t) (target : ∀ t', stage.target = some t' → t' = t)
    (own : stage.Held loose known (s.disk.setInode i inode)) : Sound loose known (s.set w (s.disk.setInode i inode) stage) := by
  have kept : ∀ dir ∈ s.disk.dirs, ∀ t' j, dir (.file t') = some j → (s.disk.setInode i inode).inode j = s.disk.inode j := by
    intro dir member t' j file
    apply if_neg
    rintro rfl
    exact sound.hidden dir member t' t j temp file
  constructor
  · exact sound.one
  · exact sound.used
  · exact sound.hidden
  · intro dir member t' j file strict
    change ((s.disk.setInode i inode).inode j).synced = true ∧ known t' ((s.disk.setInode i inode).inode j).bytes
    rw [kept dir member t' j file]
    exact sound.whole dir member t' j file strict
  · refine sound.held_set own (fun _ _ _ _ => rfl) fun v t' j other at_ temp' => ?_
    apply if_neg
    rintro rfl
    obtain rfl : t' = t := Slot.temp.inj (sound.one _ (Sound.dir_mem s) _ _ j temp' temp)
    exact mine v other at_
  · refine sound.alone_set _ fun t' at_ v other => ?_
    rw [target t' at_]
    exact mine v other

/-- A temporary file that is not there yet. -/
theorem Sound.added [DecidableEq τ] (sound : Sound loose known s) (mine : ∀ v, (s.stage v).target ≠ some t)
    {bytes : List β} (asked : known t bytes) :
    Sound loose known (s.set w (s.disk.added (.temp t)) (.writing t s.disk.next [] bytes)) := by
  have here := Sound.dir_mem s
  have kept : ∀ j, j < s.disk.next → (s.disk.added (.temp t)).inode j = s.disk.inode j :=
    fun j small => if_neg (Nat.ne_of_lt small)
  have split : ∀ dir ∈ (s.disk.added (.temp t)).dirs, dir = (s.disk.added (.temp t)).dir ∨ dir ∈ s.disk.dirs :=
    fun dir member => List.mem_cons.mp member
  have at_new : ∀ a i, (s.disk.added (.temp t)).dir a = some i → a = .temp t ∧ i = s.disk.next ∨ s.disk.dir a = some i := by
    intro a i entry
    change (if a = .temp t then some s.disk.next else s.disk.dir a) = some i at entry
    split at entry
    · rename_i same
      exact .inl ⟨same, (Option.some.inj entry).symm⟩
    · exact .inr entry
  have below : ∀ dir ∈ s.disk.dirs, ∀ a, dir a ≠ some s.disk.next := fun dir member a entry =>
    Nat.lt_irrefl _ (sound.used dir member a _ entry)
  -- Files are as they were in one of the directories from before.
  have file_old : ∀ dir ∈ (s.disk.added (.temp t)).dirs, ∀ t' i, dir (.file t') = some i →
      ∃ dir' ∈ s.disk.dirs, dir' (.file t') = some i := by
    intro dir member t' i file
    rcases split dir member with rfl | member
    · rcases at_new _ i file with ⟨same, -⟩ | entry
      · cases same
      · exact ⟨_, here, entry⟩
    · exact ⟨dir, member, file⟩
  constructor
  · intro dir member a b i at_a at_b
    rcases split dir member with rfl | member
    · rcases at_new a i at_a with ⟨rfl, rfl⟩ | entry
      · rcases at_new b _ at_b with ⟨rfl, -⟩ | entry
        · rfl
        · exact absurd entry (below _ here b)
      · rcases at_new b i at_b with ⟨rfl, rfl⟩ | entry'
        · exact absurd entry (below _ here a)
        · exact sound.one _ here a b i entry entry'
    · exact sound.one dir member a b i at_a at_b
  · intro dir member a i entry
    rcases split dir member with rfl | member
    · rcases at_new a i entry with ⟨-, rfl⟩ | entry
      · exact Nat.lt_succ_self _
      · exact Nat.lt_succ_of_lt (sound.used _ here a i entry)
    · exact Nat.lt_succ_of_lt (sound.used dir member a i entry)
  · intro dir member t' t'' i temp file
    obtain ⟨dir', member', file'⟩ := file_old dir member t' i file
    rcases at_new _ i temp with ⟨-, rfl⟩ | temp'
    · exact below dir' member' _ file'
    · exact sound.hidden dir' member' t' t'' i temp' file'
  · intro dir member t' i file strict
    obtain ⟨dir', member', file'⟩ := file_old dir member t' i file
    change ((s.disk.added (.temp t)).inode i).synced = true ∧ known t' ((s.disk.added (.temp t)).inode i).bytes
    rw [kept i (sound.used dir' member' _ i file')]
    exact sound.whole dir' member' t' i file' strict
  · have own : (Stage.writing t s.disk.next [] bytes).Held loose known (s.disk.added (.temp t)) := by
      refine ⟨if_pos rfl, ?_, asked⟩
      change (if s.disk.next = s.disk.next then (⟨[], false⟩ : Inode β) else _).bytes = []
      rw [if_pos rfl]
    refine sound.held_set own (fun v t' _ at_ => ?_) fun v t' i _ _ temp => ?_
    · apply if_neg
      intro same
      exact mine v (Slot.temp.inj same ▸ at_)
    · exact kept i (sound.used _ here _ i temp)
  · refine sound.alone_set _ fun t' at_ v _ => ?_
    rw [← Option.some.inj at_]
    exact mine v

variable [DecidableEq τ] [Inhabited β]

/-- One act, of writers that keep apart, with every content asked for known. -/
theorem Sound.step (sound : Sound loose known s) {act : FileAct ι τ β} (apart : s.Apart act)
    (asked : ∀ v, act.asks = some v → known v.1 v.2) (stepped : s.step loose act = some s') : Sound loose known s' := by
  cases act with
  | start w t bytes =>
      simp only [Sys.step] at stepped
      split at stepped
      · obtain rfl := Option.some.inj stepped
        have known_ : known t bytes := asked _ rfl
        cases entry : s.disk.dir (.temp t) with
        | none =>
            have made : s.disk.create (.temp t) = (s.disk.added (.temp t), s.disk.next) := by
              unfold Disk.create
              rw [entry]
            rw [made]
            exact sound.added apart known_
        | some i =>
            have made : s.disk.create (.temp t) = (s.disk.setInode i ⟨[], false⟩, i) := by
              unfold Disk.create
              rw [entry]
            rw [made]
            refine sound.setInode entry (fun v _ => apart v) (fun t' at_ => (Option.some.inj at_).symm) ⟨entry, ?_, known_⟩
            rw [Disk.setInode_self]
      · cases stepped
  | put w n =>
      simp only [Sys.step] at stepped
      split at stepped
      · rename_i t i done rest at_
        obtain rfl := Option.some.inj stepped
        obtain ⟨temp, bytes, known_⟩ : (Stage.writing t i done rest).Held loose known s.disk := at_ ▸ sound.held w
        have mine : ∀ v, v ≠ w → (s.stage v).target ≠ some t := fun v other at_v =>
          other (sound.alone v w t at_v (at_ ▸ rfl))
        refine sound.setInode temp mine (fun t' at_' => (Option.some.inj at_').symm) ⟨temp, ?_, ?_⟩
        · rw [Disk.setInode_self, bytes, overwrite_end]
        · rwa [List.append_assoc, List.take_append_drop]
      · cases stepped
  | finish w =>
      simp only [Sys.step] at stepped
      split at stepped
      · rename_i t i done at_
        obtain rfl := Option.some.inj stepped
        obtain ⟨temp, bytes, known_⟩ : (Stage.writing t i done []).Held loose known s.disk := at_ ▸ sound.held w
        rw [List.append_nil] at known_
        have mine : ∀ v, v ≠ w → (s.stage v).target ≠ some t := fun v other at_v =>
          other (sound.alone v w t at_v (at_ ▸ rfl))
        cases free : loose t with
        | true =>
            have kept : Sound loose known (s.set w (s.disk.setInode i (s.disk.inode i)) (.written t i)) := by
              refine sound.setInode temp mine (fun t' at_' => (Option.some.inj at_').symm) ?_
              rw [Disk.setInode_same]
              exact ⟨temp, fun strict => absurd (free.symm.trans strict) nofun, bytes ▸ known_⟩
            rwa [Disk.setInode_same] at kept
        | false =>
            refine sound.setInode temp mine (fun t' at_' => (Option.some.inj at_').symm) ⟨temp, ?_, ?_⟩
            · intro _
              rw [Disk.setInode_self]
            · rw [Disk.setInode_self]
              exact bytes ▸ known_
      · cases stepped
  | publish w =>
      simp only [Sys.step] at stepped
      split at stepped
      · rename_i t i at_
        obtain ⟨temp, synced, known_⟩ : (Stage.written t i : Stage τ β).Held loose known s.disk := at_ ▸ sound.held w
        rw [temp, Option.isNone_some, if_neg Bool.false_ne_true] at stepped
        obtain rfl := Option.some.inj stepped
        refine sound.setDir (fun t' j entry => ?_) (fun t' j entry => ?_)
          (sound.held_set trivial (fun v t' other at_v => ?_) fun _ _ _ _ _ _ => rfl) (sound.alone_set s.disk nofun)
        · change (s.disk.rename (.temp t) (.file t)).dir (.temp t') = some j at entry
          rw [Disk.rename_temp] at entry
          split at entry
          · cases entry
          · exact entry
        · change (s.disk.rename (.temp t) (.file t)).dir (.file t') = some j at entry
          rw [Disk.rename_file] at entry
          split at entry
          · rename_i same
            subst same
            obtain rfl : i = j := Option.some.inj (temp.symm.trans entry)
            have gone : (s.disk.rename (.temp t') (.file t')).dir (.temp t') = none := by rw [Disk.rename_temp, if_pos rfl]
            exact .inr ⟨temp, gone, fun strict => ⟨synced strict, known_⟩⟩
          · exact .inl entry
        · change (s.disk.rename (.temp t) (.file t)).dir (.temp t') = _
          rw [Disk.rename_temp, if_neg]
          rintro rfl
          exact other (sound.alone v w t' at_v (at_ ▸ rfl))
      · cases stepped
  | quit w =>
      obtain rfl := Option.some.inj stepped
      exact ⟨sound.one, sound.used, sound.hidden, sound.whole, sound.held_set trivial (fun _ _ _ _ => rfl) fun _ _ _ _ _ _ => rfl,
        sound.alone_set _ nofun⟩
  | remove t =>
      obtain rfl := Option.some.inj stepped
      refine sound.setDir (fun t' j entry => ?_) (fun t' j entry => ?_) (fun v => ?_) sound.alone
      · change (s.disk.remove (.file t)).dir (.temp t') = some j at entry
        rwa [Disk.remove_temp] at entry
      · change (s.disk.remove (.file t)).dir (.file t') = some j at entry
        rw [Disk.remove_file] at entry
        split at entry
        · cases entry
        · exact .inl entry
      · exact (sound.held v).frame (fun t' _ => Disk.remove_temp s.disk t t') fun _ _ _ _ => rfl
  | crash undone found =>
      obtain ⟨dir, at_, rfl⟩ := Option.map_eq_some_iff.mp stepped
      exact (sound.crashed (List.mem_of_getElem? at_) found).sound

/-- What holds of a system at rest holds after every run of writers that keep apart. -/
theorem Sound.run (sound : Sound loose known s) {acts : List (FileAct ι τ β)} (apart : s.Exclusive loose acts)
    (asked : ∀ act ∈ acts, ∀ v, act.asks = some v → known v.1 v.2) (ran : s.run loose acts = some s') : Sound loose known s' := by
  induction acts generalizing s with
  | nil =>
      obtain rfl := Option.some.inj ran
      exact sound
  | cons act rest ih =>
      obtain ⟨next, stepped, ran⟩ := Option.bind_eq_some_iff.mp ran
      obtain ⟨here, later⟩ := apart
      exact ih (sound.step here (asked act List.mem_cons_self) stepped) (later next stepped)
        (fun other member => asked other (List.mem_cons_of_mem _ member)) ran

end Steps

section Alone

variable [DecidableEq ι] [DecidableEq τ] [Inhabited β]

theorem Sys.run_append (acts acts' : List (FileAct ι τ β)) :
    s.run loose (acts ++ acts') = (s.run loose acts).bind fun s' => s'.run loose acts' := by
  induction acts generalizing s with
  | nil => rfl
  | cons act rest ih =>
      rw [List.cons_append, Sys.run, Sys.run, Option.bind_assoc]
      exact Option.bind_congr fun s' _ => ih

/-- A writer that is the only one is in nobody's way. -/
theorem Sys.exclusive_of_alone [Subsingleton ι] {acts : List (FileAct ι τ β)} (ran : s.run loose acts = some s') :
    s.Exclusive loose acts := by
  induction acts generalizing s with
  | nil => exact trivial
  | cons act rest ih =>
      obtain ⟨next, stepped, ran⟩ := Option.bind_eq_some_iff.mp ran
      refine ⟨?_, fun s'' stepped' => ?_⟩
      · cases act with
        | start w t bytes =>
            intro v at_
            rw [Subsingleton.elim v w] at at_
            cases stage : s.stage w with
            | idle =>
                rw [stage] at at_
                cases at_
            | writing t' i done rest' =>
                simp only [Sys.step, stage] at stepped
                cases stepped
            | written t' i =>
                simp only [Sys.step, stage] at stepped
                cases stepped
        | put w n => exact trivial
        | finish w => exact trivial
        | publish w => exact trivial
        | quit w => exact trivial
        | remove t => exact trivial
        | crash undone found => exact trivial
      · obtain rfl : next = s'' := Option.some.inj (stepped.symm.trans stepped')
        exact ih ran

end Alone

/-! ## Files that stay -/

section Stays

variable {t : τ}

/-- A file that is in every directory a crash may leave. -/
def Stays (t : τ) (d : Disk τ β) : Prop := ∀ dir ∈ d.dirs, dir (.file t) ≠ none

theorem Stays.read (stays : Stays t d) : ∃ bytes, d.read t = some bytes := by
  obtain ⟨i, entry⟩ := Option.ne_none_iff_exists'.mp (stays d.dir List.mem_cons_self)
  exact ⟨(d.inode i).bytes, by rw [Disk.read, entry, Option.map_some]⟩

variable [DecidableEq ι] [DecidableEq τ] [Inhabited β]

theorem Stays.step (stays : Stays t s.disk) {act : FileAct ι τ β} (kept : ∀ t', act = .remove t' → t' ≠ t)
    (stepped : s.step loose act = some s') : Stays t s'.disk := by
  have here := stays _ (Sound.dir_mem s)
  have more : ∀ dir : Entries τ, dir (.file t) ≠ none → Stays t (s.disk.setDir dir) := by
    intro dir there dir' member
    rcases List.mem_cons.mp member with rfl | member
    · exact there
    · exact stays dir' member
  cases act with
  | start w t' bytes =>
      simp only [Sys.step] at stepped
      split at stepped
      · obtain rfl := Option.some.inj stepped
        change Stays t (s.disk.create (.temp t')).1
        unfold Disk.create
        split
        · exact stays
        · intro dir member
          rcases List.mem_cons.mp member with rfl | member
          · change (if Slot.file t = .temp t' then some s.disk.next else s.disk.dir (.file t)) ≠ none
            rwa [if_neg nofun]
          · exact stays dir member
      · cases stepped
  | put w n =>
      simp only [Sys.step] at stepped
      split at stepped
      · obtain rfl := Option.some.inj stepped
        exact stays
      · cases stepped
  | finish w =>
      simp only [Sys.step] at stepped
      split at stepped
      · obtain rfl := Option.some.inj stepped
        change Stays t (if _ then s.disk else s.disk.sync _)
        split
        · exact stays
        · exact stays
      · cases stepped
  | publish w =>
      simp only [Sys.step] at stepped
      split at stepped
      · rename_i t' i at_
        split at stepped
        · cases stepped
        · rename_i there
          obtain rfl := Option.some.inj stepped
          refine more _ ?_
          change (s.disk.rename (.temp t') (.file t')).dir (.file t) ≠ none
          rw [Disk.rename_file]
          split
          · simpa using there
          · exact here
      · cases stepped
  | quit w =>
      obtain rfl := Option.some.inj stepped
      exact stays
  | remove t' =>
      obtain rfl := Option.some.inj stepped
      refine more _ ?_
      change (s.disk.remove (.file t')).dir (.file t) ≠ none
      rw [Disk.remove_file, if_neg fun same => kept t' rfl same.symm]
      exact here
  | crash undone found =>
      obtain ⟨dir, at_, rfl⟩ := Option.map_eq_some_iff.mp stepped
      intro dir' member
      rw [List.mem_singleton.mp member]
      exact stays dir (List.mem_of_getElem? at_)

/-- A file that nobody removes does not go, whatever is written to it and however often power fails. -/
theorem Stays.run (stays : Stays t s.disk) {acts : List (FileAct ι τ β)} (kept : .remove t ∉ acts)
    (ran : s.run loose acts = some s') : Stays t s'.disk := by
  induction acts generalizing s with
  | nil =>
      obtain rfl := Option.some.inj ran
      exact stays
  | cons act rest ih =>
      obtain ⟨next, stepped, ran⟩ := Option.bind_eq_some_iff.mp ran
      refine ih (stays.step (fun t' same away => kept ?_) stepped) (fun member => kept (List.mem_cons_of_mem _ member)) ran
      rw [same, away]
      exact List.mem_cons_self

end Stays

/-! ## One replacement -/

section Replace

/-- A file replaced without a break. -/
def replace (w : ι) (t : τ) (bytes : List β) : List (FileAct ι τ β) :=
  [.start w t bytes, .put w bytes.length, .finish w, .publish w]

/-- Opening a temporary file gives an empty inode that no file is under. -/
theorem Sound.create [DecidableEq τ] (sound : Sound loose known s) (t : τ) :
    ((s.disk.create (.temp t)).1.inode (s.disk.create (.temp t)).2).bytes = [] ∧
      (s.disk.create (.temp t)).1.dir (.temp t) = some (s.disk.create (.temp t)).2 ∧
      ∀ t', (s.disk.create (.temp t)).1.dir (.file t') = s.disk.dir (.file t') ∧
        ∀ i, s.disk.dir (.file t') = some i → i ≠ (s.disk.create (.temp t)).2 ∧ (s.disk.create (.temp t)).1.inode i = s.disk.inode i := by
  have here := Sound.dir_mem s
  unfold Disk.create
  split
  · rename_i i entry
    refine ⟨congrArg Inode.bytes (Disk.setInode_self ..), entry, fun t' => ⟨rfl, fun j file => ?_⟩⟩
    have other : j ≠ i := by
      rintro rfl
      exact sound.hidden _ here t' t j entry file
    exact ⟨other, if_neg other⟩
  · refine ⟨?_, if_pos rfl, fun t' => ⟨?_, fun j file => ?_⟩⟩
    · change (if s.disk.next = s.disk.next then (⟨[], false⟩ : Inode β) else _).bytes = []
      rw [if_pos rfl]
    · change (if Slot.file t' = .temp t then some s.disk.next else s.disk.dir (.file t')) = _
      exact if_neg nofun
    · have other := Nat.ne_of_lt (sound.used _ here _ j file)
      exact ⟨other, if_neg other⟩

theorem Disk.read_remove [DecidableEq τ] (d : Disk τ β) (t t' : τ) :
    (d.remove (.file t)).read t' = if t' = t then none else d.read t' := by
  unfold Disk.read
  rw [Disk.remove_file]
  split
  · rfl
  · rfl

variable [DecidableEq ι] [DecidableEq τ] [Inhabited β] {w : ι} {t : τ} {bytes : List β}

/-- A replacement that runs to its end puts the new content under the name and leaves the other files. -/
theorem Sound.replace (sound : Sound loose known s) (idle : s.stage w = .idle) (t : τ) (bytes : List β) :
    ∃ s', s.run loose (replace w t bytes) = some s' ∧ s'.stage = s.stage ∧
      ∀ t', s'.disk.read t' = if t' = t then some bytes else s.disk.read t' := by
  obtain ⟨empty, temp, files⟩ := sound.create t
  generalize made : s.disk.create (.temp t) = opened at empty temp files
  obtain ⟨d, i⟩ := opened
  let filled := d.put i 0 bytes
  let synced := if loose t then filled else filled.sync i
  let s₁ := s.set w d (.writing t i [] bytes)
  let s₂ := s₁.set w filled (.writing t i bytes [])
  let s₃ := s₂.set w synced (.written t i)
  let s₄ := s₃.set w (synced.rename (.temp t) (.file t)) .idle
  have started : s.step loose (.start w t bytes) = some s₁ := by simp only [Sys.step, idle, made, s₁]
  have put : s₁.step loose (.put w bytes.length) = some s₂ := by
    simp only [Sys.step, s₁, s₂, Sys.set_stage_same, List.take_length, List.drop_length, List.nil_append, List.length_nil]
    rfl
  have finished : s₂.step loose (.finish w) = some s₃ := by
    simp only [Sys.step, s₂, s₃, Sys.set_stage_same]
    rfl
  have temp_ : synced.dir (.temp t) = some i := by
    change (if loose t = true then filled else filled.sync i).dir (.temp t) = some i
    split
    · exact temp
    · exact temp
  have published : s₃.step loose (.publish w) = some s₄ := by
    simp only [Sys.step, s₃, s₄, Sys.set_stage_same]
    change (if (synced.dir (.temp t)).isNone = true then none else _) = _
    rw [temp_]
    rfl
  have bytes_ : (synced.inode i).bytes = bytes := by
    have put_ : (filled.inode i).bytes = bytes := by
      have at_end := overwrite_end (d.inode i).bytes bytes
      rw [empty] at at_end
      change ((d.setInode i _).inode i).bytes = bytes
      rw [Disk.setInode_self, empty]
      exact at_end
    change ((if loose t = true then filled else filled.sync i).inode i).bytes = bytes
    split
    · exact put_
    · change ((filled.setInode i _).inode i).bytes = bytes
      rw [Disk.setInode_self]
      exact put_
  have others : ∀ j, j ≠ i → synced.inode j = d.inode j := by
    intro j other
    have put_ : filled.inode j = d.inode j := if_neg other
    change (if loose t = true then filled else filled.sync i).inode j = d.inode j
    split
    · exact put_
    · exact (if_neg other).trans put_
  have dir_ : ∀ t', synced.dir (.file t') = d.dir (.file t') := by
    intro t'
    change (if loose t = true then filled else filled.sync i).dir (.file t') = _
    split
    · rfl
    · rfl
  refine ⟨s₄, ?_, ?_, fun t' => ?_⟩
  · simp only [CrashFiles.replace, Sys.run, started, put, finished, published, Option.bind_some]
  · funext v
    by_cases same : v = w
    · subst same
      rw [Sys.set_stage_same, idle]
    · rw [Sys.set_stage_of_ne same, Sys.set_stage_of_ne same, Sys.set_stage_of_ne same, Sys.set_stage_of_ne same]
  · change ((synced.rename (.temp t) (.file t)).dir (.file t')).map (fun j => (synced.inode j).bytes) = _
    rw [Disk.rename_file, temp_, dir_]
    split
    · exact congrArg some bytes_
    · rw [(files t').1]
      cases file : s.disk.dir (.file t') with
      | none => rw [Disk.read, file]; rfl
      | some j =>
          obtain ⟨other, same⟩ := (files t').2 j file
          rw [Disk.read, file, Option.map_some, Option.map_some, others j other, same]

/-- Several files replaced one after another by the only writer. -/
theorem Sound.replaceAll [Subsingleton ι] (sound : Sound loose known s) (idle : s.stage w = .idle) (contents : List (τ × List β))
    (asked : ∀ e ∈ contents, known e.1 e.2) :
    ∃ s', s.run loose (contents.flatMap fun e => CrashFiles.replace w e.1 e.2) = some s' ∧ Sound loose known s' ∧
      s'.stage w = .idle ∧ s'.disk.read = contents.foldl (fun (read : τ → Option (List β)) e => Function.update read e.1 (some e.2)) s.disk.read := by
  induction contents generalizing s with
  | nil => exact ⟨s, rfl, sound, idle, rfl⟩
  | cons e rest ih =>
      obtain ⟨next, ran, stages, reads⟩ := Sound.replace sound idle e.1 e.2
      have here : ∀ act ∈ CrashFiles.replace w e.1 e.2, ∀ v, FileAct.asks act = some v → known v.1 v.2 := by
        intro act member v asks
        simp only [CrashFiles.replace, List.mem_cons, List.not_mem_nil, or_false] at member
        rcases member with rfl | rfl | rfl | rfl
        · obtain rfl := Option.some.inj asks
          exact asked e List.mem_cons_self
        · cases asks
        · cases asks
        · cases asks
      obtain ⟨s', ran', sound', idle', reads'⟩ := ih (sound.run (Sys.exclusive_of_alone ran) here ran)
        ((congrFun stages w).trans idle) fun other member => asked other (List.mem_cons_of_mem _ member)
      refine ⟨s', ?_, sound', idle', ?_⟩
      · rw [List.flatMap_cons, Sys.run_append, ran]
        exact ran'
      · rw [reads', List.foldl_cons]
        congr 1
        funext t'
        rw [reads, Function.update_apply]

theorem Sys.removeAll (loose : τ → Bool) (s : Sys ι τ β) (targets : List τ) : ∃ s', s.run loose (targets.map .remove) = some s' ∧
    s'.disk.read = targets.foldl (fun (read : τ → Option (List β)) t => Function.update read t none) s.disk.read := by
  induction targets generalizing s with
  | nil => exact ⟨s, rfl, rfl⟩
  | cons t rest ih =>
      obtain ⟨s', ran, reads⟩ := ih { s with disk := s.disk.remove (.file t) }
      refine ⟨s', ran, ?_⟩
      rw [reads, List.foldl_cons]
      congr 1
      funext t'
      rw [Disk.read_remove, Function.update_apply]

end Replace

end CrashFiles
