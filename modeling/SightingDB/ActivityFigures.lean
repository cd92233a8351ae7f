import SightingDB.Activity
import SightingDB.Acl
import SightingDB.Lib.Buckets
import Mathlib.Tactic.Ring

/-!
The figures of an activity report against the reads and writes they count, and what a snapshot
keeps of them.
-/
namespace SightingDB
namespace Activity

namespace Counts

instance : Zero Counts := ⟨default⟩
instance : Add Counts := ⟨add⟩

theorem add_def (a b : Counts) : a + b = ⟨a.reads + b.reads, a.writes + b.writes⟩ := rfl

theorem zero_def : (0 : Counts) = ⟨0, 0⟩ := rfl

instance : AddCommMonoid Counts where
  add_assoc a b c := by simp only [add_def, Nat.add_assoc]
  zero_add a := by simp only [add_def, zero_def, Nat.zero_add]
  add_zero a := by simp only [add_def, zero_def, Nat.add_zero]
  add_comm a b := by simp only [add_def, Nat.add_comm]
  nsmul := nsmulRec

theorem reads_sum (counts : List Counts) : counts.sum.reads = (counts.map (·.reads)).sum := by
  induction counts with
  | nil => rfl
  | cons first rest ih => rw [List.sum_cons, List.map_cons, List.sum_cons, ← ih, add_def]

theorem writes_sum (counts : List Counts) : counts.sum.writes = (counts.map (·.writes)).sum := by
  induction counts with
  | nil => rfl
  | cons first rest ih => rw [List.sum_cons, List.map_cons, List.sum_cons, ← ih, add_def]

end Counts

theorem bump_eq (buckets : CountBuckets) (now step keep : Int) (counts : Counts) :
    bump buckets now step keep counts = Buckets.bump step keep buckets now counts := by
  unfold bump Buckets.bump Buckets.startOf
  dsimp only
  cases buckets.get (now / step * step) with
  | none => rfl
  | some bucket => rfl

theorem Granularity.step_pos (granularity : Granularity) : 0 < granularity.step := by
  cases granularity <;> decide

/-- `record_read` and `record_write`. -/
def countsOf : Access → Counts
  | .read => ⟨1, 0⟩
  | .write => ⟨0, 1⟩

/-- A read or a write of a namespace, and when. -/
structure Use where
  name : String
  time : Int
  access : Access
  deriving DecidableEq

def Use.of (root : String) (use : Use) : Bool := rootOf use.name = some root

/-- What one namespace was used for. -/
def usesOf (root : String) (uses : List Use) : List (Int × Counts) :=
  (uses.filter (Use.of root)).map fun use => (use.time, countsOf use.access)

/-- How often a namespace was read, or written, from one time up to another. -/
def countUses (access : Access) (root : String) (uses : List Use) (first past : Int) : Nat :=
  uses.countP fun use => use.of root && use.access = access && (first ≤ use.time && use.time < past)

/-- What one kind of use comes to in each bucket of a window. -/
def figures (access : Access) (root : String) (uses : List Use) (step start : Int) (buckets : Nat) : List Nat :=
  (List.range buckets).map fun i : Nat => countUses access root uses (start + i * step) (start + i * step + step)

/-- A namespace retains its buckets from some time on: none of its uses has dropped one that is later. -/
def Retains (granularity : Granularity) (uses : List Use) (root : String) (first : Int) : Prop :=
  ∀ use ∈ uses, use.of root = true →
    use.time / granularity.step * granularity.step - (granularity.retained - 1) * granularity.step ≤ first

def note (activity : Activity) (use : Use) : Activity := activity.recordAt use.name use.time (countsOf use.access)

def noted (activity : Activity) (uses : List Use) : Activity := uses.foldl note activity

/-- The history of one namespace. -/
def seriesOf (activity : Activity) (root : String) : Series := (activity.roots.get root).getD .default

/-- The figures of one namespace are those of its uses, bucket by bucket, and of the window before. -/
structure Exact (report : Report) (uses : List Use) (row : RootReport) : Prop where
  reads : row.reads = figures .read row.name uses report.step report.start report.buckets
  writes : row.writes = figures .write row.name uses report.step report.start report.buckets
  total : row.total = ⟨row.reads.sum, row.writes.sum⟩
  previous : row.previous =
    ⟨countUses .read row.name uses (report.start - report.buckets * report.step) report.start,
      countUses .write row.name uses (report.start - report.buckets * report.step) report.start⟩

variable {activity : Activity} {uses : List Use} {root : String}

/-! ## Recording -/

theorem note_get (activity : Activity) (use : Use) (root : String) : (activity.note use).roots.get root =
    if use.of root then some ((activity.seriesOf root).record use.time (countsOf use.access)) else activity.roots.get root := by
  unfold note recordAt Use.of
  cases counted : rootOf use.name with
  | none => simp
  | some root' =>
      simp only [OrderedMap.get_insert, Option.some.injEq, decide_eq_true_eq]
      by_cases same : root' = root
      · subst same
        rw [if_pos rfl, if_pos rfl]
        rfl
      · rw [if_neg (Ne.symm same), if_neg same]

theorem seriesOf_note (activity : Activity) (use : Use) (root : String) : (activity.note use).seriesOf root =
    if use.of root then (activity.seriesOf root).record use.time (countsOf use.access) else activity.seriesOf root := by
  unfold seriesOf
  rw [note_get]
  split <;> rfl

theorem seriesOf_noted (activity : Activity) (uses : List Use) (root : String) : (activity.noted uses).seriesOf root =
    (usesOf root uses).foldl (fun series event => series.record event.1 event.2) (activity.seriesOf root) := by
  induction uses generalizing activity with
  | nil => rfl
  | cons use rest ih =>
      rw [noted, List.foldl_cons, ← noted, ih, seriesOf_note, usesOf, usesOf, List.filter_cons]
      split <;> rfl

theorem held_foldl_record (series : Series) (events : List (Int × Counts)) (granularity : Granularity) :
    (events.foldl (fun series event => series.record event.1 event.2) series).held granularity =
      Buckets.record granularity.step granularity.retained (series.held granularity) events := by
  induction events generalizing series with
  | nil => rfl
  | cons event rest ih =>
      have first : (series.record event.1 event.2).held granularity =
          Buckets.bump granularity.step granularity.retained (series.held granularity) event.1 event.2 := by
        cases granularity <;> exact bump_eq ..
      rw [List.foldl_cons, ih, Buckets.record, Buckets.record, List.foldl_cons, first]

/-- What is held for a namespace is what its uses leave in the buckets. -/
theorem held_noted (uses : List Use) (root : String) (granularity : Granularity) :
    ((default.noted uses).seriesOf root).held granularity =
      Buckets.record granularity.step granularity.retained ∅ (usesOf root uses) := by
  rw [seriesOf_noted, held_foldl_record]
  cases granularity <;> rfl

theorem contains_noted (uses : List Use) (root : String) :
    (default.noted uses).roots.contains root = uses.any (Use.of root) := by
  have step : ∀ activity : Activity,
      (activity.noted uses).roots.contains root = (activity.roots.contains root || uses.any (Use.of root)) := by
    induction uses with
    | nil => exact fun activity => (Bool.or_false _).symm
    | cons use rest ih =>
        intro activity
        rw [noted, List.foldl_cons, ← noted, ih, OrderedMap.contains, note_get, List.any_cons]
        cases use.of root
        · rw [if_neg (by simp), Bool.false_or]
          rfl
        · rw [if_pos rfl]
          simp
  rw [step default]
  rfl

/-! ## Counting -/

theorem between_usesOf (root : String) (uses : List Use) (first past : Int) :
    Buckets.between (usesOf root uses) first past =
      ⟨countUses .read root uses first past, countUses .write root uses first past⟩ := by
  unfold Buckets.between Buckets.within usesOf countUses
  induction uses with
  | nil => rfl
  | cons use rest ih =>
      rw [List.countP_cons, List.countP_cons, List.filter_cons]
      cases mine : use.of root with
      | false => simpa using ih
      | true =>
          rw [if_pos rfl, List.map_cons, List.filter_cons]
          cases inside : decide (first ≤ use.time) && decide (use.time < past) with
          | false => simpa using ih
          | true =>
              rw [if_pos rfl, List.map_cons, List.sum_cons, ih, Counts.add_def]
              cases use.access <;> simp [countsOf, Nat.add_comm]

/-! ## One namespace of a report -/

theorem foldl_put (step start : Int) (row : Row) (buckets : List (Int × Counts)) :
    buckets.foldl (Row.put start step) row =
      ⟨Buckets.fill (fun e => ((e.1 - start) / step).toNat) (fun e => e.2.reads) row.reads buckets,
        Buckets.fill (fun e => ((e.1 - start) / step).toNat) (fun e => e.2.writes) row.writes buckets,
        row.total + (buckets.map (·.2)).sum⟩ := by
  induction buckets generalizing row with
  | nil => simp [Buckets.fill]
  | cons bucket rest ih =>
      rw [List.foldl_cons, ih, List.map_cons, List.sum_cons, ← add_assoc]
      rfl

theorem foldl_add (sum : Counts) (buckets : List (Int × Counts)) :
    buckets.foldl (fun sum e => sum.add e.2) sum = sum + (buckets.map (·.2)).sum := by
  induction buckets generalizing sum with
  | nil => simp
  | cons bucket rest ih =>
      rw [List.foldl_cons, ih, List.map_cons, List.sum_cons, ← add_assoc]
      rfl

section Window

variable {step start : Int} {buckets : Nat} {held : CountBuckets}

/-- Up to the last bucket is up to the end of it. -/
theorem upTo_last (wide : 0 < step) (whole : step ∣ start) (starts : ∀ at_ ∈ held.keys, step ∣ at_) :
    held.entries.filter (fun e => start ≤ e.1 && e.1 ≤ start + (buckets - 1) * step) =
      Buckets.within held.entries start (start + buckets * step) := by
  apply List.filter_congr
  intro e member
  have last : e.1 ≤ start + (buckets - 1) * step ↔ e.1 < start + buckets * step := by
    obtain ⟨a, rfl⟩ := whole
    obtain ⟨b, at_⟩ := starts e.1 (List.mem_map_of_mem member)
    have low : step * a + ((buckets : Int) - 1) * step = step * (a + buckets - 1) := by ring
    have high : step * a + (buckets : Int) * step = step * (a + buckets) := by ring
    rw [at_, low, high, mul_le_mul_iff_right₀ wide, mul_lt_mul_iff_right₀ wide]
    omega
  simp only [last]

/-- A window is reported bucket by bucket, with the sum of the buckets, and the sum of those before. -/
theorem rootReport_eq (wide : 0 < step) (whole : step ∣ start) (starts : ∀ at_ ∈ held.keys, step ∣ at_) (name : String) :
    rootReport step buckets (start - buckets * step) start (start + (buckets - 1) * step) name held =
      { name := name
        reads := (Buckets.dense step held start buckets).map (·.reads)
        writes := (Buckets.dense step held start buckets).map (·.writes)
        total := (Buckets.dense step held start buckets).sum
        previous := (Buckets.dense step held (start - buckets * step) buckets).sum } := by
  have before : step ∣ start - buckets * step := Int.dvd_sub whole (Int.dvd_mul_left _ _)
  have meets : start - buckets * step + buckets * step = start := Int.sub_add_cancel _ _
  have sum : (Buckets.dense step held start buckets).sum = _ := Buckets.sum_dense_held wide whole starts
  have sumBefore : (Buckets.dense step held (start - buckets * step) buckets).sum = _ :=
    Buckets.sum_dense_held wide before starts
  rw [meets] at sumBefore
  unfold rootReport
  dsimp only
  rw [upTo_last wide whole starts, foldl_put, foldl_add, sum, sumBefore]
  congr 1
  · exact Buckets.fill_dense wide whole starts Counts.reads
  · exact Buckets.fill_dense wide whole starts Counts.writes
  · exact zero_add _
  · exact zero_add _

end Window

/-! ## The report -/

/-- The report of what was used so far. -/
def reportOf (uses : List Use) (granularity : Granularity) (end_ : Int) (buckets : Nat) (visible : String → Bool)
    (now : DateTime) : Report := (default.noted uses).report granularity end_ buckets visible now

variable {granularity : Granularity} {end_ : Int} {buckets : Nat} {visible : String → Bool} {now : DateTime}

/-- The rows of a report, each with the namespace it is of. -/
theorem mem_roots {row : RootReport} :
    row ∈ (activity.report granularity end_ buckets visible now).roots ↔
      ∃ root series, activity.roots.get root = some series ∧ visible root = true ∧
        rootReport granularity.step (window granularity buckets)
          (end_ / granularity.step * granularity.step - (window granularity buckets - 1) * granularity.step -
            window granularity buckets * granularity.step)
          (end_ / granularity.step * granularity.step - (window granularity buckets - 1) * granularity.step)
          (end_ / granularity.step * granularity.step) root (series.held granularity) = row := by
  unfold report
  simp only [List.mem_mergeSort, List.mem_map, List.mem_filter, Prod.exists, OrderedMap.mem_entries, and_assoc]

theorem seriesOf_of_get {series : Series} (found : activity.roots.get root = some series) :
    activity.seriesOf root = series := by
  rw [seriesOf, found, Option.getD_some]

/-- A bucket that is retained holds what its uses amount to. -/
theorem amountAt_noted {first at_ : Int} (retains : Retains granularity uses root first) (later : first ≤ at_)
    (whole : granularity.step ∣ at_) :
    Buckets.amountAt (((default.noted uses).seriesOf root).held granularity) at_ =
      ⟨countUses .read root uses at_ (at_ + granularity.step), countUses .write root uses at_ (at_ + granularity.step)⟩ := by
  rw [held_noted, ← between_usesOf]
  apply Buckets.amountAt_record_between granularity.step_pos whole
  intro event member
  obtain ⟨use, listed, rfl⟩ := List.mem_map.mp member
  obtain ⟨there, mine⟩ := List.mem_filter.mp listed
  exact (retains use there mine).trans later

theorem dense_noted {first : Int} (n : Nat) (retains : Retains granularity uses root first) (whole : granularity.step ∣ first) :
    (Buckets.dense granularity.step (((default.noted uses).seriesOf root).held granularity) first n).sum =
      ⟨countUses .read root uses first (first + n * granularity.step),
        countUses .write root uses first (first + n * granularity.step)⟩ := by
  rw [← between_usesOf]
  apply Buckets.sum_dense granularity.step_pos
  intro i _
  have up : (0 : Int) ≤ i * granularity.step := mul_nonneg (Int.natCast_nonneg i) granularity.step_pos.le
  rw [amountAt_noted retains (by omega) (Int.dvd_add whole (Int.dvd_mul_left _ _)), ← between_usesOf]

/-- Where a window and the one before are retained, a namespace is reported as it was used. -/
theorem rootReport_noted {start : Int} {n : Nat} (whole : granularity.step ∣ start)
    (retains : Retains granularity uses root (start - n * granularity.step)) :
    rootReport granularity.step n (start - n * granularity.step) start (start + (n - 1) * granularity.step) root
        (((default.noted uses).seriesOf root).held granularity) =
      { name := root
        reads := figures .read root uses granularity.step start n
        writes := figures .write root uses granularity.step start n
        total := ⟨(figures .read root uses granularity.step start n).sum, (figures .write root uses granularity.step start n).sum⟩
        previous := ⟨countUses .read root uses (start - n * granularity.step) start,
          countUses .write root uses (start - n * granularity.step) start⟩ } := by
  have wide := granularity.step_pos
  have before : granularity.step ∣ start - n * granularity.step := Int.dvd_sub whole (Int.dvd_mul_left _ _)
  have starts : ∀ at_ ∈ (((default.noted uses).seriesOf root).held granularity).keys, granularity.step ∣ at_ := by
    rw [held_noted]
    exact Buckets.dvd_record (fun at_ member => absurd member List.not_mem_nil) _
  have each : Buckets.dense granularity.step (((default.noted uses).seriesOf root).held granularity) start n =
      (List.range n).map fun i : Nat =>
        ⟨countUses .read root uses (start + i * granularity.step) (start + i * granularity.step + granularity.step),
          countUses .write root uses (start + i * granularity.step) (start + i * granularity.step + granularity.step)⟩ := by
    unfold Buckets.dense
    apply List.map_congr_left
    intro i _
    have up : (0 : Int) ≤ i * granularity.step := mul_nonneg (Int.natCast_nonneg i) wide.le
    have back : (0 : Int) ≤ n * granularity.step := mul_nonneg (Int.natCast_nonneg n) wide.le
    exact amountAt_noted retains (by omega) (Int.dvd_add whole (Int.dvd_mul_left _ _))
  have reads : (Buckets.dense granularity.step (((default.noted uses).seriesOf root).held granularity) start n).map
      (·.reads) = figures .read root uses granularity.step start n := by
    rw [each, List.map_map]
    rfl
  have writes : (Buckets.dense granularity.step (((default.noted uses).seriesOf root).held granularity) start n).map
      (·.writes) = figures .write root uses granularity.step start n := by
    rw [each, List.map_map]
    rfl
  have previous := dense_noted n retains before
  rw [rootReport_eq wide whole starts, previous, Int.sub_add_cancel, ← reads, ← writes, ← Counts.reads_sum, ← Counts.writes_sum]

/-- A row whose window and the one before are retained is exact. -/
theorem row_exact {row : RootReport} (member : row ∈ (reportOf uses granularity end_ buckets visible now).roots)
    (retains : Retains granularity uses row.name
      ((reportOf uses granularity end_ buckets visible now).start -
        (reportOf uses granularity end_ buckets visible now).buckets * granularity.step)) :
    Exact (reportOf uses granularity end_ buckets visible now) uses row := by
  obtain ⟨root, series, found, _, rfl⟩ := mem_roots.mp member
  change Retains granularity uses root _ at retains
  have whole : granularity.step ∣ (reportOf uses granularity end_ buckets visible now).start :=
    Int.dvd_sub (Int.dvd_mul_left _ _) (Int.dvd_mul_left _ _)
  have last : (reportOf uses granularity end_ buckets visible now).start +
      ((reportOf uses granularity end_ buckets visible now).buckets - 1) * granularity.step =
        end_ / granularity.step * granularity.step := Int.sub_add_cancel _ _
  have row := rootReport_noted whole retains
  rw [last, seriesOf_of_get found] at row
  have sums := congrArg₂ Counts.mk (congrArg (fun row => row.reads.sum) row) (congrArg (fun row => row.writes.sum) row)
  exact ⟨congrArg RootReport.reads row, congrArg RootReport.writes row, (congrArg RootReport.total row).trans sums.symm,
    congrArg RootReport.previous row⟩

/-- A report has a row for each namespace it may show that was used, and one only. -/
theorem names_report (uses : List Use) (granularity : Granularity) (end_ : Int) (buckets : Nat) (visible : String → Bool)
    (now : DateTime) : ((reportOf uses granularity end_ buckets visible now).roots.map (·.name)).Nodup ∧
      ∀ root, root ∈ (reportOf uses granularity end_ buckets visible now).roots.map (·.name) ↔
        visible root = true ∧ uses.any (Use.of root) = true := by
  constructor
  · unfold reportOf report
    refine ((List.mergeSort_perm _ _).map _).nodup_iff.mpr ?_
    rw [List.map_map]
    exact (default.noted uses).roots.keys_nodup.sublist (List.filter_sublist.map _)
  · intro root
    rw [← contains_noted, OrderedMap.contains_iff, List.mem_map]
    constructor
    · rintro ⟨row, member, rfl⟩
      obtain ⟨root, series, found, shown, rfl⟩ := mem_roots.mp member
      exact ⟨shown, series, found⟩
    · rintro ⟨shown, series, found⟩
      exact ⟨_, mem_roots.mpr ⟨root, series, found, shown, rfl⟩, rfl⟩

/-! ## Saving and restoring -/

/-- A report looks at the counts and whether they are on. -/
theorem report_congr {other : Activity} (enabled : activity.enabled = other.enabled) (roots : activity.roots = other.roots) :
    activity.report granularity end_ buckets visible now = other.report granularity end_ buckets visible now := by
  unfold report
  rw [enabled, roots]

theorem noted_congr {other : Activity} (enabled : activity.enabled = other.enabled) (roots : activity.roots = other.roots)
    (uses : List Use) : (activity.noted uses).enabled = (other.noted uses).enabled ∧
      (activity.noted uses).roots = (other.noted uses).roots := by
  induction uses generalizing activity other with
  | nil => exact ⟨enabled, roots⟩
  | cons use rest ih =>
      rw [noted, noted, List.foldl_cons, List.foldl_cons]
      apply ih
      · unfold note recordAt
        split <;> exact enabled
      · unfold note recordAt
        split
        · exact roots
        · dsimp only
          rw [roots]

theorem noted_append (activity : Activity) (before after : List Use) :
    activity.noted (before ++ after) = (activity.noted before).noted after := List.foldl_append

theorem enabled_noted (activity : Activity) (uses : List Use) : (activity.noted uses).enabled = activity.enabled := by
  induction uses generalizing activity with
  | nil => rfl
  | cons use rest ih =>
      rw [noted, List.foldl_cons, ← noted, ih]
      unfold note recordAt
      split <;> rfl

/-- An empty map of buckets takes over what was saved. -/
theorem addBuckets_empty (saved : CountBuckets) : addBuckets ∅ saved = saved := by
  apply OrderedMap.ext_get
  intro at_
  have each := OrderedMap.get_foldl_insert (fun _ bucket counts => (bucket.getD Counts.default).add counts) saved.entries
    saved.keys_nodup ∅ at_
  have there : saved.get at_ = OrderedMap.lookup at_ saved.entries := rfl
  unfold addBuckets
  rw [each, there]
  cases OrderedMap.lookup at_ saved.entries with
  | none => rfl
  | some counts => exact congrArg some (zero_add counts)

/-- A server that has counted nothing takes over what was saved. -/
theorem restore_default (data : ActivityData) : default.restore data = { default with roots := data } := by
  unfold restore
  congr 1
  apply OrderedMap.ext_get
  intro root
  have each := OrderedMap.get_foldl_insert
    (fun _ series (saved : Series) => (⟨addBuckets (series.getD Series.default).hourly saved.hourly,
      addBuckets (series.getD Series.default).daily saved.daily⟩ : Series)) data.entries data.keys_nodup default.roots root
  have there : data.get root = OrderedMap.lookup root data.entries := rfl
  refine each.trans ?_
  rw [there]
  cases OrderedMap.lookup root data.entries with
  | none => rfl
  | some saved => exact congrArg some (congrArg₂ Series.mk (addBuckets_empty saved.hourly) (addBuckets_empty saved.daily))

/-- A history holds something as soon as anything was used. -/
theorem bump_nonempty (buckets : CountBuckets) (now step : Int) (keep : Nat) (counts : Counts) (wide : 0 < step)
    (some_ : 0 < keep) : (bump buckets now step keep counts).entries ≠ [] := by
  have held : ∃ bucket, (bump buckets now step keep counts).get (now / step * step) = some bucket := by
    unfold bump
    dsimp only
    cases buckets.get (now / step * step) with
    | some bucket => exact ⟨_, OrderedMap.get_insert_self _ _ _⟩
    | none =>
        have room : (0 : Int) ≤ (keep - 1) * step := mul_nonneg (by omega) wide.le
        have kept : now / step * step - (keep - 1) * step ≤ now / step * step := by omega
        refine ⟨counts, ?_⟩
        rw [OrderedMap.get_filter, OrderedMap.get_insert_self, Option.filter_some, if_pos (decide_eq_true kept)]
  obtain ⟨bucket, found⟩ := held
  exact List.ne_nil_of_mem (OrderedMap.mem_entries.mpr found)

/-- No history of a namespace in use is empty. -/
def Kept (activity : Activity) : Prop := ∀ root series, activity.roots.get root = some series → series.isEmpty = false

theorem note_kept (kept : activity.Kept) (use : Use) : (activity.note use).Kept := by
  intro root series found
  rw [note_get] at found
  split at found
  · obtain rfl := Option.some.inj found
    have hourly := bump_nonempty (activity.seriesOf root).hourly use.time (Granularity.step .hour)
      (Granularity.retained .hour) (countsOf use.access) (by decide) (by decide)
    unfold Series.isEmpty Series.record
    rw [List.isEmpty_eq_false_iff.mpr hourly, Bool.false_and]
  · exact kept root series found

theorem noted_kept (uses : List Use) : (default.noted uses).Kept := by
  have run : ∀ activity : Activity, activity.Kept → (activity.noted uses).Kept := by
    induction uses with
    | nil => exact fun _ kept => kept
    | cons use rest ih => exact fun activity kept => ih _ (note_kept kept use)
  exact run default fun root series found => by cases found

theorem takeSnapshot_roots (uses : List Use) :
    (default.noted uses).roots.filter (fun _ series => !series.isEmpty) = (default.noted uses).roots := by
  apply OrderedMap.ext_get
  intro root
  rw [OrderedMap.get_filter]
  cases found : (default.noted uses).roots.get root with
  | none => rfl
  | some series => rw [Option.filter_some, noted_kept uses root series found, Bool.not_false, if_pos rfl]

/-- What a snapshot saves, put back, reports as if the server had gone on. -/
theorem report_restored {before : List Use} {force : Bool} {data : ActivityData}
    (saved : ((default.noted before).takeSnapshot force).1 = some data) (after : List Use) :
    ((default.restore data).noted after).report granularity end_ buckets visible now =
      reportOf (before ++ after) granularity end_ buckets visible now := by
  unfold takeSnapshot at saved
  split at saved
  · cases saved
  · have kept : (default.noted before).roots = data := (takeSnapshot_roots before).symm.trans (Option.some.inj saved)
    have on : (default.restore data).enabled = (default.noted before).enabled := by rw [restore_default, enabled_noted]
    have roots : (default.restore data).roots = (default.noted before).roots := by rw [restore_default, kept]
    have same := noted_congr on roots after
    rw [reportOf, noted_append]
    exact report_congr same.1 same.2

/-! ## Exactness -/

/-- Whatever was read and written, a report is exact for every namespace that still retains the window asked for and the one
before; the last bucket is the one that holds the end asked for. A snapshot taken at any point and put back by a server that
then sees the rest reports the same. -/
theorem report_exact (uses : List Use) (granularity : Granularity) (end_ : Int) (buckets : Nat) (visible : String → Bool)
    (now : DateTime) :
    let report := (default.noted uses).report granularity end_ buckets visible now
    (report.start + (report.buckets - 1) * report.step ≤ end_ ∧ end_ < report.start + report.buckets * report.step) ∧
    ((report.roots.map (·.name)).Nodup ∧
      ∀ root, root ∈ report.roots.map (·.name) ↔ visible root = true ∧ uses.any (Use.of root) = true) ∧
    (∀ row ∈ report.roots,
      Retains granularity uses row.name (report.start - report.buckets * report.step) → Exact report uses row) ∧
    ∀ before after force data, uses = before ++ after → ((default.noted before).takeSnapshot force).1 = some data →
      ((default.restore data).noted after).report granularity end_ buckets visible now = report := by
  intro report
  have low := Buckets.startOf_le granularity.step_pos end_
  have high := Buckets.lt_startOf granularity.step_pos end_
  have last : report.start + (report.buckets - 1) * report.step = Buckets.startOf granularity.step end_ :=
    Int.sub_add_cancel _ _
  have past : report.start + report.buckets * report.step = Buckets.startOf granularity.step end_ + granularity.step := by
    rw [← last, Int.add_assoc, Int.sub_mul, Int.one_mul]
    exact congrArg _ (Int.sub_add_cancel _ _).symm
  refine ⟨⟨last.trans_le low, high.trans_eq past.symm⟩, names_report uses granularity end_ buckets visible now,
    fun row member retains => row_exact member retains, ?_⟩
  intro before after force data split saved
  rw [report_restored saved after, ← split]
  rfl

/-- A read, and a write an hour later. -/
def hourApart : List Use := [⟨"feeds/misp", 3600, .read⟩, ⟨"feeds", 7300, .write⟩]

theorem report_exact_hourApart :
    Exact (reportOf hourApart .hour 7300 2 (fun _ => true) .unixEpoch) hourApart ⟨"feeds", [1, 0], [0, 1], ⟨1, 1⟩, ⟨0, 0⟩⟩ ∧
      ((default.restore (default.noted [⟨"feeds/misp", 3600, .read⟩]).roots).noted [⟨"feeds", 7300, .write⟩]).report .hour
        7300 2 (fun _ => true) .unixEpoch = reportOf hourApart .hour 7300 2 (fun _ => true) .unixEpoch := by
  have member : (⟨"feeds", [1, 0], [0, 1], ⟨1, 1⟩, ⟨0, 0⟩⟩ : RootReport) ∈
      (reportOf hourApart .hour 7300 2 (fun _ => true) .unixEpoch).roots :=
    mem_roots.mpr ⟨"feeds", (default.noted hourApart).seriesOf "feeds", by decide, rfl, by decide⟩
  obtain ⟨_, _, exact_, restored⟩ := report_exact hourApart .hour 7300 2 (fun _ => true) .unixEpoch
  constructor
  · apply exact_ _ member
    unfold Retains
    decide
  · exact restored [⟨"feeds/misp", 3600, .read⟩] [⟨"feeds", 7300, .write⟩] false _ rfl (by decide)

end Activity

end SightingDB
