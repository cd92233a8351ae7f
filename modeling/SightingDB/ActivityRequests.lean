import SightingDB.ActivityFigures
import SightingDB.Attribute
import SightingDB.Lib.Checks
import Mathlib.Algebra.Order.BigOperators.Group.List

/-!
A request for a report, in the machine's numbers. The end is any 64-bit number: what can go wrong
on the way from it to the report, and for which ends nothing does.
-/
namespace SightingDB
namespace Activity

/-- What stops a request. -/
inductive Crash
  | overflow
  | index
  | range
  deriving DecidableEq

/-- A build that checks its arithmetic, as for debugging, or one that lets it wrap. -/
inductive Build
  | checked
  | wrapping
  deriving DecidableEq

def i64Size : Nat := 2 ^ 64

def i64Max : Int := 2 ^ 63

abbrev FitsI64 (x : Int) : Prop := -i64Max ≤ x ∧ x < i64Max

/-- An `i64` with this value, or what it becomes. -/
def Build.i64 : Build → Int → Except Crash Int
  | .checked, x => Checks.check .overflow (FitsI64 x) x
  | .wrapping, x => .ok (x.bmod i64Size)

def Build.u64 : Build → Nat → Except Crash Nat
  | .checked, n => Checks.check .overflow (n < u64Size) n
  | .wrapping, n => .ok (n % u64Size)

/-- `as usize`. -/
def asUsize (x : Int) : Nat := (x % u64Size).toNat

/-- `Counts::add`. -/
def Build.add (build : Build) (counts other : Counts) : Except Crash Counts := do
  let reads ← build.u64 (counts.reads + other.reads)
  let writes ← build.u64 (counts.writes + other.writes)
  return ⟨reads, writes⟩

/-- `BTreeMap::range`, both ends included. -/
def rangeTo (held : CountBuckets) (first last : Int) : Except Crash (List (Int × Counts)) :=
  if first ≤ last then .ok (held.entries.filter fun e => first ≤ e.1 && e.1 ≤ last) else .error .range

/-- `BTreeMap::range`, the second end left out. -/
def rangeBelow (held : CountBuckets) (first past : Int) : Except Crash (List (Int × Counts)) :=
  if first ≤ past then .ok (held.entries.filter fun e => first ≤ e.1 && e.1 < past) else .error .range

/-- `row[i] = n`. -/
def setAt (row : List Nat) (i n : Nat) : Except Crash (List Nat) :=
  if i < row.length then .ok (row.set i n) else .error .index

def Build.put (build : Build) (start step : Int) (row : Row) (bucket : Int × Counts) : Except Crash Row := do
  let offset ← build.i64 (bucket.1 - start)
  let i := asUsize (offset.tdiv step)
  let reads ← setAt row.reads i bucket.2.reads
  let writes ← setAt row.writes i bucket.2.writes
  let total ← build.add row.total bucket.2
  return ⟨reads, writes, total⟩

def Build.rootReport (build : Build) (step : Int) (buckets : Nat) (previousStart start last : Int) (name : String)
    (held : CountBuckets) : Except Crash RootReport := do
  let inside ← rangeTo held start last
  let row ← inside.foldlM (build.put start step) ⟨List.replicate buckets 0, List.replicate buckets 0, .default⟩
  let before ← rangeBelow held previousStart start
  let previous ← before.foldlM (fun sum e => build.add sum e.2) .default
  return ⟨name, row.reads, row.writes, row.total, previous⟩

/-- What the rows are sorted by first. -/
def Build.weight (build : Build) (row : RootReport) : Nat :=
  match build with
  | .checked => row.total.reads + row.total.writes
  | .wrapping => (row.total.reads + row.total.writes) % u64Size

/-- A sort of two rows or more adds up the total of each. -/
def Build.sort (build : Build) (rows : List RootReport) : Except Crash (List RootReport) := do
  if 2 ≤ rows.length then
    let _ ← rows.mapM fun row => build.u64 (row.total.reads + row.total.writes)
  return rows.mergeSort fun a b =>
    build.weight b < build.weight a || (build.weight a = build.weight b && a.name ≤ b.name)

/-- Where the window before starts, where the window does, and its last bucket. -/
def Build.starts (build : Build) (step : Int) (buckets : Nat) (end_ : Int) : Except Crash (Int × Int × Int) := do
  let last ← build.i64 (end_ / step * step)
  let back ← build.i64 ((buckets - 1) * step)
  let start ← build.i64 (last - back)
  let width ← build.i64 (buckets * step)
  let previousStart ← build.i64 (start - width)
  return (previousStart, start, last)

/-- The report, once it is known where its windows start. -/
def Build.reportFrom (build : Build) (activity : Activity) (granularity : Granularity) (buckets : Nat) (visible : String → Bool)
    (now : DateTime) (previousStart start last : Int) : Except Crash Report := do
  let shown := activity.roots.entries.filter fun e => visible e.1
  let rows ← shown.mapM fun e =>
    build.rootReport granularity.step buckets previousStart start last e.1 (e.2.held granularity)
  let roots ← build.sort rows
  return {
    enabled := activity.enabled
    granularity := granularity
    step := granularity.step
    start := start
    buckets := buckets
    oldest := oldestOf (shown.map fun e => e.2.held granularity)
    now := now.timestamp / granularity.step * granularity.step
    roots := roots }

/-- `report`, in the machine's numbers. -/
def Build.report (build : Build) (activity : Activity) (granularity : Granularity) (end_ : Int) (buckets : Nat)
    (visible : String → Bool) (now : DateTime) : Except Crash Report := do
  let (previousStart, start, last) ← build.starts granularity.step (window granularity buckets) end_
  build.reportFrom activity granularity (window granularity buckets) visible now previousStart start last

/-! ## What has to fit -/

/-- Both numbers fit in 64 bits. -/
abbrev Counts.Fits (counts : Counts) : Prop := counts.reads < u64Size ∧ counts.writes < u64Size

/-- The sums of one row fit in 64 bits. -/
abbrev RootReport.Fits (row : RootReport) : Prop := row.total.Fits ∧ row.previous.Fits

/-- The sums of a report fit in 64 bits, and the totals its rows are sorted by. -/
abbrev Report.Fits (report : Report) : Prop :=
  (∀ row ∈ report.roots, row.Fits) ∧
    (2 ≤ report.roots.length → ∀ row ∈ report.roots, row.total.reads + row.total.writes < u64Size)

/-- The start of the first bucket whose start is an `i64`. -/
def earliest (granularity : Granularity) : Int := -(i64Max / granularity.step * granularity.step)

/-- The window and the one before start no earlier than that. -/
abbrev InReach (granularity : Granularity) (end_ : Int) (buckets : Nat) : Prop :=
  earliest granularity + (2 * window granularity buckets - 1) * granularity.step ≤ end_

variable {step start : Int} {buckets : Nat}

theorem Build.add_checked (counts other : Counts) :
    Build.checked.add counts other = Checks.check .overflow (counts.add other).Fits (counts.add other) := by
  unfold Build.add
  apply Checks.check_bind
  intro _
  exact Checks.check_map _ _

theorem setAt_of_lt {row : List Nat} {i : Nat} (room : i < row.length) (n : Nat) : setAt row i n = .ok (row.set i n) := if_pos room

/-- A bucket of the window has a place in the row, and only the sums can fail. -/
theorem Build.put_checked (wide : 0 < step) (few : (buckets : Int) * step < i64Max) {row : Row} {bucket : Int × Counts}
    (reads : row.reads.length = buckets) (writes : row.writes.length = buckets) (low : start ≤ bucket.1)
    (high : bucket.1 ≤ start + (buckets - 1) * step) :
    Build.checked.put start step row bucket =
      Checks.check .overflow (row.put start step bucket).total.Fits (row.put start step bucket) := by
  have offset : 0 ≤ bucket.1 - start := by omega
  have within : bucket.1 - start < buckets * step := by
    have split : (buckets - 1) * step = buckets * step - step := by ring
    omega
  have fits : FitsI64 (bucket.1 - start) := ⟨by unfold i64Max; omega, by omega⟩
  have place : (bucket.1 - start) / step < buckets := Int.ediv_lt_of_lt_mul wide within
  have positive : 0 ≤ (bucket.1 - start) / step := Int.ediv_nonneg offset wide.le
  have small : (buckets : Int) ≤ buckets * step := le_mul_of_one_le_right (Int.natCast_nonneg _) (Int.add_one_le_of_lt wide)
  have word : (bucket.1 - start) / step % (u64Size : Int) = (bucket.1 - start) / step := by
    apply Int.emod_eq_of_lt positive
    unfold u64Size
    unfold i64Max at few
    omega
  have index : asUsize ((bucket.1 - start).tdiv step) = ((bucket.1 - start) / step).toNat := by
    rw [Int.tdiv_eq_ediv_of_nonneg offset, asUsize, word]
  have room : ((bucket.1 - start) / step).toNat < buckets := by omega
  unfold Build.put
  rw [Build.i64, Checks.check_of fits]
  dsimp only [bind, Except.bind]
  rw [index, setAt_of_lt (room.trans_eq reads.symm), setAt_of_lt (room.trans_eq writes.symm)]
  dsimp only
  rw [Build.add_checked]
  exact Checks.check_map _ _

theorem fits_of_add {counts other : Counts} (fits : (counts.add other).Fits) : counts.Fits :=
  ⟨(Nat.le_add_right _ _).trans_lt fits.1, (Nat.le_add_right _ _).trans_lt fits.2⟩

/-- The row keeps a place for every bucket, and what is added never makes a sum smaller. -/
theorem Build.foldlM_put (wide : 0 < step) (few : (buckets : Int) * step < i64Max) {bucketsHeld : List (Int × Counts)}
    (inside : ∀ bucket ∈ bucketsHeld, start ≤ bucket.1 ∧ bucket.1 ≤ start + (buckets - 1) * step) (row : Row)
    (reads : row.reads.length = buckets) (writes : row.writes.length = buckets) (fits : row.total.Fits) :
    bucketsHeld.foldlM (Build.checked.put start step) row =
      Checks.check .overflow (bucketsHeld.foldl (Row.put start step) row).total.Fits (bucketsHeld.foldl (Row.put start step) row) := by
  apply Checks.foldlM_check (fun row : Row => row.total.Fits) fun row : Row =>
    row.reads.length = buckets ∧ row.writes.length = buckets
  · intro row long bucket member
    exact Build.put_checked wide few long.1 long.2 (inside bucket member).1 (inside bucket member).2
  · intro row bucket long
    exact ⟨List.length_set.trans long.1, List.length_set.trans long.2⟩
  · intro row bucket fits
    exact fits_of_add fits
  · exact ⟨reads, writes⟩
  · exact fits

theorem Build.foldlM_add (bucketsHeld : List (Int × Counts)) {sum : Counts} (fits : sum.Fits) :
    bucketsHeld.foldlM (fun sum e => Build.checked.add sum e.2) sum =
      Checks.check .overflow (bucketsHeld.foldl (fun sum e => sum.add e.2) sum).Fits
        (bucketsHeld.foldl (fun sum e => sum.add e.2) sum) := by
  apply Checks.foldlM_check (fun sum : Counts => sum.Fits) fun _ => True
  · intro sum _ bucket _
    exact Build.add_checked sum bucket.2
  · intro sum bucket _
    trivial
  · intro sum bucket fits
    exact fits_of_add fits
  · trivial
  · exact fits

/-- Nothing but a sum can fail in the report of one namespace. -/
theorem Build.rootReport_checked (wide : 0 < step) (some_ : 0 < buckets) (few : (buckets : Int) * step < i64Max) (name : String)
    (held : CountBuckets) :
    Build.checked.rootReport step buckets (start - buckets * step) start (start + (buckets - 1) * step) name held =
      Checks.check .overflow
        (Activity.rootReport step buckets (start - buckets * step) start (start + (buckets - 1) * step) name held).Fits
        (Activity.rootReport step buckets (start - buckets * step) start (start + (buckets - 1) * step) name held) := by
  have ahead : (0 : Int) ≤ (buckets - 1) * step := mul_nonneg (by omega) wide.le
  have back : (0 : Int) ≤ buckets * step := mul_nonneg (by omega) wide.le
  have zero : Counts.default.Fits := by decide
  have inside : ∀ bucket ∈ held.entries.filter fun e => start ≤ e.1 && e.1 ≤ start + (buckets - 1) * step,
      start ≤ bucket.1 ∧ bucket.1 ≤ start + (buckets - 1) * step := by
    intro bucket member
    have range := (List.mem_filter.mp member).2
    rwa [Bool.and_eq_true, decide_eq_true_eq, decide_eq_true_eq] at range
  have row := Build.foldlM_put wide few inside ⟨List.replicate buckets 0, List.replicate buckets 0, .default⟩
    List.length_replicate List.length_replicate zero
  unfold Build.rootReport rangeTo rangeBelow Activity.rootReport
  rw [if_pos (Int.le_add_of_nonneg_right ahead), if_pos (Int.sub_le_self start back)]
  dsimp only [bind, Except.bind]
  rw [row]
  apply Checks.check_bind
  intro _
  dsimp only
  rw [Build.foldlM_add _ zero]
  exact Checks.check_map _ _

/-- Only the totals can fail in the sort, and only where rows are compared. -/
theorem Build.sort_checked (rows : List RootReport) :
    Build.checked.sort rows =
      Checks.check .overflow (2 ≤ rows.length → ∀ row ∈ rows, row.total.reads + row.total.writes < u64Size) (rows.mergeSort busier) := by
  unfold Build.sort
  split
  · rename_i two
    have weights : rows.mapM (fun row => Build.checked.u64 (row.total.reads + row.total.writes)) =
        Checks.check .overflow (∀ row ∈ rows, row.total.reads + row.total.writes < u64Size)
          (rows.map fun row => row.total.reads + row.total.writes) := Checks.mapM_check fun row _ => rfl
    rw [weights]
    refine (Checks.check_map (fun _ => rows.mergeSort busier) _).trans (Checks.check_congr ?_ fun _ => rfl)
    exact ⟨fun fits _ => fits, fun fits => fits two⟩
  · rename_i few
    exact (Checks.check_of (fun two => absurd two few) _).symm

/-! ## The report -/

/-- The counts of the buckets that start within some bounds, added up. -/
def sumWhere (held : CountBuckets) (within : Int → Bool) : Counts := ((held.entries.filter fun e => within e.1).map (·.2)).sum

section Sums

variable (activity : Activity) (granularity : Granularity) (end_ : Int) (buckets : Nat) (visible : String → Bool)

/-- The histories a report is about. -/
def shown : List (String × CountBuckets) :=
  (activity.roots.entries.filter fun e => visible e.1).map fun e => (e.1, e.2.held granularity)

/-- The start of the last bucket asked for, and of the first. -/
def lastStart : Int := end_ / granularity.step * granularity.step

def firstStart : Int := lastStart granularity end_ - (window granularity buckets - 1) * granularity.step

/-- What is held from the first bucket asked for to the last. -/
def windowSum (held : CountBuckets) : Counts :=
  sumWhere held fun at_ => firstStart granularity end_ buckets ≤ at_ && at_ ≤ lastStart granularity end_

/-- What is held in the window of the same length before. -/
def previousSum (held : CountBuckets) : Counts :=
  sumWhere held fun at_ => firstStart granularity end_ buckets - window granularity buckets * granularity.step ≤ at_ &&
    at_ < firstStart granularity end_ buckets

/-- What is held is not too much to be added up: for a namespace, and, where there are several, its reads and its writes. -/
abbrev SumsFit : Prop :=
  (∀ e ∈ activity.shown granularity visible,
    (windowSum granularity end_ buckets e.2).Fits ∧ (previousSum granularity end_ buckets e.2).Fits) ∧
  (2 ≤ (activity.shown granularity visible).length → ∀ e ∈ activity.shown granularity visible,
    (windowSum granularity end_ buckets e.2).reads + (windowSum granularity end_ buckets e.2).writes < u64Size)

end Sums

variable {granularity : Granularity} {end_ : Int} {activity : Activity} {visible : String → Bool} {now : DateTime}

theorem rootReport_total (previousStart last : Int) (name : String) (held : CountBuckets) :
    (rootReport step buckets previousStart start last name held).total =
      sumWhere held fun at_ => start ≤ at_ && at_ ≤ last := by
  unfold rootReport sumWhere
  dsimp only
  rw [foldl_put]
  exact zero_add _

theorem rootReport_previous (previousStart last : Int) (name : String) (held : CountBuckets) :
    (rootReport step buckets previousStart start last name held).previous =
      sumWhere held fun at_ => previousStart ≤ at_ && at_ < start := by
  unfold rootReport sumWhere
  dsimp only
  rw [foldl_add]
  exact zero_add _

theorem window_pos (granularity : Granularity) (buckets : Nat) : 0 < window granularity buckets := by
  unfold window
  omega

/-- Twice the widest window is far from the ends of the range. -/
theorem window_small (granularity : Granularity) (buckets : Nat) :
    (window granularity buckets : Int) * granularity.step < i64Max := by
  unfold window i64Max
  cases granularity <;> simp only [Granularity.retained, Granularity.step] <;> omega

/-- The window before starts within reach exactly if the end lies so far from the end of the range. -/
theorem inReach_iff : InReach granularity end_ buckets ↔
    -i64Max ≤ firstStart granularity end_ buckets - window granularity buckets * granularity.step := by
  have wide := granularity.step_pos
  unfold InReach firstStart
  generalize window granularity buckets = n
  have first : lastStart granularity end_ - ((n : Int) - 1) * granularity.step - n * granularity.step =
      (end_ / granularity.step - (2 * n - 1)) * granularity.step := by
    unfold lastStart
    ring
  have bound : earliest granularity + (2 * (n : Int) - 1) * granularity.step =
      (2 * n - 1 - i64Max / granularity.step) * granularity.step := by
    unfold earliest
    ring
  have start : -i64Max ≤ (end_ / granularity.step - (2 * (n : Int) - 1)) * granularity.step ↔
      2 * (n : Int) - 1 - end_ / granularity.step ≤ i64Max / granularity.step := by
    rw [Int.le_ediv_iff_mul_le wide, ← Int.neg_le_neg_iff, Int.neg_neg, ← Int.neg_mul, Int.neg_sub]
  rw [first, bound, start, ← Int.le_ediv_iff_mul_le wide]
  omega

/-- From an end that is an `i64`, nothing but that start can fall out of range. -/
theorem Build.starts_checked (low : -i64Max ≤ end_) (high : end_ < i64Max) :
    Build.checked.starts granularity.step (window granularity buckets) end_ =
      Checks.check .overflow (InReach granularity end_ buckets)
        (firstStart granularity end_ buckets - window granularity buckets * granularity.step,
          firstStart granularity end_ buckets, lastStart granularity end_) := by
  have small := window_small granularity buckets
  have some_ := window_pos granularity buckets
  have wide := granularity.step_pos
  have most : lastStart granularity end_ ≤ end_ := Int.ediv_mul_le end_ wide.ne'
  have ahead : (0 : Int) ≤ (window granularity buckets - 1) * granularity.step := mul_nonneg (by omega) wide.le
  have less : (window granularity buckets - 1) * granularity.step =
      window granularity buckets * granularity.step - granularity.step := by ring
  have first : firstStart granularity end_ buckets =
      lastStart granularity end_ - (window granularity buckets - 1) * granularity.step := rfl
  have chain : Build.checked.starts granularity.step (window granularity buckets) end_ =
      Checks.check .overflow (FitsI64 (lastStart granularity end_) ∧
        FitsI64 ((window granularity buckets - 1) * granularity.step) ∧ FitsI64 (firstStart granularity end_ buckets) ∧
        FitsI64 (window granularity buckets * granularity.step) ∧
        FitsI64 (firstStart granularity end_ buckets - window granularity buckets * granularity.step)) _ :=
    Checks.check_bind _ fun _ => Checks.check_bind _ fun _ => Checks.check_bind _ fun _ => Checks.check_bind _ fun _ =>
      Checks.check_map _ _
  refine chain.trans (Checks.check_congr ?_ fun _ => rfl)
  rw [inReach_iff]
  constructor
  · intro fits
    exact fits.2.2.2.2.1
  · intro reach
    unfold FitsI64
    omega

/-- The report of one namespace fails only where a sum of what it holds does not fit. -/
theorem Build.rootReport_sums (name : String) (held : CountBuckets) :
    Build.checked.rootReport granularity.step (window granularity buckets)
        (firstStart granularity end_ buckets - window granularity buckets * granularity.step)
        (firstStart granularity end_ buckets) (lastStart granularity end_) name held =
      Checks.check .overflow ((windowSum granularity end_ buckets held).Fits ∧ (previousSum granularity end_ buckets held).Fits)
        (Activity.rootReport granularity.step (window granularity buckets)
          (firstStart granularity end_ buckets - window granularity buckets * granularity.step)
          (firstStart granularity end_ buckets) (lastStart granularity end_) name held) := by
  have last : lastStart granularity end_ =
      firstStart granularity end_ buckets + (window granularity buckets - 1) * granularity.step := (Int.sub_add_cancel _ _).symm
  have checked := @Build.rootReport_checked granularity.step (firstStart granularity end_ buckets) (window granularity buckets)
    granularity.step_pos (window_pos granularity buckets) (window_small granularity buckets) name held
  rw [← last] at checked
  refine checked.trans (Checks.check_congr ?_ fun _ => rfl)
  unfold RootReport.Fits windowSum previousSum
  rw [rootReport_total, rootReport_previous]

/-- Once its windows are known to start within reach, a report fails only where a sum does not fit. -/
theorem Build.reportFrom_checked :
    Build.checked.reportFrom activity granularity (window granularity buckets) visible now
        (firstStart granularity end_ buckets - window granularity buckets * granularity.step)
        (firstStart granularity end_ buckets) (lastStart granularity end_) =
      Checks.check .overflow (activity.SumsFit granularity end_ buckets visible)
        (activity.report granularity end_ buckets visible now) := by
  have rows : ((activity.roots.entries.filter fun e => visible e.1).mapM fun e => Build.checked.rootReport granularity.step
      (window granularity buckets) (firstStart granularity end_ buckets - window granularity buckets * granularity.step)
      (firstStart granularity end_ buckets) (lastStart granularity end_) e.1 (e.2.held granularity)) = _ :=
    Checks.mapM_check fun e _ => Build.rootReport_sums e.1 (e.2.held granularity)
  have sorted : ∀ rows : List RootReport, (Build.checked.sort rows >>= fun roots =>
      pure { activity.report granularity end_ buckets visible now with roots := roots }) =
        Checks.check .overflow (2 ≤ rows.length → ∀ row ∈ rows, row.total.reads + row.total.writes < u64Size)
          { activity.report granularity end_ buckets visible now with roots := rows.mergeSort busier } := by
    intro rows
    rw [Build.sort_checked]
    exact Checks.check_map _ _
  unfold Build.reportFrom
  dsimp only
  rw [rows]
  refine (Checks.check_bind (fun rows => Build.checked.sort rows >>= fun roots =>
    pure { activity.report granularity end_ buckets visible now with roots := roots }) fun _ => sorted _).trans
      (Checks.check_congr ?_ fun _ => rfl)
  unfold SumsFit shown
  simp only [List.forall_mem_map, List.length_map, rootReport_total]
  rfl

/-- A request that checks its arithmetic gives the report, or stops where a start or a sum does not fit; it never asks for
ends the wrong way round, nor for a place that a row does not have. -/
theorem Build.report_checked (low : -i64Max ≤ end_) (high : end_ < i64Max) :
    Build.checked.report activity granularity end_ buckets visible now =
      Checks.check .overflow (InReach granularity end_ buckets ∧ activity.SumsFit granularity end_ buckets visible)
        (activity.report granularity end_ buckets visible now) := by
  unfold Build.report
  rw [Build.starts_checked low high]
  apply Checks.check_bind
  intro _
  exact Build.reportFrom_checked

/-- All that is counted in some buckets, reads and writes together. -/
def load (held : CountBuckets) : Nat := (held.mapValues fun _ counts => counts.reads + counts.writes).total

theorem mapValues_insert (held : CountBuckets) (at_ : Int) (counts : Counts) (f : Counts → Nat) :
    (held.insert at_ counts).mapValues (fun _ counts => f counts) = (held.mapValues fun _ counts => f counts).insert at_ (f counts) := by
  apply OrderedMap.ext_get
  intro at'
  rw [OrderedMap.get_mapValues, OrderedMap.get_insert, OrderedMap.get_insert, OrderedMap.get_mapValues]
  split <;> rfl

theorem load_insert (held : CountBuckets) (at_ : Int) (counts : Counts) :
    load (held.insert at_ counts) + ((held.get at_).getD .default).reads + ((held.get at_).getD .default).writes =
      load held + counts.reads + counts.writes := by
  have total := OrderedMap.total_insert (held.mapValues fun _ counts => counts.reads + counts.writes) at_
    (counts.reads + counts.writes)
  have before : ((held.mapValues fun _ counts => counts.reads + counts.writes).get at_).getD 0 =
      ((held.get at_).getD .default).reads + ((held.get at_).getD .default).writes := by
    rw [OrderedMap.get_mapValues]
    cases held.get at_ <;> rfl
  unfold load
  rw [mapValues_insert held at_ counts fun counts => counts.reads + counts.writes]
  omega

theorem load_filter (held : CountBuckets) (kept : Int → Counts → Bool) : load (held.filter kept) ≤ load held := by
  unfold load OrderedMap.total
  apply List.Sublist.sum_le_sum
  · exact (List.filter_sublist.map _).map _
  · intro n _
    exact Nat.zero_le n

theorem load_bump (held : CountBuckets) (now step keep : Int) (counts : Counts) :
    load (bump held now step keep counts) ≤ load held + counts.reads + counts.writes := by
  have opened := load_insert held (now / step * step) counts
  unfold bump
  dsimp only
  cases found : held.get (now / step * step) with
  | none => exact (load_filter _ _).trans (by omega)
  | some bucket =>
      have added := load_insert held (now / step * step) (bucket.add counts)
      rw [found, Option.getD_some] at added
      change _ = load held + (bucket.reads + counts.reads) + (bucket.writes + counts.writes) at added
      dsimp only
      omega

/-- No more is held of a namespace than it was used. -/
theorem load_noted (uses : List Use) (root : String) (granularity : Granularity) :
    load (((default.noted uses).seriesOf root).held granularity) ≤ uses.length := by
  have run : ∀ activity : Activity, load (((activity.noted uses).seriesOf root).held granularity) ≤
      load ((activity.seriesOf root).held granularity) + uses.length := by
    induction uses with
    | nil => exact fun activity => le_rfl
    | cons use rest ih =>
        intro activity
        have one : (countsOf use.access).reads + (countsOf use.access).writes = 1 := by cases use.access <;> rfl
        have step : load (((activity.note use).seriesOf root).held granularity) ≤
            load ((activity.seriesOf root).held granularity) + 1 := by
          rw [seriesOf_note]
          split
          · rw [← one, ← Nat.add_assoc]
            cases granularity <;> exact load_bump ..
          · exact Nat.le_succ _
        have later := ih (activity.note use)
        rw [noted, List.foldl_cons, ← noted, List.length_cons]
        omega
  have from_ := run default
  have empty : load ((default.seriesOf root).held granularity) = 0 := by cases granularity <;> rfl
  omega

/-- A sum of some of the buckets is part of all that is counted. -/
theorem sumWhere_le (held : CountBuckets) (within : Int → Bool) :
    (sumWhere held within).reads + (sumWhere held within).writes ≤ load held := by
  have part := load_filter held fun at_ _ => within at_
  refine le_trans (le_of_eq ?_) part
  unfold sumWhere load OrderedMap.total OrderedMap.mapValues OrderedMap.filter
  dsimp only
  generalize held.entries.filter (fun e => within e.1) = entries
  induction entries with
  | nil => rfl
  | cons entry rest ih =>
      rw [List.map_cons, List.sum_cons, List.map_cons, List.map_cons, List.sum_cons, ← ih, Counts.add_def]
      dsimp only
      omega

/-- Fewer uses than a 64-bit number can count leave nothing that is too much to be added up. -/
theorem sumsFit_noted {uses : List Use} (few : uses.length < u64Size) :
    (default.noted uses).SumsFit granularity end_ buckets visible := by
  have small : ∀ e ∈ (default.noted uses).shown granularity visible, ∀ within,
      (sumWhere e.2 within).reads + (sumWhere e.2 within).writes < u64Size := by
    intro e member within
    obtain ⟨listed, there, rfl⟩ := List.mem_map.mp member
    have found := OrderedMap.mem_entries.mp (List.mem_filter.mp there).1
    have most := (sumWhere_le (listed.2.held granularity) within).trans
      (seriesOf_of_get found ▸ load_noted uses listed.1 granularity)
    exact most.trans_lt few
  have each : ∀ e ∈ (default.noted uses).shown granularity visible, ∀ within, (sumWhere e.2 within).Fits := by
    intro e member within
    have sum := small e member within
    exact ⟨(Nat.le_add_right _ _).trans_lt sum, (Nat.le_add_left _ _).trans_lt sum⟩
  exact ⟨fun e member => ⟨each e member _, each e member _⟩, fun _ e member => small e member _⟩

/-- Whatever is held and whatever is asked for, a request gets through without an overflow, an index out of range or a range
the wrong way round exactly where the window before the one asked for starts within reach, and the sums fit. -/
theorem request_completes_iff (activity : Activity) (granularity : Granularity) (end_ : Int64) (buckets : Nat)
    (visible : String → Bool) (now : DateTime) :
    (∃ report, Build.checked.report activity granularity end_.toInt buckets visible now = .ok report) ↔
      InReach granularity end_.toInt buckets ∧ activity.SumsFit granularity end_.toInt buckets visible := by
  rw [Build.report_checked (Int64.le_toInt end_) (Int64.toInt_lt end_)]
  constructor
  · rintro ⟨report, completes⟩
    exact (Checks.check_eq_ok.mp completes).1
  · intro fine
    exact ⟨_, Checks.check_of fine _⟩

/-- Two days of hours that end two hours after the first 64-bit second: a build that checks its arithmetic stops at the start,
and in one that does not it comes out at the other end of the range, behind the last bucket. -/
theorem request_stopped :
    Build.checked.report (default.noted [⟨"feeds", 0, .read⟩]) .hour (Int64.ofInt (-2 ^ 63 + 7200)).toInt 48 (fun _ => true)
        .unixEpoch = .error .overflow ∧
      Build.wrapping.report (default.noted [⟨"feeds", 0, .read⟩]) .hour (Int64.ofInt (-2 ^ 63 + 7200)).toInt 48 (fun _ => true)
        .unixEpoch = .error .range := ⟨rfl, rfl⟩

end Activity

end SightingDB
