import SightingDB.Clock
import SightingDB.Paths
import SightingDB.Lib.OrderedMap

/-!
How busy each top-level namespace has been: reads and writes counted against the first segment
of the path, by the hour for a month and by the day for a little over a year.

The lock is left out: each operation is one step. The numbers are those the source counts in
64 bits; what happens at the ends of that range is told apart where a request can reach them.
-/
namespace SightingDB

namespace Activity

/-- Reads and writes in one bucket. Each is below 2^64 in the source; a recorded use adds one,
so only a restored file that holds nearly as much could reach it. -/
@[ext] structure Counts where
  reads : Nat
  writes : Nat
  deriving DecidableEq

namespace Counts

/-- `Counts::default()`. -/
def default : Counts := ⟨0, 0⟩

def add (counts other : Counts) : Counts := ⟨counts.reads + other.reads, counts.writes + other.writes⟩

end Counts

/-- `BTreeMap<i64, Counts>`: buckets by their start. -/
abbrev CountBuckets := OrderedMap Int Counts

/-- Bucket width. -/
inductive Granularity
  | hour
  | day
  deriving DecidableEq

namespace Granularity

def step : Granularity → Int
  | .hour => 3600
  | .day => 86400

/-- The most buckets that can hold anything: a month of hours, a little over a year of days. -/
def retained : Granularity → Nat
  | .hour => 31 * 24
  | .day => 400

end Granularity

/-- One namespace's history at both resolutions. -/
structure Series where
  hourly : CountBuckets
  daily : CountBuckets
  deriving DecidableEq

/-- Add to the bucket holding `now`, dropping what has aged out when a new bucket starts. -/
def bump (buckets : CountBuckets) (now step keep : Int) (counts : Counts) : CountBuckets :=
  let start := now / step * step
  match buckets.get start with
  | some bucket => buckets.insert start (bucket.add counts)
  | none =>
      let oldest := start - (keep - 1) * step
      (buckets.insert start counts).filter fun at_ _ => oldest ≤ at_

namespace Series

/-- `Series::default()`. -/
def default : Series := ⟨∅, ∅⟩

def record (series : Series) (now : Int) (counts : Counts) : Series where
  hourly := bump series.hourly now (Granularity.step .hour) (Granularity.retained .hour) counts
  daily := bump series.daily now (Granularity.step .day) (Granularity.retained .day) counts

def isEmpty (series : Series) : Bool := series.hourly.entries.isEmpty && series.daily.entries.isEmpty

def held (series : Series) : Granularity → CountBuckets
  | .hour => series.hourly
  | .day => series.daily

end Series

/-- What is written to disk. -/
abbrev ActivityData := OrderedMap String Series

/-- One namespace over a window; `previous` is the window of the same length just before. -/
structure RootReport where
  name : String
  reads : List Nat
  writes : List Nat
  total : Counts
  previous : Counts
  deriving DecidableEq

structure Report where
  enabled : Bool
  granularity : Granularity
  step : Int
  start : Int
  buckets : Nat
  oldest : Option Int
  now : Int
  roots : List RootReport
  deriving DecidableEq

end Activity

structure Activity where
  enabled : Bool
  roots : Activity.ActivityData
  dirty : Bool
  deriving DecidableEq

namespace Activity

/-- The namespace a path is counted against; none for an internal one. -/
def rootOf (name : String) : Option String := (firstSegment name).filter fun root => !startsWithChar root '_'

/-- `Activity::default()`. -/
def default : Activity := ⟨true, ∅, false⟩

/-! ## Recording -/

def recordAt (activity : Activity) (name : String) (now : Int) (counts : Counts) : Activity :=
  match rootOf name with
  | none => activity
  | some root =>
      { activity with
        roots := activity.roots.insert root (((activity.roots.get root).getD .default).record now counts)
        dirty := true }

def record (activity : Activity) (name : String) (now : DateTime) (counts : Counts) : Activity :=
  if !activity.enabled then activity else activity.recordAt name now.timestamp counts

def recordRead (activity : Activity) (name : String) (now : DateTime) : Activity := activity.record name now ⟨1, 0⟩

def recordWrite (activity : Activity) (name : String) (now : DateTime) : Activity := activity.record name now ⟨0, 1⟩

/-! ## Reporting -/

/-- What a window has collected from the buckets looked at so far. -/
structure Row where
  reads : List Nat
  writes : List Nat
  total : Counts
  deriving DecidableEq

def Row.put (start step : Int) (row : Row) (bucket : Int × Counts) : Row :=
  let i := ((bucket.1 - start) / step).toNat
  ⟨row.reads.set i bucket.2.reads, row.writes.set i bucket.2.writes, row.total.add bucket.2⟩

/-- One namespace: the buckets from `start` to `last`, and those before them from `previousStart`. -/
def rootReport (step : Int) (buckets : Nat) (previousStart start last : Int) (name : String) (held : CountBuckets) :
    RootReport :=
  let row := (held.entries.filter fun e => start ≤ e.1 && e.1 ≤ last).foldl (Row.put start step)
    ⟨List.replicate buckets 0, List.replicate buckets 0, .default⟩
  let previous := (held.entries.filter fun e => previousStart ≤ e.1 && e.1 < start).foldl (fun sum e => sum.add e.2) .default
  ⟨name, row.reads, row.writes, row.total, previous⟩

/-- Busiest first, then by name. -/
def busier (a b : RootReport) : Bool :=
  b.total.reads + b.total.writes < a.total.reads + a.total.writes ||
    (a.total.reads + a.total.writes = b.total.reads + b.total.writes && a.name ≤ b.name)

def oldestOf (held : List CountBuckets) : Option Int :=
  held.foldl (fun oldest buckets => match buckets.entries with
    | [] => oldest
    | (first, _) :: _ => some (oldest.elim first (min · first))) none

/-- `buckets.clamp(1, granularity.retained())`. -/
def window (granularity : Granularity) (buckets : Nat) : Nat := max 1 (min buckets granularity.retained)

/-- So many buckets, ending with the one that holds `end_`, for every namespace `visible` lets through. -/
def report (activity : Activity) (granularity : Granularity) (end_ : Int) (buckets : Nat) (visible : String → Bool)
    (now : DateTime) : Report :=
  let step := granularity.step
  let buckets := window granularity buckets
  let last := end_ / step * step
  let start := last - (buckets - 1) * step
  let previousStart := start - buckets * step
  let shown := activity.roots.entries.filter fun e => visible e.1
  { enabled := activity.enabled
    granularity := granularity
    step := step
    start := start
    buckets := buckets
    oldest := oldestOf (shown.map fun e => e.2.held granularity)
    now := now.timestamp / step * step
    roots := (shown.map fun e => rootReport step buckets previousStart start last e.1 (e.2.held granularity)).mergeSort busier }

/-! ## Saving -/

/-- Everything, if anything changed since the last save or `force` is set. -/
def takeSnapshot (activity : Activity) (force : Bool) : Option ActivityData × Activity :=
  if !activity.dirty && !force then (none, activity)
  else
    let kept := activity.roots.filter fun _ series => !series.isEmpty
    (some kept, { activity with roots := kept, dirty := false })

/-- Add one map of buckets to another. -/
def addBuckets (buckets saved : CountBuckets) : CountBuckets :=
  saved.entries.foldl (fun buckets e => buckets.insert e.1 (((buckets.get e.1).getD .default).add e.2)) buckets

/-- What was saved is merged in, so that a read from before the restore is not lost. -/
def restore (activity : Activity) (data : ActivityData) : Activity :=
  { activity with roots := data.entries.foldl (fun roots e =>
      let series := (roots.get e.1).getD .default
      roots.insert e.1 ⟨addBuckets series.hourly e.2.hourly, addBuckets series.daily e.2.daily⟩) activity.roots }

end Activity

end SightingDB
