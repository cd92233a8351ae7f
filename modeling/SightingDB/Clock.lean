import Mathlib.Order.Basic
import Mathlib.Order.MinMax
import Mathlib.Data.Int.Order.Basic

/-!
Instants as chrono keeps them: nanoseconds since the Unix epoch, inside the calendar
chrono can represent. A whole-second timestamp outside that calendar has no instant.
-/
namespace SightingDB

/-- The first second of chrono's calendar, -262143-01-01T00:00:00Z. -/
def minTimestamp : Int := -8334601228800

/-- The last second of chrono's calendar, 262142-12-31T23:59:59Z. -/
def maxTimestamp : Int := 8210266876799

def nanosPerSecond : Int := 1000000000

/-- `DateTime<Utc>`: an instant can only be built inside the calendar. -/
@[ext] structure DateTime where
  nanos : Int
  lower : minTimestamp * nanosPerSecond ≤ nanos
  upper : nanos < (maxTimestamp + 1) * nanosPerSecond
  deriving DecidableEq

namespace DateTime

theorem nanos_injective : Function.Injective DateTime.nanos := fun _ _ same => DateTime.ext same

instance : LinearOrder DateTime := LinearOrder.lift' DateTime.nanos nanos_injective

theorem le_iff {a b : DateTime} : a ≤ b ↔ a.nanos ≤ b.nanos := Iff.rfl

/-- `DateTime::UNIX_EPOCH`. -/
def unixEpoch : DateTime := ⟨0, by decide, by decide⟩

/-- `DateTime::timestamp`: whole seconds, rounded down. -/
def timestamp (d : DateTime) : Int := d.nanos / nanosPerSecond

/-- `DateTime::timestamp_millis`. -/
def timestampMillis (d : DateTime) : Int := d.nanos / 1000000

/-- `DateTime::from_timestamp(secs, 0)`. -/
def fromTimestamp (secs : Int) : Option DateTime :=
  if h : minTimestamp ≤ secs ∧ secs ≤ maxTimestamp then
    some ⟨secs * nanosPerSecond, by simp only [nanosPerSecond] at *; omega,
      by simp only [nanosPerSecond] at *; omega⟩
  else none

theorem fromTimestamp_nanos {secs : Int} {d : DateTime} (h : fromTimestamp secs = some d) :
    d.nanos = secs * nanosPerSecond := by
  simp only [fromTimestamp] at h
  split at h
  · cases h; rfl
  · cases h

theorem timestamp_fromTimestamp {secs : Int} {d : DateTime} (h : fromTimestamp secs = some d) :
    d.timestamp = secs := by
  simp only [timestamp, fromTimestamp_nanos h, nanosPerSecond]
  omega

theorem timestamp_mono {a b : DateTime} (h : a ≤ b) : a.timestamp ≤ b.timestamp := by
  simp only [le_iff] at h
  simp only [timestamp, nanosPerSecond]
  omega

/-- The instant as a file or the wire keeps it: its whole second. -/
def truncate (d : DateTime) : DateTime :=
  ⟨d.timestamp * nanosPerSecond,
    by
      have := d.lower
      simp only [timestamp, nanosPerSecond, minTimestamp] at *
      omega,
    by
      have := d.upper
      simp only [timestamp, nanosPerSecond, maxTimestamp] at *
      omega⟩

/-- Writing an instant as seconds and reading it back never leaves the calendar. -/
theorem fromTimestamp_timestamp (d : DateTime) : fromTimestamp d.timestamp = some d.truncate := by
  have lower := d.lower
  have upper := d.upper
  have bounds : minTimestamp ≤ d.timestamp ∧ d.timestamp ≤ maxTimestamp := by
    simp only [timestamp, nanosPerSecond, minTimestamp, maxTimestamp] at *
    omega
  simp [fromTimestamp, bounds, truncate]

@[simp] theorem truncate_timestamp (d : DateTime) : d.truncate.timestamp = d.timestamp :=
  timestamp_fromTimestamp (fromTimestamp_timestamp d)

theorem truncate_eq_iff {a b : DateTime} : a.truncate = b.truncate ↔ a.timestamp = b.timestamp := by
  constructor
  · intro same
    rw [← truncate_timestamp a, same, truncate_timestamp]
  · intro same
    exact DateTime.ext (by simp only [truncate, same])

@[simp] theorem truncate_truncate (d : DateTime) : d.truncate.truncate = d.truncate :=
  truncate_eq_iff.mpr (truncate_timestamp d)

theorem truncate_fromTimestamp {secs : Int} {d : DateTime} (h : fromTimestamp secs = some d) :
    d.truncate = d := by
  refine DateTime.ext ?_
  simp only [truncate, timestamp_fromTimestamp h, fromTimestamp_nanos h]

theorem truncate_mono {a b : DateTime} (h : a ≤ b) : a.truncate ≤ b.truncate := by
  have := timestamp_mono h
  simp only [le_iff, truncate, nanosPerSecond]
  omega

theorem truncate_min (a b : DateTime) : (min a b).truncate = min a.truncate b.truncate :=
  Monotone.map_min (fun _ _ h => truncate_mono h)

theorem truncate_max (a b : DateTime) : (max a b).truncate = max a.truncate b.truncate :=
  Monotone.map_max (fun _ _ h => truncate_mono h)

theorem timestamp_min (a b : DateTime) : (min a b).timestamp = min a.timestamp b.timestamp :=
  Monotone.map_min (fun _ _ h => timestamp_mono h)

theorem timestamp_max (a b : DateTime) : (max a b).timestamp = max a.timestamp b.timestamp :=
  Monotone.map_max (fun _ _ h => timestamp_mono h)

end DateTime

end SightingDB
