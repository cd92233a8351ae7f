import SightingDB.Lib.OrderedMap
import Mathlib.Algebra.BigOperators.Group.List.Basic
import Mathlib.Algebra.Order.Ring.Int
import Mathlib.Algebra.Ring.Int.Defs

/-!
Amounts counted into buckets of one width, of which only those near the latest opened are kept.
Times are whole numbers; a bucket is known by its start.
-/
namespace Buckets

variable {M : Type*} [AddCommMonoid M]

/-- The start of the bucket a time falls in. -/
def startOf (step time : Int) : Int := time / step * step

/-- Add to the bucket of a time. One that is opened drops those more than `keep` buckets back. -/
def bump (step keep : Int) (held : OrderedMap Int M) (time : Int) (amount : M) : OrderedMap Int M :=
  match held.get (startOf step time) with
  | some bucket => held.insert (startOf step time) (bucket + amount)
  | none => (held.insert (startOf step time) amount).filter fun at_ _ => startOf step time - (keep - 1) * step ≤ at_

/-- What a bucket holds; nothing, where there is none. -/
def amountAt (held : OrderedMap Int M) (at_ : Int) : M := (held.get at_).getD 0

/-- The entries from one time to another, the latter left out. -/
def within (entries : List (Int × M)) (first past : Int) : List (Int × M) :=
  entries.filter fun e => first ≤ e.1 && e.1 < past

/-- Their amounts together. -/
def between (entries : List (Int × M)) (first past : Int) : M := ((within entries first past).map (·.2)).sum

variable {step keep : Int} {held : OrderedMap Int M} {events : List (Int × M)}

/-! ## Times and buckets -/

theorem dvd_startOf (step time : Int) : step ∣ startOf step time := Int.dvd_mul_left _ _

theorem startOf_le (wide : 0 < step) (time : Int) : startOf step time ≤ time :=
  Int.ediv_mul_le time wide.ne'

theorem lt_startOf (wide : 0 < step) (time : Int) : time < startOf step time + step :=
  Int.lt_ediv_add_one_mul_self time wide |>.trans_eq (by rw [startOf, Int.add_mul, Int.one_mul])

/-- Between two bucket starts lie the times whose buckets do. -/
theorem startOf_within {first past : Int} (wide : 0 < step) (whole : step ∣ first) (whole' : step ∣ past) (time : Int) :
    (first ≤ startOf step time ∧ startOf step time < past) ↔ (first ≤ time ∧ time < past) := by
  obtain ⟨a, rfl⟩ := whole
  obtain ⟨b, rfl⟩ := whole'
  unfold startOf
  rw [Int.mul_comm step a, Int.mul_comm step b, mul_le_mul_iff_left₀ wide, mul_lt_mul_iff_left₀ wide,
    Int.le_ediv_iff_mul_le wide, Int.ediv_lt_iff_lt_mul wide]

/-! ## One amount -/

/-- A bucket that is not dropped holds what it did, and the amount if it is the one. -/
theorem amountAt_bump {time at_ : Int} (kept : startOf step time - (keep - 1) * step ≤ at_) (amount : M) :
    amountAt (bump step keep held time amount) at_ =
      amountAt held at_ + if startOf step time = at_ then amount else 0 := by
  unfold amountAt bump
  by_cases same : startOf step time = at_
  · subst same
    rw [if_pos rfl]
    cases found : held.get (startOf step time) with
    | some bucket => simp
    | none =>
        rw [OrderedMap.get_filter, OrderedMap.get_insert_self, Option.filter_some, if_pos (decide_eq_true kept)]
        simp
  · rw [if_neg same, add_zero]
    cases found : held.get (startOf step time) with
    | some bucket => simp [OrderedMap.get_insert, Ne.symm same]
    | none =>
        rw [OrderedMap.get_filter, OrderedMap.get_insert, if_neg (Ne.symm same)]
        cases held.get at_ <;> simp [Option.filter, kept]

theorem dvd_bump (whole : ∀ at_ ∈ held.keys, step ∣ at_) (time : Int) (amount : M) :
    ∀ at_ ∈ (bump step keep held time amount).keys, step ∣ at_ := by
  have inserted : ∀ amount' : M, ∀ at_ ∈ (held.insert (startOf step time) amount').keys, step ∣ at_ := by
    intro amount' at_ member
    obtain ⟨bucket, found⟩ := OrderedMap.mem_keys.mp member
    rw [OrderedMap.get_insert] at found
    split at found
    · rename_i same
      exact same ▸ dvd_startOf step time
    · exact whole at_ (OrderedMap.mem_keys.mpr ⟨bucket, found⟩)
  intro at_ member
  unfold bump at member
  split at member
  · exact inserted _ at_ member
  · obtain ⟨e, listed, rfl⟩ := List.mem_map.mp member
    exact inserted _ e.1 (List.mem_map_of_mem (List.mem_of_mem_filter listed))

/-! ## A history -/

def record (step keep : Int) (held : OrderedMap Int M) (events : List (Int × M)) : OrderedMap Int M :=
  events.foldl (fun held event => bump step keep held event.1 event.2) held

/-- A bucket that no event drops holds what fell in it. -/
theorem amountAt_record {at_ : Int} (kept : ∀ event ∈ events, startOf step event.1 - (keep - 1) * step ≤ at_) :
    amountAt (record step keep held events) at_ =
      amountAt held at_ + ((events.filter fun event => startOf step event.1 = at_).map (·.2)).sum := by
  induction events generalizing held with
  | nil => simp [record]
  | cons event rest ih =>
      rw [record, List.foldl_cons, ← record, ih fun later member => kept later (List.mem_cons_of_mem _ member),
        amountAt_bump (kept event List.mem_cons_self), List.filter_cons, add_assoc]
      by_cases here : startOf step event.1 = at_
      · simp [here]
      · simp [here]

theorem dvd_record (whole : ∀ at_ ∈ held.keys, step ∣ at_) (events : List (Int × M)) :
    ∀ at_ ∈ (record step keep held events).keys, step ∣ at_ := by
  induction events generalizing held with
  | nil => exact whole
  | cons event rest ih => exact ih (dvd_bump whole event.1 event.2)

/-- The one multiple of the width that a bucket covers is its start. -/
theorem eq_iff_within {at_ at' : Int} (wide : 0 < step) (whole : step ∣ at_) (whole' : step ∣ at') :
    at' = at_ ↔ at_ ≤ at' ∧ at' < at_ + step := by
  obtain ⟨a, rfl⟩ := whole
  obtain ⟨b, rfl⟩ := whole'
  constructor
  · intro same
    rw [same]
    exact ⟨le_rfl, lt_add_of_pos_right _ wide⟩
  · rintro ⟨low, high⟩
    have high' : step * b < step * (a + 1) := by rwa [Int.mul_add, Int.mul_one]
    have least := Int.le_of_mul_le_mul_left low wide
    have most := Int.lt_of_mul_lt_mul_left high' wide.le
    have same : b = a := by omega
    rw [same]

/-- A bucket that no event drops holds what fell in the time it covers. -/
theorem amountAt_record_between {at_ : Int} (wide : 0 < step) (whole : step ∣ at_)
    (kept : ∀ event ∈ events, startOf step event.1 - (keep - 1) * step ≤ at_) :
    amountAt (record step keep ∅ events) at_ = between events at_ (at_ + step) := by
  have empty : amountAt (∅ : OrderedMap Int M) at_ = 0 := rfl
  rw [amountAt_record kept, empty, zero_add, between, within]
  congr 2
  apply List.filter_congr
  intro event _
  rw [← Bool.decide_and]
  apply decide_eq_decide.mpr
  rw [eq_iff_within wide whole (dvd_startOf step event.1)]
  exact startOf_within wide whole (Int.dvd_add whole (Int.dvd_refl step)) event.1

/-! ## Windows of buckets -/

theorem between_empty (first : Int) : between events first first = 0 := by
  have none_ : within events first first = [] := by
    rw [within, List.filter_eq_nil_iff]
    intro event _
    simp
  rw [between, none_]
  rfl

theorem between_split {first middle past : Int} (low : first ≤ middle) (high : middle ≤ past) :
    between events first past = between events first middle + between events middle past := by
  unfold between within
  induction events with
  | nil => simp
  | cons event rest ih =>
      simp only [List.filter_cons]
      by_cases before : event.1 < middle
      · have out : (middle ≤ event.1 && event.1 < past) = false := by simp [before]
        have same : (first ≤ event.1 && event.1 < past) = (first ≤ event.1 && event.1 < middle) := by
          simp [before, before.trans_le high]
        rw [out, same]
        cases decide (first ≤ event.1) && decide (event.1 < middle)
        · simpa using ih
        · simp [ih, add_assoc]
      · have out : (first ≤ event.1 && event.1 < middle) = false := by simp [before]
        have same : (first ≤ event.1 && event.1 < past) = (middle ≤ event.1 && event.1 < past) := by
          have after := not_lt.mp before
          simp [after, low.trans after]
        rw [out, same]
        cases decide (middle ≤ event.1) && decide (event.1 < past)
        · simpa using ih
        · simp [ih, add_left_comm]

/-- A window's amounts, bucket by bucket. -/
def dense (step : Int) (held : OrderedMap Int M) (first : Int) (n : Nat) : List M :=
  (List.range n).map fun i : Nat => amountAt held (first + i * step)

/-- Where every bucket says what lies in the time it covers, they add up to what lies in the window. -/
theorem sum_dense {entries : List (Int × M)} {first : Int} {n : Nat} (wide : 0 < step)
    (each : ∀ i < n, amountAt held (first + (i : Int) * step) =
      between entries (first + (i : Int) * step) (first + (i : Int) * step + step)) :
    (dense step held first n).sum = between entries first (first + n * step) := by
  induction n with
  | zero =>
      rw [Nat.cast_zero, Int.zero_mul, Int.add_zero, between_empty]
      rfl
  | succ n ih =>
      have up : (0 : Int) ≤ n * step := mul_nonneg (Int.natCast_nonneg n) wide.le
      have next : first + ((n + 1 : Nat) : Int) * step = first + n * step + step := by
        rw [Nat.cast_add, Nat.cast_one, Int.add_mul, Int.one_mul, Int.add_assoc]
      have more : dense step held first (n + 1) = dense step held first n ++ [amountAt held (first + n * step)] := by
        rw [dense, List.range_succ, List.map_append]
        rfl
      rw [more, List.sum_append, List.sum_singleton, ih fun i less => each i (Nat.lt_succ_of_lt less), next,
        each n (Nat.lt_succ_self n)]
      exact (between_split (by omega) (by omega)).symm

/-- Added up as they are held, the buckets of a window give the same. -/
theorem sum_dense_held {first : Int} {n : Nat} (wide : 0 < step) (whole : step ∣ first)
    (starts : ∀ at_ ∈ held.keys, step ∣ at_) :
    (dense step held first n).sum = between held.entries first (first + n * step) := by
  apply sum_dense wide
  intro i _
  have single : within held.entries (first + (i : Int) * step) (first + (i : Int) * step + step) =
      held.entries.filter fun e => e.1 = first + (i : Int) * step := by
    apply List.filter_congr
    intro e member
    rw [← Bool.decide_and]
    apply decide_eq_decide.mpr
    exact (eq_iff_within wide (Int.dvd_add whole (Int.dvd_mul_left _ _)) (starts e.1 (List.mem_map_of_mem member))).symm
  rw [between, single, OrderedMap.filter_key _ held.sorted, amountAt, OrderedMap.get]
  cases OrderedMap.lookup (first + (i : Int) * step) held.entries <;> simp

/-! ## A row with a place for every bucket -/

section Rows

variable {ι β : Type*} {place : ι → Nat} {value : ι → β} {entries : List ι} {row : List β}

/-- Put every entry in its place. -/
def fill (place : ι → Nat) (value : ι → β) (row : List β) (entries : List ι) : List β :=
  entries.foldl (fun row entry => row.set (place entry) (value entry)) row

theorem length_fill : (fill place value row entries).length = row.length := by
  induction entries generalizing row with
  | nil => rfl
  | cons entry rest ih => exact ih.trans List.length_set

theorem fill_untouched {i : Nat} (away : ∀ entry ∈ entries, place entry ≠ i) :
    (fill place value row entries)[i]? = row[i]? := by
  induction entries generalizing row with
  | nil => rfl
  | cons entry rest ih =>
      refine (ih fun later member => away later (List.mem_cons_of_mem _ member)).trans ?_
      rw [List.getElem?_set_ne (away entry List.mem_cons_self)]

theorem fill_placed (value : ι → β) (apart : (entries.map place).Nodup) {entry : ι} (member : entry ∈ entries)
    (room : place entry < row.length) : (fill place value row entries)[place entry]? = some (value entry) := by
  induction entries generalizing row with
  | nil => cases member
  | cons first rest ih =>
      rw [List.map_cons, List.nodup_cons] at apart
      rcases List.mem_cons.mp member with rfl | later
      · have away : ∀ other ∈ rest, place other ≠ place entry := fun other later same =>
          apart.1 (same ▸ List.mem_map_of_mem later)
        exact (fill_untouched away).trans (List.getElem?_set_self room)
      · exact ih apart.2 later (by rwa [List.length_set])

/-- The place of a bucket of the window: which one it is, counted from the first. -/
def placeOf (step first at_ : Int) : Nat := ((at_ - first) / step).toNat

theorem placeOf_nth {first : Int} (wide : 0 < step) (i : Nat) : placeOf step first (first + i * step) = i := by
  rw [placeOf, add_sub_cancel_left, Int.mul_ediv_cancel _ wide.ne', Int.toNat_natCast]

/-- A bucket of the window stands at the place its start gives. -/
theorem eq_nth_placeOf {first at_ : Int} (wide : 0 < step) (whole : step ∣ first) (start : step ∣ at_) (low : first ≤ at_) :
    at_ = first + (placeOf step first at_ : Int) * step := by
  obtain ⟨k, offset⟩ := Int.dvd_sub start whole
  have back : k * step + first = at_ := by rw [Int.mul_comm, ← offset]; omega
  have positive : 0 ≤ k := by
    by_contra negative
    have := Int.mul_neg_of_neg_of_pos (not_le.mp negative) wide
    omega
  rw [placeOf, offset, Int.mul_ediv_cancel_left _ wide.ne', Int.toNat_of_nonneg positive]
  omega

theorem mem_within {α : Type*} {entries : List (Int × α)} {first past : Int} {entry : Int × α} :
    entry ∈ within entries first past ↔ entry ∈ entries ∧ first ≤ entry.1 ∧ entry.1 < past := by
  unfold within
  rw [List.mem_filter, Bool.and_eq_true, decide_eq_true_eq, decide_eq_true_eq]

/-- No two buckets of a window have one place. -/
theorem placeOf_nodup {α : Type*} {held : OrderedMap Int α} {first past : Int} (wide : 0 < step) (whole : step ∣ first)
    (starts : ∀ at_ ∈ held.keys, step ∣ at_) :
    ((within held.entries first past).map fun entry => placeOf step first entry.1).Nodup := by
  refine List.Nodup.map_on ?_ (List.Nodup.of_map Prod.fst (held.keys_nodup.sublist (List.filter_sublist.map _)))
  intro entry member entry' member' same
  obtain ⟨there, low, _⟩ := mem_within.mp member
  obtain ⟨there', low', _⟩ := mem_within.mp member'
  have keys : entry.1 = entry'.1 := by
    rw [eq_nth_placeOf wide whole (starts _ (List.mem_map_of_mem there)) low,
      eq_nth_placeOf wide whole (starts _ (List.mem_map_of_mem there')) low', same]
  exact List.inj_on_of_nodup_map held.keys_nodup there there' keys

/-- Filled from the buckets held in a window, a row of nothing says what each bucket does. -/
theorem fill_dense {first : Int} {n : Nat} (wide : 0 < step) (whole : step ∣ first) (starts : ∀ at_ ∈ held.keys, step ∣ at_)
    (value : M → β) :
    fill (fun entry : Int × M => placeOf step first entry.1) (fun entry => value entry.2) (List.replicate n (value 0))
      (within held.entries first (first + n * step)) = (dense step held first n).map value := by
  apply List.ext_getElem?
  intro i
  by_cases room : i < n
  · have spot : ((dense step held first n).map value)[i]? = some (value (amountAt held (first + i * step))) := by
      simp [dense, room]
    have blank : (List.replicate n (value 0))[i]? = some (value 0) := by simp [room]
    rw [spot]
    cases found : held.get (first + i * step) with
    | some amount =>
        have member : (first + (i : Int) * step, amount) ∈ within held.entries first (first + n * step) := by
          have up : (0 : Int) ≤ i * step := mul_nonneg (Int.natCast_nonneg i) wide.le
          have less : (i : Int) * step < n * step := Int.mul_lt_mul_of_pos_right (Int.ofNat_lt.mpr room) wide
          exact mem_within.mpr ⟨OrderedMap.mem_entries.mpr found, by omega, by omega⟩
        have spare : placeOf step first (first + (i : Int) * step) < (List.replicate n (value 0)).length := by
          rw [placeOf_nth wide, List.length_replicate]
          exact room
        have placed := fill_placed (fun entry => value entry.2) (placeOf_nodup wide whole starts) member spare
        dsimp only at placed
        rw [placeOf_nth wide] at placed
        rw [placed, amountAt, found, Option.getD_some]
    | none =>
        rw [fill_untouched, blank, amountAt, found, Option.getD_none]
        intro entry member same
        obtain ⟨there, low, _⟩ := mem_within.mp member
        have here := eq_nth_placeOf wide whole (starts _ (List.mem_map_of_mem there)) low
        rw [same] at here
        rw [← here, OrderedMap.mem_entries.mp there] at found
        cases found
  · rw [List.getElem?_eq_none (by rw [length_fill, List.length_replicate]; omega),
      List.getElem?_eq_none (by simp [dense]; omega)]

end Rows

end Buckets
