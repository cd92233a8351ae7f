import SightingDB.Lib.Ranks
import Mathlib.Data.Finset.Card

/-!
Reading a sorted list page by page, by offset, while the list grows. Nothing that was there at
the start is skipped: what is inserted only moves it further back.
-/
namespace OffsetPages

open Ranks

variable {α : Type*} [LinearOrder α]

/-- A page of a list. -/
def page (l : List α) (offset size : Nat) : List α := (l.drop offset).take size

theorem mem_page {l : List α} (sorted : l.Pairwise (· < ·)) {v : α} (mem : v ∈ l) {offset size : Nat}
    (from_ : offset ≤ rank v l) (below : rank v l < offset + (page l offset size).length) : v ∈ page l offset size := by
  obtain ⟨i, at_⟩ := Nat.exists_eq_add_of_le from_
  refine List.mem_iff_getElem?.mpr ⟨i, ?_⟩
  have short : (page l offset size).length ≤ size := List.length_take_le _ _
  rw [page, List.getElem?_take_of_lt (by omega), List.getElem?_drop, ← at_]
  exact getElem?_rank sorted mem

section

variable {lists : Nat → List α} {offsets : Nat → Nat} {size : Nat}

omit [LinearOrder α] in
theorem kept {k : Nat} (grows : ∀ j < k, ∀ v ∈ lists j, v ∈ lists (j + 1)) {v : α} (mem : v ∈ lists 0) : v ∈ lists k := by
  induction k with
  | zero => exact mem
  | succ k ih => exact grows k (Nat.lt_succ_self k) v (ih fun j lt => grows j (Nat.lt_succ_of_lt lt))

/-- Whatever was there at the start and lies before the offset has been on a page. -/
theorem met_of_rank_lt (sorted : ∀ k, (lists k).Pairwise (· < ·)) (start : offsets 0 = 0) {k : Nat}
    (grows : ∀ j < k, ∀ v ∈ lists j, v ∈ lists (j + 1))
    (moves : ∀ j < k, offsets (j + 1) = offsets j + (page (lists j) (offsets j) size).length) {v : α} (mem : v ∈ lists 0)
    (below : rank v (lists k) < offsets k) : ∃ j < k, v ∈ page (lists j) (offsets j) size := by
  induction k with
  | zero => omega
  | succ k ih =>
      have grown : ∀ j < k, ∀ v ∈ lists j, v ∈ lists (j + 1) := fun j lt => grows j (Nat.lt_succ_of_lt lt)
      have climbs : rank v (lists k) ≤ rank v (lists (k + 1)) :=
        rank_mono ((sorted k).imp ne_of_lt) (grows k (Nat.lt_succ_self k)) v
      rw [moves k (Nat.lt_succ_self k)] at below
      by_cases before : rank v (lists k) < offsets k
      · obtain ⟨j, earlier, here⟩ := ih grown (fun j lt => moves j (Nat.lt_succ_of_lt lt)) before
        exact ⟨j, Nat.lt_succ_of_lt earlier, here⟩
      · exact ⟨k, Nat.lt_succ_self k, mem_page (sorted k) (kept grown mem) (not_lt.mp before) (by omega)⟩

/-- A walk that has reached the end of the list has met everything that was there at the
start. -/
theorem met_of_end (sorted : ∀ k, (lists k).Pairwise (· < ·)) (start : offsets 0 = 0) {k : Nat}
    (grows : ∀ j < k, ∀ v ∈ lists j, v ∈ lists (j + 1))
    (moves : ∀ j ≤ k, offsets (j + 1) = offsets j + (page (lists j) (offsets j) size).length)
    (ended : (lists k).length ≤ offsets (k + 1)) {v : α} (mem : v ∈ lists 0) :
    ∃ j ≤ k, v ∈ page (lists j) (offsets j) size := by
  have here : v ∈ lists k := kept grows mem
  by_cases before : rank v (lists k) < offsets k
  · obtain ⟨j, earlier, found⟩ := met_of_rank_lt sorted start grows (fun j lt => moves j lt.le) mem before
    exact ⟨j, earlier.le, found⟩
  · have last := moves k le_rfl
    have inside := rank_lt_length here
    exact ⟨k, le_rfl, mem_page (sorted k) here (not_lt.mp before) (by omega)⟩

end

end OffsetPages
