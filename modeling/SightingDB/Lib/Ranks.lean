import Mathlib.Data.List.Sort
import Mathlib.Data.List.Perm.Subperm

/-!
Where a value stands in a sorted list.
-/
namespace Ranks

variable {α : Type*} [LinearOrder α]

/-- How many entries come before a value. -/
def rank (v : α) (l : List α) : Nat := l.countP (· < v)

theorem rank_mono {l l' : List α} (nodup : l.Nodup) (grows : ∀ x ∈ l, x ∈ l') (v : α) : rank v l ≤ rank v l' :=
  (nodup.subperm grows).countP_le _

theorem rank_lt_length {l : List α} {v : α} (mem : v ∈ l) : rank v l < l.length := by
  refine lt_of_le_of_ne List.countP_le_length fun all => ?_
  exact absurd (List.countP_eq_length.mp all v mem) (by simp)

theorem getElem?_rank {l : List α} (sorted : l.Pairwise (· < ·)) {v : α} (mem : v ∈ l) : l[rank v l]? = some v := by
  induction l with
  | nil => cases mem
  | cons x rest ih =>
      obtain ⟨first, rest_sorted⟩ := List.pairwise_cons.mp sorted
      rcases List.mem_cons.mp mem with rfl | later
      · have none : rest.countP (· < v) = 0 :=
          List.countP_eq_zero.mpr fun y here => by simpa using (first y here).le
        rw [rank, List.countP_cons_of_neg (by simp), none]
        rfl
      · rw [rank, List.countP_cons_of_pos (by simpa using first v later), List.getElem?_cons_succ]
        exact ih rest_sorted later

theorem rank_add_above {l : List α} (sorted : l.Pairwise (· < ·)) {v : α} (mem : v ∈ l) :
    rank v l + 1 + l.countP (v < ·) = l.length := by
  induction l with
  | nil => cases mem
  | cons x rest ih =>
      obtain ⟨first, rest_sorted⟩ := List.pairwise_cons.mp sorted
      rcases List.mem_cons.mp mem with rfl | later
      · have below : rest.countP (· < v) = 0 := List.countP_eq_zero.mpr fun y here => by simpa using (first y here).le
        have above : rest.countP (v < ·) = rest.length := List.countP_eq_length.mpr fun y here => by simpa using first y here
        rw [rank, List.countP_cons_of_neg (by simp), List.countP_cons_of_neg (by simp), below, above, List.length_cons]
        omega
      · have lt : x < v := first v later
        have counted := ih rest_sorted later
        rw [rank] at counted ⊢
        rw [List.countP_cons_of_pos (by simpa using lt), List.countP_cons_of_neg (by simpa using lt.le), List.length_cons]
        omega

theorem mem_take {l : List α} (sorted : l.Pairwise (· < ·)) {v : α} (mem : v ∈ l) {n : Nat} : v ∈ l.take n ↔ rank v l < n := by
  have place := getElem?_rank sorted mem
  constructor
  · intro first
    obtain ⟨i, at_⟩ := List.mem_iff_getElem?.mp first
    obtain ⟨within, -⟩ := List.getElem?_eq_some_iff.mp at_
    rw [List.length_take] at within
    rw [List.getElem?_take_of_lt (by omega)] at at_
    have same : i = rank v l := (List.getElem?_inj (by omega) (sorted.imp ne_of_lt)).mp (at_.trans place.symm)
    omega
  · intro below
    refine List.mem_iff_getElem?.mpr ⟨rank v l, ?_⟩
    rw [List.getElem?_take_of_lt below]
    exact place

end Ranks
