import Mathlib.Data.List.DropRight
import Mathlib.Data.List.Nodup

/-!
The most recent entries of a history, one a key. A history is a list, oldest first; an entry
counts where its key is met last.
-/
namespace Recency

variable {α κ : Type*} [DecidableEq κ] (key : α → κ)

/-- The last entry of each key, in the order of the history. -/
def lastOfEach : List α → List α
  | [] => []
  | a :: later => if key a ∈ later.map key then lastOfEach later else a :: lastOfEach later

/-- The most recent keys, no more than there is room for. -/
def mostRecent (room : Nat) (history : List α) : List α := (lastOfEach key history).rtake room

variable {key} {room : Nat} {history : List α} {a : α}

/-! ## The end of a list -/

theorem mem_of_mem_rtake {n : Nat} {l : List α} (member : a ∈ l.rtake n) : a ∈ l := List.mem_of_mem_drop member

theorem rtake_of_length_le {n : Nat} {l : List α} (fits : l.length ≤ n) : l.rtake n = l := by
  rw [List.rtake, Nat.sub_eq_zero_of_le fits, List.drop_zero]

theorem length_rtake_le (n : Nat) (l : List α) : (l.rtake n).length ≤ n := by
  rw [List.rtake, List.length_drop]
  omega

theorem rtake_append_of_le {n : Nat} {front back : List α} (enough : n ≤ back.length) :
    (front ++ back).rtake n = back.rtake n := by
  unfold List.rtake
  have past : (front ++ back).length - n = front.length + (back.length - n) := by
    rw [List.length_append]
    omega
  rw [past, List.drop_append, List.drop_eq_nil_of_le (Nat.le_add_right _ _), List.nil_append, Nat.add_sub_cancel_left]

/-- A list is what lies before its end, and its end; there is nothing before unless the end is full. -/
theorem exists_append_rtake (n : Nat) (l : List α) :
    ∃ front, l = front ++ l.rtake n ∧ (front = [] ∨ (l.rtake n).length = n) := by
  refine ⟨l.take (l.length - n), (List.take_append_drop _ l).symm, ?_⟩
  rcases Nat.le_total l.length n with fits | more
  · left
    rw [Nat.sub_eq_zero_of_le fits, List.take_zero]
  · right
    rw [List.rtake, List.length_drop]
    omega

/-! ## The last of each key -/

theorem lastOfEach_sublist (history : List α) : (lastOfEach key history).Sublist history := by
  induction history with
  | nil => exact .refl _
  | cons a later ih =>
      rw [lastOfEach]
      split
      · exact ih.cons a
      · exact ih.cons_cons a

theorem mem_keys_lastOfEach {k : κ} : k ∈ (lastOfEach key history).map key ↔ k ∈ history.map key := by
  induction history with
  | nil => rfl
  | cons a later ih =>
      rw [lastOfEach]
      split
      · rename_i again
        rw [ih, List.map_cons, List.mem_cons]
        constructor
        · exact .inr
        · rintro (rfl | after)
          · exact again
          · exact after
      · rw [List.map_cons, List.map_cons, List.mem_cons, List.mem_cons, ih]

theorem lastOfEach_nodup (history : List α) : ((lastOfEach key history).map key).Nodup := by
  induction history with
  | nil => exact List.nodup_nil
  | cons a later ih =>
      rw [lastOfEach]
      split
      · exact ih
      · rename_i last
        rw [List.map_cons, List.nodup_cons, mem_keys_lastOfEach]
        exact ⟨last, ih⟩

theorem lastOfEach_of_nodup (apart : (history.map key).Nodup) : lastOfEach key history = history := by
  induction history with
  | nil => rfl
  | cons a later ih =>
      rw [List.map_cons, List.nodup_cons] at apart
      rw [lastOfEach, if_neg apart.1, ih apart.2]

/-- What comes later takes the place of what has its key. -/
theorem lastOfEach_append (history more : List α) : lastOfEach key (history ++ more) =
    (lastOfEach key history).filter (fun a => key a ∉ more.map key) ++ lastOfEach key more := by
  induction history with
  | nil => rfl
  | cons a later ih =>
      rw [List.cons_append, lastOfEach, lastOfEach, List.map_append, ih]
      by_cases again : key a ∈ later.map key
      · rw [if_pos again, if_pos (List.mem_append_left _ again)]
      · rw [if_neg again, List.filter_cons]
        by_cases after : key a ∈ more.map key
        · rw [if_pos (List.mem_append_right _ after), if_neg (by simpa using after)]
        · rw [if_neg (by simp [again, after] : ¬ key a ∈ later.map key ++ more.map key), if_pos (by simpa using after),
            List.cons_append]

/-! ## The most recent -/

@[simp] theorem mostRecent_nil : mostRecent key room [] = [] := by simp [mostRecent, lastOfEach, List.rtake]

theorem mem_of_mem_mostRecent (member : a ∈ mostRecent key room history) : a ∈ history :=
  (lastOfEach_sublist history).subset (mem_of_mem_rtake member)

theorem mostRecent_nodup : ((mostRecent key room history).map key).Nodup := by
  unfold mostRecent List.rtake
  rw [List.map_drop]
  exact (lastOfEach_nodup history).sublist (List.drop_sublist _ _)

/-- An entry put last, in the place of the one with its key. -/
theorem mostRecent_concat (apart : (history.map key).Nodup) (a : α) :
    mostRecent key room (history ++ [a]) = (history.filter (fun b => key b ≠ key a) ++ [a]).rtake room := by
  rw [mostRecent, lastOfEach_append, lastOfEach_of_nodup apart]
  simp [lastOfEach]

/-- Leaving out what there was no room for changes nothing later on. -/
theorem mostRecent_mostRecent_concat (history : List α) (a : α) :
    mostRecent key room (mostRecent key room history ++ [a]) = mostRecent key room (history ++ [a]) := by
  obtain ⟨front, whole, full⟩ := exists_append_rtake room (lastOfEach key history)
  have apart : ((lastOfEach key history).map key).Nodup := lastOfEach_nodup history
  rw [mostRecent_concat mostRecent_nodup, mostRecent, mostRecent, lastOfEach_append]
  generalize lastOfEach key history = all at whole full apart
  generalize all.rtake room = back at whole full
  subst whole
  simp only [List.map_cons, List.map_nil, List.mem_singleton, lastOfEach, List.not_mem_nil, if_false, List.filter_append,
    List.append_assoc, decide_not]
  rcases full with rfl | full
  · rfl
  -- At most one entry goes, and the new one fills its place.
  refine (rtake_append_of_le ?_).symm
  have one : back.countP (fun b => key b == key a) ≤ 1 := by
    have once : (back.map key).Nodup := by
      rw [List.map_append] at apart
      exact apart.of_append_right
    have count := List.nodup_iff_count_le_one.mp once (key a)
    rw [List.count, List.countP_map] at count
    exact count
  have parts := List.length_eq_countP_add_countP (fun b => key b == key a) (l := back)
  have kept : (back.filter fun b => !decide (key b = key a)).length = back.countP fun b => decide ¬ (key b == key a) = true := by
    rw [← List.countP_eq_length_filter]
    congr
    funext b
    simp
  rw [List.length_append, kept, List.length_singleton]
  omega

/-- Putting in one entry after the other. -/
theorem foldl_mostRecent (history : List α) :
    history.foldl (fun held a => mostRecent key room (held ++ [a])) [] = mostRecent key room history := by
  induction history using List.reverseRecOn with
  | nil => exact mostRecent_nil.symm
  | append_singleton earlier a ih =>
      rw [List.foldl_append, ih]
      exact mostRecent_mostRecent_concat earlier a

/-! ## Two keys -/

section TwoKeys

variable {κ' : Type*} [DecidableEq κ'] (fine : α → κ') (coarsen : κ' → κ)

theorem lastOfEach_coarsen (history : List α) :
    lastOfEach (fun a => coarsen (fine a)) (lastOfEach fine history) =
      lastOfEach (fun a => coarsen (fine a)) history := by
  have keys : ∀ l : List α, (l.map fun a => coarsen (fine a)) = (l.map fine).map coarsen := fun l => by
    rw [List.map_map]
    rfl
  induction history with
  | nil => rfl
  | cons a later ih =>
      have same : coarsen (fine a) ∈ ((lastOfEach fine later).map fun a => coarsen (fine a)) ↔
          coarsen (fine a) ∈ (later.map fun a => coarsen (fine a)) := by
        rw [keys, keys, List.mem_map, List.mem_map]
        exact exists_congr fun k => and_congr_left fun _ => mem_keys_lastOfEach
      by_cases again : fine a ∈ later.map fine
      · have coarse : coarsen (fine a) ∈ (later.map fun a => coarsen (fine a)) := by
          rw [keys]
          exact List.mem_map_of_mem again
        rw [lastOfEach, if_pos again, ih, lastOfEach, if_pos coarse]
      · rw [lastOfEach, if_neg again, lastOfEach, lastOfEach, ih]
        exact if_congr same rfl rfl

/-- A coarser key keeps the same entries when it tells apart those the finer one keeps. -/
theorem mostRecent_coarsen (apart : ((mostRecent fine room history).map fun a => coarsen (fine a)).Nodup) :
    mostRecent (fun a => coarsen (fine a)) room history = mostRecent fine room history := by
  obtain ⟨front, whole, full⟩ := exists_append_rtake room (lastOfEach fine history)
  have short := length_rtake_le room (lastOfEach fine history)
  unfold mostRecent at apart ⊢
  rw [← lastOfEach_coarsen]
  generalize lastOfEach fine history = all at whole full apart short
  generalize all.rtake room = back at whole full apart short
  rw [whole, lastOfEach_append, lastOfEach_of_nodup apart]
  rcases full with rfl | full
  · exact rtake_of_length_le short
  · rw [rtake_append_of_le full.ge, rtake_of_length_le full.le]

end TwoKeys

end Recency
