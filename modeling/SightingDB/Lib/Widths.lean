import Mathlib.Data.List.Basic
import Mathlib.Data.List.Infix
import Mathlib.Algebra.Order.BigOperators.Group.List
import Mathlib.Algebra.Ring.Nat

/-!
Sequences whose elements are of different widths, and places in them given by width. A place is a
boundary if it lies between two elements; a slice is taken between boundaries only.
-/
namespace Widths

variable {α : Type*} (width : α → Nat)

def total (l : List α) : Nat := (l.map width).sum

def isBoundary : List α → Nat → Bool
  | _, 0 => true
  | [], _ + 1 => false
  | a :: l, n + 1 => width a ≤ n + 1 && isBoundary l (n + 1 - width a)

/-- What comes from a place on; nothing, inside an element or behind the last. -/
def dropWidth : List α → Nat → Option (List α)
  | l, 0 => some l
  | [], _ + 1 => none
  | a :: l, n + 1 => if width a ≤ n + 1 then dropWidth l (n + 1 - width a) else none

/-- What comes up to a place. -/
def takeWidth : List α → Nat → Option (List α)
  | _, 0 => some []
  | [], _ + 1 => none
  | a :: l, n + 1 => if width a ≤ n + 1 then (takeWidth l (n + 1 - width a)).map (a :: ·) else none

/-- What comes between two places. -/
def slice (l : List α) (start end_ : Nat) : Option (List α) :=
  if start ≤ end_ then (dropWidth width l start).bind fun rest => takeWidth width rest (end_ - start) else none

variable {width} {l front back part : List α} {n : Nat}

theorem total_append (front back : List α) : total width (front ++ back) = total width front + total width back := by
  unfold total
  rw [List.map_append, List.sum_append]

theorem total_cons (a : α) (l : List α) : total width (a :: l) = width a + total width l := rfl

/-- A place is a boundary if something up to it is that wide. -/
theorem isBoundary_iff : isBoundary width l n = true ↔ ∃ front back, l = front ++ back ∧ total width front = n := by
  induction l generalizing n with
  | nil =>
      cases n with
      | zero => exact ⟨fun _ => ⟨[], [], rfl, rfl⟩, fun _ => rfl⟩
      | succ n =>
          constructor
          · intro inside
            cases inside
          · rintro ⟨front, back, none_, wide⟩
            rw [(List.append_eq_nil_iff.mp none_.symm).1] at wide
            cases wide
  | cons a l ih =>
      cases n with
      | zero => exact ⟨fun _ => ⟨[], a :: l, rfl, rfl⟩, fun _ => rfl⟩
      | succ n =>
          rw [isBoundary, Bool.and_eq_true, decide_eq_true_eq, ih]
          constructor
          · rintro ⟨fits, front, back, rfl, wide⟩
            exact ⟨a :: front, back, rfl, by rw [total_cons, wide]; omega⟩
          · rintro ⟨front, back, split, wide⟩
            cases front with
            | nil => cases wide
            | cons b front =>
                obtain ⟨rfl, rfl⟩ := List.cons.inj split
                rw [total_cons] at wide
                exact ⟨by omega, front, back, rfl, by omega⟩

/-- A boundary behind another is the end of a part that starts at it. -/
theorem part_of_boundary (inside : isBoundary width (front ++ back) n = true) (behind : total width front < n) :
    ∃ part rest, back = part ++ rest ∧ part ≠ [] ∧ total width front + total width part = n := by
  obtain ⟨front', back', split, rfl⟩ := isBoundary_iff.mp inside
  rcases List.append_eq_append_iff.mp split with ⟨part, rfl, rest⟩ | ⟨extra, rfl, _⟩
  · refine ⟨part, back', rest, ?_, (total_append _ _).symm⟩
    rintro rfl
    rw [List.append_nil] at behind
    exact lt_irrefl _ behind
  · rw [total_append] at behind
    omega

section Positive

variable (positive : ∀ a, 0 < width a)

include positive

theorem total_pos (some_ : l ≠ []) : 0 < total width l := by
  cases l with
  | nil => exact absurd rfl some_
  | cons a l => exact (positive a).trans_le (Nat.le_add_right _ _)

theorem dropWidth_append (front back : List α) : dropWidth width (front ++ back) (total width front) = some back := by
  induction front with
  | nil =>
      unfold total
      rw [List.map_nil, List.sum_nil, List.nil_append, dropWidth]
  | cons a front ih =>
      have wide := positive a
      obtain ⟨n, size⟩ : ∃ n, total width (a :: front) = n + 1 := Nat.exists_eq_succ_of_ne_zero (by rw [total_cons]; omega)
      have rest : n + 1 - width a = total width front := by rw [← size, total_cons]; omega
      rw [List.cons_append, size, dropWidth, if_pos (by rw [← size, total_cons]; omega), rest, ih]

theorem takeWidth_append (front back : List α) : takeWidth width (front ++ back) (total width front) = some front := by
  induction front with
  | nil =>
      unfold total
      rw [List.map_nil, List.sum_nil, List.nil_append, takeWidth]
  | cons a front ih =>
      have wide := positive a
      obtain ⟨n, size⟩ : ∃ n, total width (a :: front) = n + 1 := Nat.exists_eq_succ_of_ne_zero (by rw [total_cons]; omega)
      have rest : n + 1 - width a = total width front := by rw [← size, total_cons]; omega
      rw [List.cons_append, size, takeWidth, if_pos (by rw [← size, total_cons]; omega), rest, ih]
      rfl

theorem slice_append (front part back : List α) :
    slice width (front ++ (part ++ back)) (total width front) (total width front + total width part) = some part := by
  rw [slice, if_pos (Nat.le_add_right _ _), dropWidth_append positive, Option.bind_some, Nat.add_sub_cancel_left,
    takeWidth_append positive]

end Positive

end Widths
