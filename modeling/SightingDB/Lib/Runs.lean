import Mathlib.Data.List.TakeDrop
import Mathlib.Order.Lattice

/-!
The longest run of elements a predicate accepts, the first where there are several, found in one pass; and a list put together
again from what is around a run of one element.
-/
namespace Runs

variable {α : Type} (p : α → Bool)

/-- A stretch of a list. -/
structure Span where
  start : Nat
  len : Nat
  deriving DecidableEq

/-- Nothing, anywhere. -/
def Span.none_ : Span := ⟨0, 0⟩

/-- The run the element at a position belongs to. -/
def grow (i : Nat) (a : α) (current : Span) : Span :=
  if p a then { start := if current.len = 0 then i else current.start, len := current.len + 1 } else .none_

/-- What is left, from a position on. -/
def longestFrom : (i : Nat) → (longest current : Span) → List α → Span
  | _, longest, _, [] => longest
  | i, longest, current, a :: rest =>
      let current := grow p i a current
      longestFrom (i + 1) (if longest.len < current.len then current else longest) current rest

/-- The longest run, the first of several. -/
def longestRun (l : List α) : Span := longestFrom p 0 .none_ .none_ l

/-- A stretch inside the list, of accepted elements. -/
def IsRun (l : List α) (span : Span) : Prop :=
  span.start + span.len ≤ l.length ∧ ∀ i, span.start ≤ i → i < span.start + span.len → ∀ a ∈ l[i]?, p a = true

variable {p}

theorem IsRun.append {l : List α} {span : Span} (run : IsRun p l span) (more : List α) : IsRun p (l ++ more) span := by
  refine ⟨?_, ?_⟩
  · rw [List.length_append]
    exact run.1.trans (Nat.le_add_right _ _)
  · intro i low high a here
    rw [List.getElem?_append_left (high.trans_le run.1)] at here
    exact run.2 i low high a here

theorem isRun_none (l : List α) : IsRun p l .none_ :=
  ⟨Nat.zero_le _, fun _ _ high => absurd high (Nat.not_lt_zero _)⟩

/-- A run that ends where the list does goes on with an element that is accepted. -/
theorem grow_isRun {l : List α} {current : Span} (run : IsRun p l current)
    (last : current.len = 0 ∨ current.start + current.len = l.length) (a : α) :
    IsRun p (l ++ [a]) (grow p l.length a current) ∧
      ((grow p l.length a current).len = 0 ∨ (grow p l.length a current).start + (grow p l.length a current).len = (l ++ [a]).length) := by
  unfold grow
  by_cases accepted : p a = true
  · rw [if_pos accepted]
    have ends : (if current.len = 0 then l.length else current.start) + current.len = l.length := by
      split <;> omega
    have ends' : (if current.len = 0 then l.length else current.start) + (current.len + 1) = (l ++ [a]).length := by
      rw [List.length_append, List.length_singleton]
      omega
    refine ⟨⟨ends'.le, ?_⟩, .inr ends'⟩
    intro i low high b here
    replace high : i < (l ++ [a]).length := high.trans_eq ends'
    rw [List.length_append, List.length_singleton] at high
    by_cases new : i = l.length
    · rw [new, List.getElem?_concat_length, Option.mem_some_iff] at here
      exact here ▸ accepted
    · have old : i < l.length := by omega
      rw [List.getElem?_append_left old] at here
      by_cases empty : current.len = 0
      · have start : l.length ≤ i := by
          dsimp only at low
          rwa [if_pos empty] at low
        omega
      · have start : current.start ≤ i := by
          dsimp only at low
          rwa [if_neg empty] at low
        rw [if_neg empty] at ends
        exact run.2 i start (by omega) b here
  · rw [if_neg accepted]
    exact ⟨isRun_none _, .inl rfl⟩

theorem longestFrom_isRun {done : List α} {longest current : Span} (run : IsRun p done longest) (now : IsRun p done current)
    (last : current.len = 0 ∨ current.start + current.len = done.length) (rest : List α) :
    IsRun p (done ++ rest) (longestFrom p done.length longest current rest) := by
  induction rest generalizing done longest current with
  | nil =>
      rw [List.append_nil]
      exact run
  | cons a rest ih =>
      obtain ⟨grown, ends⟩ := grow_isRun now last a
      have next : IsRun p (done ++ [a])
          (if longest.len < (grow p done.length a current).len then grow p done.length a current else longest) := by
        split
        · exact grown
        · exact run.append [a]
      have more := ih next grown ends
      rw [List.append_assoc, List.singleton_append, List.length_append, List.length_singleton] at more
      exact more

/-- What is found is a run. -/
theorem longestRun_isRun (l : List α) : IsRun p l (longestRun p l) :=
  longestFrom_isRun (isRun_none []) (isRun_none []) (.inl rfl) l

/-- A list of so many elements, with one element wherever neither the front nor the back says another. -/
def fill (n : Nat) (blank : α) (front back : List α) : List α :=
  front ++ List.replicate (n - front.length - back.length) blank ++ back

theorem map_fill {β : Type} (f : α → β) (n : Nat) (blank : α) (front back : List α) :
    (fill n blank front back).map f = fill n (f blank) (front.map f) (back.map f) := by
  simp [fill]

theorem fill_whole {n : Nat} {front : List α} (full : front.length = n) (blank : α) : fill n blank front [] = front := by
  simp [fill, full]

/-- Around a run of one element there is enough to have the list back. -/
theorem fill_around [DecidableEq α] {l : List α} {blank : α} {span : Span} (run : IsRun (· = blank) l span) :
    fill l.length blank (l.take span.start) (l.drop (span.start + span.len)) = l := by
  have low : span.start ≤ l.length := (Nat.le_add_right _ _).trans run.1
  have missing : l.length - (l.take span.start).length - (l.drop (span.start + span.len)).length = span.len := by
    rw [List.length_take_of_le low, List.length_drop]
    have := run.1
    omega
  have middle : (l.drop span.start).take span.len = List.replicate span.len blank := by
    rw [List.eq_replicate_iff]
    refine ⟨?_, ?_⟩
    · rw [List.length_take_of_le]
      rw [List.length_drop]
      have := run.1
      omega
    · intro a member
      obtain ⟨i, inside, rfl⟩ := List.mem_take_iff_getElem.mp member
      rw [List.getElem_drop]
      have short : i < span.len := inside.trans_le (Nat.min_le_left _ _)
      exact of_decide_eq_true (run.2 (span.start + i) (Nat.le_add_right _ _) (by omega) _ (List.getElem?_eq_getElem _))
  unfold fill
  rw [missing, ← middle, List.append_assoc, ← List.drop_drop, List.take_append_drop, List.take_append_drop]

end Runs
