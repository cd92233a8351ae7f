import Mathlib.Data.List.DropRight
import Mathlib.Data.List.Infix
import Mathlib.Data.List.Basic

/-!
A path as the list of its segments: the parts between separators, the empty ones left out.
What a path begins with can be read off the segments or off the text; the two agree where the
text is not written with other separators.
-/
namespace Segments

variable {α : Type*} [DecidableEq α] {c : α}

/-- The parts between separators that are not empty. -/
def of (c : α) (path : List α) : List (List α) := (path.splitOn c).filter (· ≠ [])

@[simp] theorem of_nil : of c ([] : List α) = [] := by simp [of]

theorem of_append_cons (front rest : List α) : of c (front ++ c :: rest) = of c front ++ of c rest := by
  simp [of, List.splitOn_append_cons_self]

/-- Joined with the separator, parts split into what each of them splits into. -/
theorem splitOn_joined {parts : List (List α)} (some_ : parts ≠ []) :
    ([c].intercalate parts).splitOn c = parts.flatMap (List.splitOn c) := by
  induction parts with
  | nil => exact absurd rfl some_
  | cons part rest ih =>
      cases rest with
      | nil => simp
      | cons next others =>
          have joined : [c].intercalate (part :: next :: others) = part ++ c :: [c].intercalate (next :: others) := by
            simp [List.intercalate_cons_cons]
          rw [joined, List.splitOn_append_cons_self, ih (List.cons_ne_nil _ _)]
          exact (List.flatMap_cons ..).symm

@[simp] theorem of_cons (rest : List α) : of c (c :: rest) = of c rest := by
  simpa using of_append_cons (c := c) [] rest

theorem of_concat (front : List α) : of c (front ++ [c]) = of c front := by
  simpa using of_append_cons (c := c) front []

theorem of_solid {part : List α} (solid : c ∉ part) (some_ : part ≠ []) : of c part = [part] := by
  simp [of, List.splitOn_eq_singleton solid, some_]

/-- Separators at either end make no segment. -/
theorem of_dropWhile (path : List α) : of c (path.dropWhile (· = c)) = of c path := by
  induction path with
  | nil => rfl
  | cons d rest ih =>
      by_cases here : d = c
      · subst here
        simpa using ih
      · simp [here]

theorem of_rdropWhile (path : List α) : of c (path.rdropWhile (· = c)) = of c path := by
  induction path using List.reverseRecOn with
  | nil => rfl
  | append_singleton front d ih =>
      by_cases here : d = c
      · subst here
        rw [List.rdropWhile_concat_pos _ _ _ (by simp), ih, of_concat]
      · rw [List.rdropWhile_concat_neg _ _ _ (by simpa using here)]

/-- The text up to the last separator, and the segment after it. -/
theorem exists_last {path : List α} (some_ : path ≠ []) (closed : path.getLast? ≠ some c) :
    ∃ front part, c ∉ part ∧ part ≠ [] ∧ (path = part ∨ path = front ++ c :: part) := by
  induction path with
  | nil => exact absurd rfl some_
  | cons d rest ih =>
      by_cases last : rest = []
      · subst last
        exact ⟨[], [d], by simpa using fun h => closed (by simp [h]), by simp, .inl rfl⟩
      · have closed' : rest.getLast? ≠ some c := by rwa [List.getLast?_cons_of_ne_nil last] at closed
        obtain ⟨front, part, solid, nonempty, rfl | shape⟩ := ih last closed'
        · by_cases here : d = c
          · exact ⟨[], rest, solid, nonempty, .inr (by simp [here])⟩
          · exact ⟨[], d :: rest, by simp [Ne.symm here, solid], by simp, .inl rfl⟩
        · exact ⟨d :: front, part, solid, nonempty, .inr (by simp [shape])⟩

/-- A path continued after a separator begins with its segments. -/
theorem of_prefix_append (path rest : List α) : of c path <+: of c (path ++ c :: rest) := by
  rw [of_append_cons]
  exact List.prefix_append _ _

theorem solid_append {part rest : List α} (solid : c ∉ part) (some_ : part ≠ []) :
    ∃ more tail, of c (part ++ rest) = (part ++ more) :: tail ∧ (more = [] → rest = [] ∨ rest.head? = some c) := by
  by_cases open_ : c ∈ rest
  · obtain ⟨more, tail, rfl, free⟩ := List.eq_append_cons_of_mem open_
    refine ⟨more, of c tail, ?_, ?_⟩
    · rw [← List.append_assoc, of_append_cons, of_solid (by simp [solid, free]) (by simp [some_])]
      rfl
    · rintro rfl
      exact .inr rfl
  · refine ⟨rest, [], ?_, .inl⟩
    exact of_solid (by simp [solid, open_]) (by simp [some_])

/-- A text that goes on after a path, and still begins with the path's segments, goes on with a
separator. -/
theorem boundary {path rest : List α} (some_ : path ≠ []) (closed : path.getLast? ≠ some c)
    (begins : of c path <+: of c (path ++ rest)) : rest = [] ∨ rest.head? = some c := by
  obtain ⟨front, part, solid, nonempty, shape⟩ := exists_last some_ closed
  obtain ⟨more, tail, parts, ends⟩ := @solid_append α _ c part rest solid nonempty
  have head : [part] <+: of c (part ++ rest) := by
    rcases shape with rfl | rfl
    · rwa [of_solid solid nonempty] at begins
    · rw [List.append_assoc, List.cons_append, of_append_cons, of_append_cons, of_solid solid nonempty] at begins
      exact (List.prefix_append_right_inj _).mp begins
  rw [parts, List.cons_prefix_cons] at head
  exact ends (by simpa using head.1)

end Segments
