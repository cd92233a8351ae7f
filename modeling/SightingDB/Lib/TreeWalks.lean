import Mathlib.Data.List.Nodup
import Mathlib.Data.List.Infix

/-!
Walking a tree whose nodes are paths: the children of a path are the labels that extend it.
-/
namespace TreeWalks

variable {α β : Type*}

section

variable (kids : List α → List α)

/-- Every path reached below one, each before what is below it. -/
def walk : Nat → List α → List (List α)
  | 0, _ => []
  | fuel + 1, path => (kids path).flatMap fun a => (path ++ [a]) :: walk fuel (path ++ [a])

end

variable {kids : List α → List α} {fuel : Nat} {path q : List α}

theorem extends_of_mem_walk (member : q ∈ walk kids fuel path) : path <+: q ∧ path.length < q.length := by
  induction fuel generalizing path with
  | zero => cases member
  | succ fuel ih =>
      obtain ⟨a, -, below⟩ := List.mem_flatMap.mp member
      rcases List.mem_cons.mp below with rfl | deeper
      · exact ⟨List.prefix_append _ _, by simp⟩
      · obtain ⟨start, longer⟩ := ih deeper
        refine ⟨(List.prefix_append _ _).trans start, ?_⟩
        rw [List.length_append, List.length_singleton] at longer
        omega

/-- No path is reached twice. -/
theorem walk_nodup (apart : ∀ path, (kids path).Nodup) (fuel : Nat) (path : List α) : (walk kids fuel path).Nodup := by
  induction fuel generalizing path with
  | zero => exact List.nodup_nil
  | succ fuel ih =>
      refine List.nodup_flatMap.mpr ⟨fun a _ => List.nodup_cons.mpr ⟨?_, ih _⟩, (apart path).imp ?_⟩
      · exact fun again => lt_irrefl _ (extends_of_mem_walk again).2
      · intro a b differ q here there
        -- What is reached through a label starts with it.
        have start (c : α) (through : q ∈ (path ++ [c]) :: walk kids fuel (path ++ [c])) : path ++ [c] <+: q := by
          rcases List.mem_cons.mp through with rfl | deeper
          · exact List.prefix_rfl
          · exact (extends_of_mem_walk deeper).1
        have same : path ++ [a] = path ++ [b] :=
          (List.prefix_of_prefix_length_le (start a here) (start b there) (by simp)).eq_of_length (by simp)
        exact differ (by simpa using same)

/-- The tree as a set of paths, closed under going up. -/
structure Closed (within : List α → Prop) (kids : List α → List α) : Prop where
  up : ∀ {path : List α} {a : α}, path ≠ [] → within (path ++ [a]) → within path
  kids : ∀ {path : List α} {a : α}, (path = [] ∨ within path) → (a ∈ kids path ↔ within (path ++ [a]))

variable {within : List α → Prop}

theorem Closed.down (closed : Closed within kids) {rest : List α} (some_ : path ≠ []) (whole : within (path ++ rest)) :
    within path := by
  induction rest using List.reverseRecOn with
  | nil => simpa using whole
  | append_singleton rest a ih =>
      rw [← List.append_assoc] at whole
      exact ih (closed.up (by simp [some_]) whole)

/-- What is reached is what the tree has below the start, as deep as the walk goes. -/
theorem Closed.mem_walk (closed : Closed within kids) (start : path = [] ∨ within path) :
    q ∈ walk kids fuel path ↔ within q ∧ path <+: q ∧ path.length < q.length ∧ q.length ≤ path.length + fuel := by
  induction fuel generalizing path with
  | zero =>
      simp only [walk, List.not_mem_nil, Nat.add_zero, false_iff, not_and, not_le]
      exact fun _ _ longer => longer
  | succ fuel ih =>
      simp only [walk, List.mem_flatMap, List.mem_cons]
      constructor
      · rintro ⟨a, kid, rfl | deeper⟩
        · have here := (closed.kids start).mp kid
          exact ⟨here, List.prefix_append _ _, by simp, by simp⟩
        · have here := (closed.kids start).mp kid
          obtain ⟨inside, front, longer, depth⟩ := (ih (.inr here)).mp deeper
          rw [List.length_append, List.length_singleton] at longer depth
          exact ⟨inside, (List.prefix_append _ _).trans front, by omega, by omega⟩
      · rintro ⟨inside, ⟨rest, rfl⟩, longer, depth⟩
        cases rest with
        | nil => simp at longer
        | cons a rest =>
            have here : within (path ++ [a]) := by
              rw [List.append_cons] at inside
              exact closed.down (by simp) inside
            refine ⟨a, (closed.kids start).mpr here, ?_⟩
            cases rest with
            | nil => exact .inl rfl
            | cons b rest =>
                refine .inr ((ih (.inr here)).mpr ⟨inside, ⟨b :: rest, by simp⟩, by simp, ?_⟩)
                simp only [List.length_append, List.length_cons, List.length_nil] at depth ⊢
                omega

/-- Browsing that lists each path's children in the tree's order reaches the tree's paths. -/
theorem map_walk {γ : Type*} {text : List α → γ} {entry : List α → β} {browse : Nat → γ → List β}
    (stop : ∀ at_, browse 0 at_ = [])
    (next : ∀ fuel path, path = [] ∨ within path → browse (fuel + 1) (text path) =
      (kids path).flatMap fun a => entry (path ++ [a]) :: browse fuel (text (path ++ [a])))
    (closed : Closed within kids) (fuel : Nat) {path : List α} (start : path = [] ∨ within path) :
    browse fuel (text path) = (walk kids fuel path).map entry := by
  induction fuel generalizing path with
  | zero => exact stop _
  | succ fuel ih =>
      rw [next fuel path start, walk, List.map_flatMap]
      refine List.flatMap_congr fun a kid => ?_
      rw [List.map_cons, ih (.inr ((closed.kids start).mp kid))]

end TreeWalks
