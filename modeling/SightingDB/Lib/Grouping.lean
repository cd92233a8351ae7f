import Mathlib.Data.List.Basic
import Mathlib.Data.List.Induction
import Mathlib.Data.List.Nodup

/-!
Members put into groups by a key that not every member has. A group is opened by the first
member with its key, and keeps its members in the order they come in.
-/
namespace Grouping

variable {α κ : Type*} [DecidableEq κ]

/-- Put a member into the group of its key. -/
def into (groups : List (κ × List α)) (k : κ) (member : α) : List (κ × List α) :=
  if groups.any (·.1 = k) then groups.map fun group => if group.1 = k then (group.1, group.2 ++ [member]) else group
  else groups ++ [(k, [member])]

/-- Groups of some members: each key once, under it all the members with that key and nothing
else. -/
structure Grouped (key : α → Option κ) (members : List α) (groups : List (κ × List α)) : Prop where
  apart : (groups.map Prod.fst).Nodup
  whole : ∀ group ∈ groups, group.2 = members.filter fun a => key a = some group.1
  some_ : ∀ group ∈ groups, group.2 ≠ []
  covered : ∀ a ∈ members, ∀ k, key a = some k → k ∈ groups.map Prod.fst

variable {key : α → Option κ} {members : List α} {groups : List (κ × List α)} {a : α} {k : κ}

theorem Grouped.nil : Grouped key [] [] := ⟨List.nodup_nil, nofun, nofun, nofun⟩

/-- A member without a key is in no group. -/
theorem Grouped.other (grouped : Grouped key members groups) (none_ : key a = none) : Grouped key (members ++ [a]) groups where
  apart := grouped.apart
  whole group member := by simp [grouped.whole group member, none_]
  some_ := grouped.some_
  covered other member k found := by
    rcases List.mem_append.mp member with before | new
    · exact grouped.covered other before k found
    · rw [List.mem_singleton.mp new, none_] at found
      cases found

theorem Grouped.into (grouped : Grouped key members groups) (found : key a = some k) :
    Grouped key (members ++ [a]) (into groups k a) := by
  have covered (groups' : List (κ × List α)) (keys : ∀ j, j ∈ groups.map Prod.fst ∨ j = k → j ∈ groups'.map Prod.fst) :
      ∀ other ∈ members ++ [a], ∀ j, key other = some j → j ∈ groups'.map Prod.fst := by
    intro other member j there
    rcases List.mem_append.mp member with before | new
    · exact keys j (.inl (grouped.covered other before j there))
    · rw [List.mem_singleton.mp new, found] at there
      exact keys j (.inr (Option.some.inj there).symm)
  simp only [Grouping.into]
  split
  · rename_i known
    obtain ⟨old, member, same⟩ := List.any_eq_true.mp known
    have keys : (groups.map fun group => if group.1 = k then (group.1, group.2 ++ [a]) else group).map Prod.fst =
        groups.map Prod.fst := by
      rw [List.map_map]
      refine List.map_congr_left fun group _ => ?_
      rw [Function.comp_apply]
      split <;> rfl
    refine ⟨keys ▸ grouped.apart, ?_, ?_, covered _ ?_⟩
    · intro group there
      obtain ⟨before, member', rfl⟩ := List.mem_map.mp there
      have whole := grouped.whole before member'
      split
      · rename_i here
        rw [here] at whole
        simp [whole, here, found]
      · rename_i other
        simp [← whole, found, Ne.symm other]
    · intro group there
      obtain ⟨before, member', rfl⟩ := List.mem_map.mp there
      split
      · simp
      · exact grouped.some_ before member'
    · rw [keys]
      rintro j (before | rfl)
      · exact before
      · exact List.mem_map.mpr ⟨old, member, by simpa using same⟩
  · rename_i fresh
    have new : k ∉ groups.map Prod.fst := by simpa using fresh
    have unmet : members.filter (fun other => key other = some k) = [] :=
      List.filter_eq_nil_iff.mpr fun other member there => new (grouped.covered other member k (by simpa using there))
    refine ⟨?_, ?_, ?_, covered _ ?_⟩
    · rw [List.map_append, List.nodup_append]
      refine ⟨grouped.apart, by simp, fun j member i last => ?_⟩
      rw [List.mem_singleton.mp last]
      rintro rfl
      exact new member
    · intro group there
      rcases List.mem_append.mp there with before | last
      · have other : k ≠ group.1 := fun same => new (same ▸ List.mem_map_of_mem before)
        simp [grouped.whole group before, found, other]
      · simp [List.mem_singleton.mp last, unmet, found]
    · intro group there
      rcases List.mem_append.mp there with before | last
      · exact grouped.some_ group before
      · simp [List.mem_singleton.mp last]
    · rintro j (before | rfl)
      · simp [List.mem_map.mp before]
      · simp

/-- All the groups of a list. -/
theorem grouped_foldl (members : List α) :
    Grouped key members (members.foldl (fun groups a => (key a).elim groups (Grouping.into groups · a)) []) := by
  induction members using List.reverseRecOn with
  | nil => exact .nil
  | append_singleton rest a ih =>
      rw [List.foldl_append, List.foldl_cons, List.foldl_nil]
      cases found : key a with
      | none => exact ih.other found
      | some k => exact ih.into found

end Grouping
