import Mathlib.Data.List.Infix
import Mathlib.Data.Set.Finite.Basic

/-!
Covering a node of a tree by prefixes. Where there are always more labels, finitely many prefixes
reach every child only from the node itself or from above it.
-/
namespace PrefixCover

variable {α : Type*} {labels : Set α}

theorem all_children_iff (many : labels.Infinite) (roots : List (List α)) (node : List α) :
    (∀ a ∈ labels, ∃ root ∈ roots, root <+: node ++ [a]) ↔ ∃ root ∈ roots, root <+: node := by
  classical
  constructor
  · intro every
    -- A label that ends none of the prefixes.
    obtain ⟨a, label, fresh⟩ := many.exists_notMem_finset (roots.filterMap List.getLast?).toFinset
    obtain ⟨root, member, start⟩ := every a label
    rcases List.prefix_concat_iff.mp start with rfl | above
    · exact absurd (List.mem_toFinset.mpr (List.mem_filterMap.mpr ⟨_, member, by simp⟩)) fresh
    · exact ⟨root, member, above⟩
  · rintro ⟨root, member, start⟩ a -
    exact ⟨root, member, start.trans (List.prefix_append _ _)⟩

end PrefixCover
