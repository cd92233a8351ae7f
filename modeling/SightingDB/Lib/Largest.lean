import Mathlib.Data.Finset.Max
import Mathlib.Data.Finset.Card

/-!
The largest members of a finite set. Dropping all but the largest after each insertion is
dropping all but the largest of everything that was ever inserted.
-/
namespace Largest

variable {α : Type*} [LinearOrder α]

/-- Members with fewer than `k` others above them. -/
def largest (k : Nat) (s : Finset α) : Finset α := s.filter fun x => (s.filter (x < ·)).card < k

variable {k : Nat} {s : Finset α} {x b : α}

theorem mem_largest : x ∈ largest k s ↔ x ∈ s ∧ (s.filter (x < ·)).card < k := Finset.mem_filter

theorem largest_subset : largest k s ⊆ s := Finset.filter_subset _ _

/-- Where there are `k` members above, `k` of the largest are. -/
theorem le_card_above (many : k ≤ (s.filter (x < ·)).card) : k ≤ ((largest k s).filter (x < ·)).card := by
  by_contra few
  have some_ : ((s.filter (x < ·)) \ (largest k s)).Nonempty := by
    by_contra none
    have inside : s.filter (x < ·) ⊆ (largest k s).filter (x < ·) := fun y above => by
      refine Finset.mem_filter.mpr ⟨?_, (Finset.mem_filter.mp above).2⟩
      by_contra out
      exact none ⟨y, Finset.mem_sdiff.mpr ⟨above, out⟩⟩
    have bound := Finset.card_le_card inside
    omega
  -- The greatest that is missing has only members above it that are not.
  obtain ⟨y, member, top⟩ := Finset.exists_max_image _ id some_
  obtain ⟨above, out⟩ := Finset.mem_sdiff.mp member
  obtain ⟨here, beyond⟩ := Finset.mem_filter.mp above
  refine out (mem_largest.mpr ⟨here, lt_of_le_of_lt (Finset.card_le_card fun z higher => ?_) (not_le.mp few)⟩)
  obtain ⟨there, greater⟩ := Finset.mem_filter.mp higher
  have far : x < z := beyond.trans greater
  refine Finset.mem_filter.mpr ⟨?_, far⟩
  by_contra missing
  exact absurd (top z (Finset.mem_sdiff.mpr ⟨Finset.mem_filter.mpr ⟨there, far⟩, missing⟩)) (not_le.mpr greater)

/-- Nothing that was dropped can come back. -/
theorem largest_insert : largest k (insert b (largest k s)) = largest k (insert b s) := by
  have less : insert b (largest k s) ⊆ insert b s := Finset.insert_subset_insert b largest_subset
  ext x
  rw [mem_largest, mem_largest]
  constructor
  · rintro ⟨member, few⟩
    refine ⟨less member, ?_⟩
    by_contra many
    rw [not_lt] at many
    by_cases enough : k ≤ (s.filter (x < ·)).card
    · have kept := (le_card_above enough).trans (Finset.card_le_card (Finset.filter_subset_filter (x < ·) (Finset.subset_insert b _)))
      omega
    · have all : s.filter (x < ·) ⊆ largest k s := fun y above => by
        obtain ⟨there, beyond⟩ := Finset.mem_filter.mp above
        refine mem_largest.mpr ⟨there, lt_of_le_of_lt (Finset.card_le_card fun z higher => ?_) (not_le.mp enough)⟩
        obtain ⟨further, greater⟩ := Finset.mem_filter.mp higher
        exact Finset.mem_filter.mpr ⟨further, beyond.trans greater⟩
      have same : (insert b s).filter (x < ·) ⊆ (insert b (largest k s)).filter (x < ·) := fun y above => by
        obtain ⟨there, beyond⟩ := Finset.mem_filter.mp above
        refine Finset.mem_filter.mpr ⟨?_, beyond⟩
        rcases Finset.mem_insert.mp there with rfl | old
        · exact Finset.mem_insert_self _ _
        · exact Finset.mem_insert_of_mem (all (Finset.mem_filter.mpr ⟨old, beyond⟩))
      have bound := Finset.card_le_card same
      omega
  · rintro ⟨member, few⟩
    refine ⟨?_, lt_of_le_of_lt (Finset.card_le_card (Finset.filter_subset_filter _ less)) few⟩
    rcases Finset.mem_insert.mp member with rfl | old
    · exact Finset.mem_insert_self _ _
    · refine Finset.mem_insert_of_mem (mem_largest.mpr ⟨old, lt_of_le_of_lt (Finset.card_le_card ?_) few⟩)
      exact Finset.filter_subset_filter _ (Finset.subset_insert b s)

end Largest
