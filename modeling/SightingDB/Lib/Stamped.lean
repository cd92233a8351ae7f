import Mathlib.Order.Lattice
import Mathlib.Data.Finset.Lattice.Basic

/-!
A last-writer-wins register beside a growing content: the later stamp takes the whole
content, equal stamps join. Over a linear order of stamps this is a join semilattice.
-/
@[ext] structure Stamped (τ : Type*) (σ : Type*) where
  stamp : τ
  content : σ
  deriving DecidableEq

namespace Stamped

variable {τ : Type*} {σ : Type*} [LinearOrder τ] [SemilatticeSup σ]

def join (x y : Stamped τ σ) : Stamped τ σ :=
  if x.stamp < y.stamp then y
  else if y.stamp < x.stamp then x
  else ⟨x.stamp, x.content ⊔ y.content⟩

instance : Max (Stamped τ σ) := ⟨join⟩

theorem sup_of_lt {x y : Stamped τ σ} (later : x.stamp < y.stamp) : x ⊔ y = y := if_pos later

theorem sup_of_gt {x y : Stamped τ σ} (later : y.stamp < x.stamp) : x ⊔ y = x := by
  change join x y = x
  rw [join, if_neg (not_lt_of_gt later), if_pos later]

theorem sup_of_eq {x y : Stamped τ σ} (tie : x.stamp = y.stamp) :
    x ⊔ y = ⟨x.stamp, x.content ⊔ y.content⟩ := by
  change join x y = _
  rw [join, if_neg (by simp [tie]), if_neg (by simp [tie])]

@[simp] theorem stamp_sup (x y : Stamped τ σ) : (x ⊔ y).stamp = max x.stamp y.stamp := by
  rcases lt_trichotomy x.stamp y.stamp with later | tie | later
  · rw [sup_of_lt later, max_eq_right later.le]
  · simp [sup_of_eq tie, tie]
  · rw [sup_of_gt later, max_eq_left later.le]

private theorem join_comm (x y : Stamped τ σ) : x ⊔ y = y ⊔ x := by
  rcases lt_trichotomy x.stamp y.stamp with later | tie | later
  · rw [sup_of_lt later, sup_of_gt later]
  · rw [sup_of_eq tie, sup_of_eq tie.symm, tie, sup_comm]
  · rw [sup_of_gt later, sup_of_lt later]

private theorem join_self (x : Stamped τ σ) : x ⊔ x = x := by
  rw [sup_of_eq rfl, sup_idem]

private theorem join_assoc (x y z : Stamped τ σ) : x ⊔ y ⊔ z = x ⊔ (y ⊔ z) := by
  rcases lt_trichotomy x.stamp y.stamp with hxy | hxy | hxy <;>
    rcases lt_trichotomy y.stamp z.stamp with hyz | hyz | hyz
  · rw [sup_of_lt hxy, sup_of_lt hyz, sup_of_lt (hxy.trans hyz)]
  · rw [sup_of_lt hxy, sup_of_eq hyz]
    exact (sup_of_lt (by exact hxy)).symm
  · rw [sup_of_lt hxy, sup_of_gt hyz, sup_of_lt hxy]
  · rw [sup_of_eq hxy, sup_of_lt hyz, sup_of_lt (hxy.trans_lt hyz)]
    exact sup_of_lt (hxy.trans_lt hyz)
  · rw [sup_of_eq hxy, sup_of_eq hyz]
    refine (sup_of_eq (by exact hxy.trans hyz)).trans (Eq.trans ?_ (sup_of_eq (by exact hxy)).symm)
    rw [sup_assoc]
  · rw [sup_of_gt hyz, sup_of_eq hxy]
    exact sup_of_gt (hyz.trans_eq hxy.symm)
  · rw [sup_of_gt hxy, sup_of_lt hyz]
  · rw [sup_of_gt hxy, sup_of_gt (hyz.symm.trans_lt hxy), sup_of_eq hyz]
    exact (sup_of_gt (by exact hxy)).symm
  · rw [sup_of_gt hxy, sup_of_gt hyz, sup_of_gt (hyz.trans hxy), sup_of_gt hxy]

instance : SemilatticeSup (Stamped τ σ) := SemilatticeSup.mk' join_comm join_assoc join_self

theorem le_iff {x y : Stamped τ σ} :
    x ≤ y ↔ x.stamp < y.stamp ∨ x.stamp = y.stamp ∧ x.content ≤ y.content := by
  rw [← sup_eq_right]
  rcases lt_trichotomy x.stamp y.stamp with later | tie | later
  · simp [sup_of_lt later, later]
  · rw [sup_of_eq tie, Stamped.ext_iff]
    simp [tie]
  · rw [sup_of_gt later]
    constructor
    · rintro rfl
      exact absurd later (lt_irrefl _)
    · rintro (earlier | ⟨tie, _⟩)
      · exact absurd earlier (not_lt_of_gt later)
      · exact absurd later (by simp [tie])

/-! ## Many copies joined in one after the other -/

theorem stamp_le_foldl_sup (x : Stamped τ σ) (ys : List (Stamped τ σ)) {y : Stamped τ σ}
    (member : y ∈ x :: ys) : y.stamp ≤ (ys.foldl (· ⊔ ·) x).stamp := by
  induction ys generalizing x y with
  | nil =>
      obtain rfl := List.mem_singleton.mp member
      exact le_rfl
  | cons z rest ih =>
      have joined := ih (x ⊔ z) (List.mem_cons_self (a := x ⊔ z))
      rw [stamp_sup] at joined
      rcases List.mem_cons.mp member with rfl | later
      · exact (le_max_left _ _).trans joined
      · rcases List.mem_cons.mp later with rfl | later
        · exact (le_max_right _ _).trans joined
        · exact ih (x ⊔ z) (List.mem_cons_of_mem _ later)

theorem exists_stamp_foldl_sup (x : Stamped τ σ) (ys : List (Stamped τ σ)) :
    ∃ y ∈ x :: ys, y.stamp = (ys.foldl (· ⊔ ·) x).stamp := by
  induction ys generalizing x with
  | nil => exact ⟨x, by simp, rfl⟩
  | cons z rest ih =>
      obtain ⟨y, member, last⟩ := ih (x ⊔ z)
      rcases List.mem_cons.mp member with rfl | later
      · rcases max_choice x.stamp z.stamp with first | second
        · exact ⟨x, by simp, by rw [List.foldl_cons, ← last, stamp_sup, first]⟩
        · exact ⟨z, by simp, by rw [List.foldl_cons, ← last, stamp_sup, second]⟩
      · exact ⟨y, by simp [later], last⟩

variable {α : Type*} [DecidableEq α]

theorem mem_content_sup {x y : Stamped τ (Finset α)} {a : α} :
    a ∈ (x ⊔ y).content ↔ x.stamp = (x ⊔ y).stamp ∧ a ∈ x.content ∨
      y.stamp = (x ⊔ y).stamp ∧ a ∈ y.content := by
  rcases lt_trichotomy x.stamp y.stamp with later | tie | later
  · simp [sup_of_lt later, later.ne]
  · simp [sup_of_eq tie, tie]
  · simp [sup_of_gt later, later.ne]

/-- What is held in the end is what those with the latest stamp hold. -/
theorem mem_content_foldl_sup (x : Stamped τ (Finset α)) (ys : List (Stamped τ (Finset α))) (a : α) :
    a ∈ (ys.foldl (· ⊔ ·) x).content ↔
      ∃ y ∈ x :: ys, y.stamp = (ys.foldl (· ⊔ ·) x).stamp ∧ a ∈ y.content := by
  induction ys generalizing x with
  | nil => simp
  | cons z rest ih =>
      rw [List.foldl_cons, ih]
      -- The join of the first two stands for whichever of them is still latest.
      have top := stamp_le_foldl_sup (x ⊔ z) rest (List.mem_cons_self (a := x ⊔ z))
      have xTop : x.stamp ≤ (x ⊔ z).stamp := by simp
      have zTop : z.stamp ≤ (x ⊔ z).stamp := by simp
      simp only [List.exists_mem_cons_iff, mem_content_sup]
      constructor
      · rintro (⟨last, ⟨tie, held⟩ | ⟨tie, held⟩⟩ | later)
        · exact .inl ⟨tie.trans last, held⟩
        · exact .inr (.inl ⟨tie.trans last, held⟩)
        · exact .inr (.inr later)
      · rintro (⟨last, held⟩ | ⟨last, held⟩ | later)
        · have joined := le_antisymm xTop (top.trans last.ge)
          exact .inl ⟨joined.symm.trans last, .inl ⟨joined, held⟩⟩
        · have joined := le_antisymm zTop (top.trans last.ge)
          exact .inl ⟨joined.symm.trans last, .inr ⟨joined, held⟩⟩
        · exact .inr later

/-- A register keeps its content through any number of copies exactly when they are all
behind it, or when those that are latest of all happen to hold the same. -/
theorem content_foldl_sup_eq_iff (x : Stamped τ (Finset α)) (ys : List (Stamped τ (Finset α))) :
    (ys.foldl (· ⊔ ·) x).content = x.content ↔ (∀ y ∈ ys, y ≤ x) ∨
      ∃ z ∈ ys, x.stamp < z.stamp ∧ (∀ y ∈ ys, y.stamp ≤ z.stamp) ∧
        ∀ a, a ∈ x.content ↔ ∃ y ∈ ys, y.stamp = z.stamp ∧ a ∈ y.content := by
  have held := mem_content_foldl_sup x ys
  have top : ∀ y ∈ x :: ys, y.stamp ≤ (ys.foldl (· ⊔ ·) x).stamp := fun y member =>
    stamp_le_foldl_sup x ys member
  obtain ⟨z, member, last⟩ := exists_stamp_foldl_sup x ys
  rw [← last] at held top
  constructor
  · intro same
    rw [same] at held
    rcases lt_or_eq_of_le (top x (by simp)) with overtaken | latest
    · right
      have inside : z ∈ ys := by
        rcases List.mem_cons.mp member with rfl | inside
        · exact absurd overtaken (lt_irrefl _)
        · exact inside
      refine ⟨z, inside, overtaken, fun y inYs => top y (by simp [inYs]), fun a => ?_⟩
      rw [held]
      simp [overtaken.ne]
    · left
      intro y inYs
      refine le_iff.mpr ?_
      rcases lt_or_eq_of_le ((top y (by simp [inYs])).trans_eq latest.symm) with earlier | tie
      · exact .inl earlier
      · refine .inr ⟨tie, fun a inY => ?_⟩
        exact (held a).mpr ⟨y, by simp [inYs], tie.trans latest, inY⟩
  · rintro (behind | ⟨q, inYs, overtaken, latest, same⟩)
    · have kept : ys.foldl (· ⊔ ·) x = x := by
        clear held top last member
        induction ys with
        | nil => rfl
        | cons y rest ih =>
            rw [List.foldl_cons, sup_eq_left.mpr (behind y (by simp))]
            exact ih fun y' inRest => behind y' (by simp [inRest])
      rw [kept]
    · have tie : z.stamp = q.stamp := by
        refine le_antisymm ?_ (top q (by simp [inYs]))
        rcases List.mem_cons.mp member with rfl | inside
        · exact overtaken.le
        · exact latest z inside
      ext a
      rw [held, same, tie]
      simp [overtaken.ne]

end Stamped
