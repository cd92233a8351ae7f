import Mathlib.Data.List.Basic
import Mathlib.Data.List.Induction
import Mathlib.Data.List.Perm.Basic
import Mathlib.Order.Lattice

/-!
The last of the greatest members of a list, by a key. Which member that is depends on the order of the
list exactly when several are greatest.
-/
namespace LastMaximum

variable {α κ : Type*} [LinearOrder κ] (key : α → κ)

def pick (best : Option α) (a : α) : Option α :=
  match best with
  | none => some a
  | some known => if key known ≤ key a then some a else some known

def last (l : List α) : Option α := l.foldl (pick key) none

/-- A member that no other exceeds. -/
structure Greatest (l : List α) (a : α) : Prop where
  mem : a ∈ l
  top : ∀ b ∈ l, key b ≤ key a

variable {key} {l l' : List α} {a b : α}

theorem Greatest.perm (greatest : Greatest key l a) (same : l'.Perm l) : Greatest key l' a :=
  ⟨same.mem_iff.mpr greatest.mem, fun b member => greatest.top b (same.mem_iff.mp member)⟩

theorem last_concat (l : List α) (a : α) : last key (l ++ [a]) = pick key (last key l) a := by
  rw [last, List.foldl_append]
  rfl

theorem exists_last (key : α → κ) (some_ : l ≠ []) : ∃ a, last key l = some a := by
  obtain ⟨front, a, rfl⟩ := (List.eq_nil_or_concat' l).resolve_left some_
  rw [last_concat]
  cases last key front with
  | none => exact ⟨a, rfl⟩
  | some known =>
      by_cases more : key known ≤ key a
      · exact ⟨a, if_pos more⟩
      · exact ⟨known, if_neg more⟩

theorem last_spec (found : last key l = some a) : Greatest key l a := by
  induction l using List.reverseRecOn generalizing a with
  | nil => cases found
  | append_singleton front next ih =>
      rw [last_concat] at found
      by_cases none_ : front = []
      · subst none_
        obtain rfl := Option.some.inj found
        exact ⟨by simp, by simp⟩
      · obtain ⟨best, known⟩ := exists_last key none_
        have before := ih known
        rw [known] at found
        simp only [pick] at found
        split at found
        · rename_i more
          obtain rfl := Option.some.inj found
          refine ⟨by simp, fun b member => ?_⟩
          rcases List.mem_append.mp member with early | late
          · exact (before.top b early).trans more
          · rw [List.mem_singleton.mp late]
        · rename_i less
          obtain rfl := Option.some.inj found
          refine ⟨List.mem_append_left _ before.mem, fun b member => ?_⟩
          rcases List.mem_append.mp member with early | late
          · exact before.top b early
          · rw [List.mem_singleton.mp late]
            exact (not_le.mp less).le

/-- Put last, a greatest member is the one. -/
theorem last_of_greatest (top : ∀ b ∈ l, key b ≤ key a) : last key (l ++ [a]) = some a := by
  rw [last_concat]
  cases known : last key l with
  | none => rfl
  | some best => exact if_pos (top best (last_spec known).mem)

section Orders

variable [DecidableEq α] {p : α → Bool}

/-- Every greatest one of some members is the last in some order of the whole list. -/
theorem exists_order (greatest : Greatest key (l.filter p) a) : ∃ m : List α, m.Perm l ∧ last key (m.filter p) = some a := by
  obtain ⟨member, chosen⟩ := List.mem_filter.mp greatest.mem
  have order : (l.erase a ++ [a]).Perm l := (List.perm_append_singleton a _).trans (List.perm_cons_erase member).symm
  refine ⟨_, order, ?_⟩
  rw [List.filter_append, List.filter_cons_of_pos chosen, List.filter_nil]
  refine last_of_greatest fun b inside => greatest.top b ((order.filter p).mem_iff.mp ?_)
  rw [List.filter_append]
  exact List.mem_append_left _ inside

/-- The order makes no difference when there is one greatest member at most, and only then. -/
theorem same_every_order : (∀ m : List α, m.Perm l → last key (m.filter p) = last key (l.filter p)) ↔
    ∀ a b, Greatest key (l.filter p) a → Greatest key (l.filter p) b → a = b := by
  constructor
  · intro same a b first second
    obtain ⟨m, order, last_⟩ := exists_order first
    obtain ⟨m', order', last_'⟩ := exists_order second
    rw [same m order] at last_
    rw [same m' order', last_] at last_'
    exact Option.some.inj last_'
  · intro one m order
    have perm := order.filter p
    by_cases none_ : l.filter p = []
    · rw [none_] at perm
      rw [none_, List.perm_nil.mp perm]
    · have none_' : m.filter p ≠ [] := fun none_' => none_ (List.nil_perm.mp (none_' ▸ perm))
      obtain ⟨a, found⟩ := exists_last key none_
      obtain ⟨b, found'⟩ := exists_last key none_'
      rw [found, found', one b a ((last_spec found').perm perm.symm) (last_spec found)]

end Orders

end LastMaximum
