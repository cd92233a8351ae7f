import Mathlib.Data.Set.Finite.List
import Mathlib.Data.Set.Finite.Basic
import Mathlib.Logic.Relation

/-!
Chains of steps, where every element has a list of next ones. If no chain from an element
is longer than some bound, there are only finitely many.
-/
namespace Chains

variable {α : Type} (next : α → List α)

/-- A chain of steps from an element, the element itself left out. -/
def Follows : α → List α → Prop
  | _, [] => True
  | a, b :: rest => b ∈ next a ∧ Follows b rest

/-- All chains of at most a given length. -/
def upTo : Nat → α → List (List α)
  | 0, _ => [[]]
  | n + 1, a => [] :: (next a).flatMap fun b => (upTo n b).map (b :: ·)

variable {next} {a : α}

theorem mem_upTo {n : Nat} {chain : List α} (follows : Follows next a chain) (short : chain.length ≤ n) :
    chain ∈ upTo next n a := by
  induction n generalizing a chain with
  | zero =>
      obtain rfl := List.length_eq_zero_iff.mp (Nat.le_zero.mp short)
      exact List.mem_singleton_self _
  | succ n ih =>
      cases chain with
      | nil => exact List.mem_cons_self
      | cons b rest =>
          refine List.mem_cons_of_mem _ (List.mem_flatMap.mpr ⟨b, follows.1, List.mem_map.mpr ⟨rest, ?_, rfl⟩⟩)
          exact ih follows.2 (Nat.le_of_succ_le_succ short)

theorem finite_of_bounded {n : Nat} (bounded : ∀ chain, Follows next a chain → chain.length ≤ n) :
    {chain | Follows next a chain}.Finite :=
  (List.finite_toSet (upTo next n a)).subset fun chain follows => mem_upTo follows (bounded chain follows)

/-- What is reached lies on a chain, and any chain from there goes on with it. -/
theorem exists_follows {b : α} (reached : Relation.ReflTransGen (fun a b => b ∈ next a) a b) :
    ∃ way, ∀ rest, Follows next b rest → Follows next a (way ++ rest) := by
  induction reached using Relation.ReflTransGen.head_induction_on with
  | refl => exact ⟨[], fun _ follows => follows⟩
  | head one _ ih =>
      obtain ⟨way, onward⟩ := ih
      exact ⟨_ :: way, fun rest follows => ⟨one, onward rest follows⟩⟩

end Chains
