import Mathlib.Logic.Basic

/-!
State-passing functions that cannot tell related states apart: they answer alike and leave
related states.
-/

/-- One step for each member of a list, in order. -/
def Steps.each {σ α β : Type*} (step : α → σ → σ × β) : List α → σ → σ × List β
  | [], s => (s, [])
  | a :: rest, s =>
      let (s, b) := step a s
      let (s, bs) := Steps.each step rest s
      (s, b :: bs)

/-- From related states, related states and one answer. -/
def Oblivious {σ α : Type*} (R : σ → σ → Prop) (step : σ → σ × α) : Prop :=
  ∀ ⦃s s' : σ⦄, R s s' → R (step s).1 (step s').1 ∧ (step s).2 = (step s').2

namespace Oblivious

variable {σ α β : Type*} {R : σ → σ → Prop} {step : σ → σ × α} {s s' : σ}

theorem answer (a : α) : Oblivious R fun s => (s, a) := fun _ _ related => ⟨related, rfl⟩

/-- Where two related states go, and the answer they give. -/
theorem ends (blind : Oblivious R step) (related : R s s') :
    ∃ t t' a, step s = (t, a) ∧ step s' = (t', a) ∧ R t t' := by
  obtain ⟨kept, same⟩ := blind related
  exact ⟨(step s).1, (step s').1, (step s').2, Prod.ext rfl same, rfl, kept⟩

theorem map (blind : Oblivious R step) (f : α → β) : Oblivious R fun s => ((step s).1, f (step s).2) := by
  intro s s' related
  obtain ⟨kept, same⟩ := blind related
  exact ⟨kept, congrArg f same⟩

theorem each {step : α → σ → σ × β} {l : List α} (blind : ∀ a ∈ l, Oblivious R (step a)) : Oblivious R (Steps.each step l) := by
  induction l with
  | nil => exact answer []
  | cons a rest ih =>
      intro s s' related
      obtain ⟨t, t', b, first, first', kept⟩ := (blind a (by simp)).ends related
      obtain ⟨u, u', bs, later, later', kept'⟩ := (ih fun other mem => blind other (by simp [mem])).ends kept
      simp only [Steps.each, first, first', later, later']
      exact ⟨kept', trivial⟩

end Oblivious
