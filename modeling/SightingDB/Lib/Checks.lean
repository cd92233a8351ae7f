import Mathlib.Data.List.Basic

/-!
Computations that stop at one fault. A check gives its value where a condition holds, and the
fault where it does not; checks run one after the other are one check of all their conditions.
-/
namespace Checks

universe u

variable {ε : Type*} {α β σ : Type u}

/-- The value, if the condition holds. -/
def check (fault : ε) (p : Prop) [Decidable p] (x : α) : Except ε α := if p then .ok x else .error fault

variable {fault : ε}

theorem check_of {p : Prop} [Decidable p] (holds : p) (x : α) : check fault p x = .ok x := if_pos holds

theorem check_of_not {p : Prop} [Decidable p] (fails : ¬p) (x : α) : check fault p x = .error fault := if_neg fails

theorem check_eq_ok {p : Prop} [Decidable p] {x y : α} : check fault p x = .ok y ↔ p ∧ x = y := by
  unfold check
  split
  · rename_i holds
    exact ⟨fun same => ⟨holds, Except.ok.inj same⟩, fun same => congrArg Except.ok same.2⟩
  · rename_i fails
    exact ⟨nofun, fun same => absurd same.1 fails⟩

theorem check_congr {p q : Prop} {_ : Decidable p} {_ : Decidable q} {x y : α} (same : p ↔ q) (value : p → x = y) :
    check fault p x = check fault q y := by
  by_cases holds : p
  · rw [check_of holds, check_of (same.mp holds), value holds]
  · rw [check_of_not holds, check_of_not (mt same.mpr holds)]

/-- A check and a check of what it gives. -/
theorem check_bind {p q : Prop} {_ : Decidable p} {_ : Decidable q} {x : α} {y : β}
    (next : α → Except ε β) (then_ : p → next x = check fault q y) : (check fault p x >>= next) = check fault (p ∧ q) y := by
  by_cases holds : p
  · rw [check_of holds]
    exact (then_ holds).trans (check_congr (and_iff_right holds).symm fun _ => rfl)
  · rw [check_of_not holds, check_of_not fun both => holds both.1]
    rfl

/-- Something made of what a check gives. -/
theorem check_map {p : Prop} {_ : Decidable p} (f : α → β) (x : α) :
    (check fault p x >>= fun y => pure (f y)) = check fault p (f x) := by
  unfold check
  split <;> rfl

/-- A check of every element. -/
theorem mapM_check {f : α → Except ε β} {p : α → Prop} [DecidablePred p] {g : α → β} {l : List α}
    (each : ∀ a ∈ l, f a = check fault (p a) (g a)) : l.mapM f = check fault (∀ a ∈ l, p a) (l.map g) := by
  induction l with
  | nil => rw [check_of fun a member => absurd member List.not_mem_nil]; rfl
  | cons first rest ih =>
      have later := ih fun a member => each a (List.mem_cons_of_mem _ member)
      have whole : (check fault (p first) (g first) >>= fun y => rest.mapM f >>= fun ys => pure (y :: ys)) =
          check fault (p first ∧ ∀ a ∈ rest, p a) (g first :: rest.map g) := by
        apply check_bind
        intro _
        rw [later]
        exact check_map _ _
      rw [List.mapM_cons, each first List.mem_cons_self, List.map_cons]
      exact whole.trans (check_congr List.forall_mem_cons.symm fun _ => rfl)

/-- A loop that checks what it has come to, where what it comes to can only get worse, checks what it ends with. -/
theorem foldlM_check {f : σ → α → Except ε σ} {step : σ → α → σ} (fits inv : σ → Prop) [DecidablePred fits] {l : List α}
    (each : ∀ s, inv s → ∀ a ∈ l, f s a = check fault (fits (step s a)) (step s a))
    (keeps : ∀ s a, inv s → inv (step s a)) (worse : ∀ s a, fits (step s a) → fits s) {s : σ} (holds : inv s) (starts : fits s) :
    l.foldlM f s = check fault (fits (l.foldl step s)) (l.foldl step s) := by
  induction l generalizing s with
  | nil => exact (check_of starts s).symm
  | cons first rest ih =>
      have least : ∀ (l : List α) s, fits (l.foldl step s) → fits s := by
        intro l
        induction l with
        | nil => exact fun _ fine => fine
        | cons a l ih => exact fun s fine => worse s a (ih _ fine)
      rw [List.foldlM_cons, each s holds first List.mem_cons_self, List.foldl_cons]
      by_cases fine : fits (step s first)
      · rw [check_of fine]
        exact ih (fun s inv a member => each s inv a (List.mem_cons_of_mem _ member)) (keeps s first holds) fine
      · rw [check_of_not fine, check_of_not (mt (least rest _) fine)]
        rfl

end Checks
