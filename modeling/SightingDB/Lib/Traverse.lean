import Mathlib.Data.List.Forall2

/-!
Lists worked through item by item with a step that may fail: what success says of every item.
-/
namespace Traverse

variable {α β γ : Type} {ε : Type}

theorem exists_right {R : α → β → Prop} {l : List α} {ys : List β} (each : List.Forall₂ R l ys) {x : α}
    (member : x ∈ l) : ∃ y ∈ ys, R x y := by
  induction each with
  | nil => cases member
  | cons here _ ih =>
      rcases List.mem_cons.mp member with rfl | later
      · exact ⟨_, by simp, here⟩
      · obtain ⟨y, mem, found⟩ := ih later
        exact ⟨y, by simp [mem], found⟩

theorem exists_left {R : α → β → Prop} {l : List α} {ys : List β} (each : List.Forall₂ R l ys) {y : β}
    (member : y ∈ ys) : ∃ x ∈ l, R x y :=
  exists_right each.flip member

theorem forall₂_getElem? {R : α → β → Prop} {l : List α} {ys : List β} (each : List.Forall₂ R l ys) {i : Nat} {x : α}
    (found : l[i]? = some x) : ∃ y, ys[i]? = some y ∧ R x y := by
  induction each generalizing i with
  | nil => simp at found
  | cons here _ ih =>
      cases i with
      | zero =>
          obtain rfl := Option.some.inj found
          exact ⟨_, rfl, here⟩
      | succ i => exact ih (by simpa using found)

theorem forall₂_eraseIdx {R : α → β → Prop} {l : List α} {ys : List β} (each : List.Forall₂ R l ys) (i : Nat) :
    List.Forall₂ R (l.eraseIdx i) (ys.eraseIdx i) := by
  rw [List.eraseIdx_eq_take_drop_succ, List.eraseIdx_eq_take_drop_succ]
  exact List.rel_append (List.forall₂_take i each) (List.forall₂_drop (i + 1) each)

/-- One value beside every item. -/
theorem forall₂_filterMap_const {R : α → β → Prop} {l : List α} {y : Option β} (some_ : y.isSome = true ∨ l = [])
    (each : ∀ x ∈ l, ∀ y', y = some y' → R x y') : List.Forall₂ R l (l.filterMap fun _ => y) := by
  rcases some_ with some_ | rfl
  · obtain ⟨y', rfl⟩ := Option.isSome_iff_exists.mp some_
    rw [List.filterMap_eq_map', List.forall₂_map_right_iff, List.forall₂_same]
    exact fun x mem => each x mem y' rfl
  · exact .nil

theorem mapM_eq_some_iff {f : α → Option β} {l : List α} {ys : List β} :
    l.mapM f = some ys ↔ List.Forall₂ (fun x y => f x = some y) l ys := by
  induction l generalizing ys with
  | nil =>
      rw [List.mapM_nil, List.forall₂_nil_left_iff]
      exact ⟨fun h => (Option.some.inj h).symm, fun h => by rw [h]; rfl⟩
  | cons x l ih =>
      rw [List.mapM_cons, List.forall₂_cons_left_iff]
      simp only [Option.bind_eq_bind, Option.bind_eq_some_iff, Option.pure_def, Option.some.injEq, ih]
      constructor
      · rintro ⟨y, here, zs, rest, rfl⟩
        exact ⟨y, zs, here, rest, rfl⟩
      · rintro ⟨y, zs, here, rest, rfl⟩
        exact ⟨y, here, zs, rest, rfl⟩

/-- One item that fails fails the list. -/
theorem mapM_eq_none {f : α → Option β} {l : List α} {x : α} (member : x ∈ l) (fails : f x = none) : l.mapM f = none := by
  cases done : l.mapM f with
  | none => rfl
  | some ys =>
      obtain ⟨y, -, found⟩ := exists_right (mapM_eq_some_iff.mp done) member
      rw [fails] at found
      cases found

theorem mapM_eq_ok {f : α → Except ε β} {l : List α} {ys : List β} (done : l.mapM f = .ok ys) :
    List.Forall₂ (fun x y => f x = .ok y) l ys := by
  induction l generalizing ys with
  | nil =>
      obtain rfl : [] = ys := Except.ok.inj done
      exact .nil
  | cons x l ih =>
      rw [List.mapM_cons] at done
      cases here : f x with
      | error e =>
          rw [here] at done
          cases done
      | ok y =>
          cases rest : l.mapM f with
          | error e =>
              rw [here, rest] at done
              cases done
          | ok zs =>
              rw [here, rest] at done
              obtain rfl : y :: zs = ys := Except.ok.inj done
              exact .cons here (ih rest)

theorem mapM_map_some {f : α → Option γ} {g : α → Option β} (h : β → γ) (l : List α)
    (each : ∀ x ∈ l, f x = (g x).map h) : l.mapM f = (l.mapM g).map (List.map h) := by
  induction l with
  | nil => rfl
  | cons x l ih =>
      rw [List.mapM_cons, List.mapM_cons, each x (by simp), ih fun y mem => each y (by simp [mem])]
      cases g x with
      | none => rfl
      | some y => cases l.mapM g <;> rfl

theorem mapM_flatMap {f : β → Option γ} {g : α → List β} {h : α → List γ} {l : List α}
    (each : ∀ x ∈ l, (g x).mapM f = some (h x)) : (l.flatMap g).mapM f = some (l.flatMap h) := by
  induction l with
  | nil => rfl
  | cons x l ih =>
      rw [List.flatMap_cons, List.mapM_append, each x (by simp), ih fun y mem => each y (by simp [mem])]
      rfl

/-- Whatever is read back item by item is read back. -/
theorem mapM_written {m : Type → Type} [Monad m] [LawfulMonad m] {write : α → β} {read : β → m α}
    (l : List α) (each : ∀ x ∈ l, read (write x) = pure x) : (l.map write).mapM read = pure l := by
  induction l with
  | nil => rfl
  | cons x l ih =>
      rw [List.map_cons, List.mapM_cons, each x (by simp), ih fun y mem => each y (by simp [mem])]
      simp

end Traverse
