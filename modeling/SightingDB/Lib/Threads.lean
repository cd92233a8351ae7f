import Mathlib.Data.List.Basic
import Mathlib.Algebra.GroupWithZero.Nat

/-!
Threads that take turns on a shared state. One turn is one critical section: it reads and
writes the shared state and moves its own thread on.
-/
namespace Threads

variable {α σ τ : Type}

structure Pool (σ τ : Type) where
  shared : σ
  threads : List τ

inductive Move (α τ : Type)
  | start (t : τ)
  | go (i : Nat) (input : α)

/-- One turn of thread `i`. The threads are handed in for what can be seen of them from
outside, such as the handles they hold. -/
abbrev Program (α σ τ : Type) := α → List τ → Nat → σ → τ → σ × τ

namespace Pool

variable (program : Program α σ τ)

def step (p : Pool σ τ) : Move α τ → Pool σ τ
  | .start t => { p with threads := p.threads ++ [t] }
  | .go i input =>
      match p.threads[i]? with
      | none => p
      | some t =>
          let (shared, t') := program input p.threads i p.shared t
          ⟨shared, p.threads.set i t'⟩

def run (p : Pool σ τ) (moves : List (Move α τ)) : Pool σ τ := moves.foldl (step program) p

/-- Every move of a schedule is allowed at the moment it is made. -/
def AllAllowed (allowed : Pool σ τ → Move α τ → Prop) (p : Pool σ τ) : List (Move α τ) → Prop
  | [] => True
  | m :: rest => allowed p m ∧ AllAllowed allowed (p.step program m) rest

/-- A schedule checked move by move. -/
def checks (ok : Pool σ τ → Move α τ → Bool) (p : Pool σ τ) : List (Move α τ) → Bool
  | [] => true
  | m :: rest => ok p m && checks ok (p.step program m) rest

variable {program}

theorem allAllowed_of_checks {allowed : Pool σ τ → Move α τ → Prop} {ok : Pool σ τ → Move α τ → Bool}
    (sound : ∀ p m, ok p m = true → allowed p m) (moves : List (Move α τ)) :
    ∀ p : Pool σ τ, checks program ok p moves = true → AllAllowed program allowed p moves := by
  induction moves with
  | nil => exact fun _ _ => trivial
  | cons m rest ih =>
      intro p checked
      have both := Bool.and_eq_true_iff.mp checked
      exact ⟨sound p m both.1, ih _ both.2⟩

theorem run_keeps {allowed : Pool σ τ → Move α τ → Prop} {Inv : Pool σ τ → Prop}
    (keeps : ∀ p m, Inv p → allowed p m → Inv (p.step program m)) (moves : List (Move α τ)) :
    ∀ p : Pool σ τ, Inv p → AllAllowed program allowed p moves → Inv (p.run program moves) := by
  induction moves with
  | nil =>
      intro p inv _
      exact inv
  | cons m rest ih =>
      intro p inv meets
      exact ih _ (keeps p m inv meets.1) meets.2

/-- What holds of the shared state, and of each thread at the point where it stands. -/
structure Holds (I : List τ → σ → Prop) (Ok : List τ → σ → Nat → τ → Prop) (p : Pool σ τ) :
    Prop where
  shared : I p.threads p.shared
  thread : ∀ i t, p.threads[i]? = some t → Ok p.threads p.shared i t

section Rule

variable (allowed : Pool σ τ → Move α τ → Prop) {I : List τ → σ → Prop}
  {Ok : List τ → σ → Nat → τ → Prop}

/-- What a turn of thread `i` has to leave behind: the shared invariant, its own assertion,
and the assertions of the others. -/
structure Keeps (I : List τ → σ → Prop) (Ok : List τ → σ → Nat → τ → Prop) (i : Nat)
    (threads : List τ) (shared : σ) (threads' : List τ) (shared' : σ) (t' : τ) : Prop where
  all : I threads' shared'
  own : Ok threads' shared' i t'
  others : ∀ j u, j ≠ i → threads[j]? = some u → Ok threads shared j u → Ok threads' shared' j u

/-- The rule for interleavings: a turn keeps the invariant, establishes the assertion of its
own thread and disturbs nobody else's. -/
theorem step_keeps
    (start : ∀ p t, Holds I Ok p → allowed p (.start t) →
      Keeps I Ok p.threads.length p.threads p.shared (p.threads ++ [t]) p.shared t)
    (go : ∀ p i a t, Holds I Ok p → allowed p (.go i a) → p.threads[i]? = some t →
      let r := program a p.threads i p.shared t
      Keeps I Ok i p.threads p.shared (p.threads.set i r.2) r.1 r.2)
    (p : Pool σ τ) (m : Move α τ) (holds : Holds I Ok p) (meets : allowed p m) :
    Holds I Ok (p.step program m) := by
  cases m with
  | start t =>
      have kept := start p t holds meets
      refine ⟨kept.all, fun i u found => ?_⟩
      simp only [step] at found ⊢
      rcases Nat.lt_trichotomy i p.threads.length with before | last | after
      · rw [List.getElem?_append_left before] at found
        exact kept.others i u (by omega) found (holds.thread i u found)
      · subst last
        rw [List.getElem?_concat_length] at found
        cases found
        exact kept.own
      · rw [List.getElem?_eq_none (by simp; omega)] at found
        cases found
  | go i a =>
      simp only [step]
      cases here : p.threads[i]? with
      | none => exact holds
      | some t =>
          have kept := go p i a t holds meets here
          refine ⟨kept.all, fun j u found => ?_⟩
          simp only at found ⊢
          by_cases same : i = j
          · subst same
            have bound : i < p.threads.length := (List.getElem?_eq_some_iff.mp here).1
            rw [List.getElem?_set_self bound] at found
            cases found
            exact kept.own
          · rw [List.getElem?_set_ne same] at found
            exact kept.others j u (Ne.symm same) found (holds.thread j u found)

end Rule

end Pool

/-- Some thread does this. -/
def Among (P : τ → Prop) (threads : List τ) : Prop := ∃ t ∈ threads, P t

namespace Among

variable {P : τ → Prop} {threads : List τ}

theorem append (t : τ) (here : Among P threads) : Among P (threads ++ [t]) := by
  obtain ⟨u, mem, does⟩ := here
  exact ⟨u, List.mem_append_left _ mem, does⟩

/-- A thread that moves on leaves what the others do. -/
theorem set {i : Nat} {t t' : τ} (at_ : threads[i]? = some t) (still : P t → P t')
    (here : Among P threads) : Among P (threads.set i t') := by
  obtain ⟨u, mem, does⟩ := here
  obtain ⟨j, found⟩ := List.mem_iff_getElem?.mp mem
  by_cases same : i = j
  · subst same
    rw [at_] at found
    cases found
    exact ⟨t', List.mem_set (List.getElem?_eq_some_iff.mp at_).1 t', still does⟩
  · exact ⟨u, List.mem_iff_getElem?.mpr ⟨j, by rw [List.getElem?_set_ne same, found]⟩, does⟩

theorem of_get {i : Nat} {t : τ} (at_ : threads[i]? = some t) (does : P t) : Among P threads :=
  ⟨t, List.mem_of_getElem? at_, does⟩

end Among

/-- What the threads have between them. -/
def total (f : τ → Nat) (threads : List τ) : Nat := (threads.map f).sum

section Total

variable {f : τ → Nat} {threads : List τ}

@[simp] theorem total_nil : total f [] = 0 := rfl

theorem total_append (t : τ) : total f (threads ++ [t]) = total f threads + f t := by
  simp [total]

/-- One thread moves on, and the total with it. -/
theorem total_set {i : Nat} {t : τ} (here : threads[i]? = some t) (t' : τ) :
    total f (threads.set i t') + f t = total f threads + f t' := by
  induction threads generalizing i with
  | nil => simp at here
  | cons u rest ih =>
      cases i with
      | zero =>
          cases here
          simp [total]
          omega
      | succ i =>
          have step := ih (i := i) here
          simp only [total, List.set_cons_succ, List.map_cons, List.sum_cons] at step ⊢
          omega

theorem total_eq_zero (none : ∀ t ∈ threads, f t = 0) : total f threads = 0 := by
  induction threads with
  | nil => rfl
  | cons u rest ih =>
      simp only [total, List.map_cons, List.sum_cons]
      rw [none u (by simp), Nat.zero_add]
      exact ih fun t mem => none t (List.mem_cons_of_mem _ mem)

theorem total_le_countP {p : τ → Bool} (least : ∀ t ∈ threads, f t ≤ if p t then 1 else 0) :
    total f threads ≤ threads.countP p := by
  induction threads with
  | nil => simp
  | cons u rest ih =>
      have first := least u (by simp)
      have others := ih fun t mem => least t (List.mem_cons_of_mem _ mem)
      simp only [total, List.map_cons, List.sum_cons, List.countP_cons] at others ⊢
      omega

end Total

end Threads
