import Mathlib.Data.List.Basic
import Mathlib.Data.List.Infix
import Mathlib.Data.List.Nodup
import Mathlib.Data.List.Perm.Basic
import Mathlib.Algebra.BigOperators.Group.List.Basic
import Mathlib.Tactic.Set

/-!
Reading sources in turn within a budget, and what changes when the sources are divided among
readers who each have the whole budget.
-/
namespace Budget

variable {α β γ : Type*}

theorem sub_taken (budget size : Nat) : budget - min budget size = budget - size := by omega

/-! ## One reader -/

/-- What was read of each source, which sources are missing, and whether anything was left. -/
structure Spent (α β : Type*) where
  pages : List (α × List β)
  missing : List α
  cut : Bool

section Spending

variable (get : α → Option (List β))

def spend : Nat → List α → Spent α β
  | _, [] => ⟨[], [], false⟩
  | budget, a :: rest =>
      if budget = 0 then ⟨[], [], true⟩
      else match get a with
        | none =>
            let later := spend budget rest
            { later with missing := a :: later.missing }
        | some items =>
            let taken := items.take budget
            let later := spend (budget - taken.length) rest
            ⟨(a, taken) :: later.pages, later.missing, (taken.length < items.length : Bool) || later.cut⟩

/-- Everything the sources have, source by source. -/
def entries (sources : List α) : List (α × β) := sources.flatMap fun a => ((get a).getD []).map (Prod.mk a)

/-- The sources a reader comes to before the budget is spent. -/
def reached : Nat → List α → List α
  | _, [] => []
  | budget, a :: rest =>
      if budget = 0 then [] else a :: reached (budget - ((get a).getD []).length) rest

variable {get} {budget budget' : Nat} {sources : List α} {p : α → Bool}

/-- What is read is the first of everything, -/
theorem entries_spent :
    (spend get budget sources).pages.flatMap (fun page => page.2.map (Prod.mk page.1)) =
      (entries get sources).take budget := by
  induction sources generalizing budget with
  | nil => simp [spend, entries]
  | cons a rest ih =>
      simp only [spend, entries, List.flatMap_cons] at ih ⊢
      split
      · simp_all
      · cases found : get a with
        | none => simp [ih]
        | some items => simp [List.take_append, ih, List.map_take, sub_taken]

/-- from the sources reached that are there; -/
theorem names_spent : (spend get budget sources).pages.map Prod.fst =
    (reached get budget sources).filter fun a => (get a).isSome := by
  induction sources generalizing budget with
  | nil => rfl
  | cons a rest ih =>
      simp only [spend, reached]
      split
      · rfl
      · cases found : get a with
        | none => simp [ih, found]
        | some items => simp [ih, found, sub_taken]

/-- those that are not are missing. -/
theorem missing_spent : (spend get budget sources).missing =
    (reached get budget sources).filter fun a => (get a).isNone := by
  induction sources generalizing budget with
  | nil => rfl
  | cons a rest ih =>
      simp only [spend, reached]
      split
      · rfl
      · cases found : get a with
        | none => simp [ih, found]
        | some items => simp [ih, found, sub_taken]

theorem reached_prefix : reached get budget sources <+: sources := by
  induction sources generalizing budget with
  | nil => exact List.prefix_rfl
  | cons a rest ih =>
      simp only [reached]
      split
      · exact List.nil_prefix
      · exact List.cons_prefix_cons.mpr ⟨rfl, ih⟩

/-- Something is left when a source is not reached or there is more than the budget. -/
theorem cut_spent : (spend get budget sources).cut = true ↔
    reached get budget sources ≠ sources ∨ budget < (entries get sources).length := by
  induction sources generalizing budget with
  | nil => simp [spend, reached, entries]
  | cons a rest ih =>
      simp only [spend, reached, entries, List.flatMap_cons, List.length_append, List.length_map] at ih ⊢
      by_cases none_ : budget = 0
      · simp [none_]
      · rw [if_neg none_, if_neg none_]
        cases found : get a with
        | none => simp [ih]
        | some items =>
            simp only [Option.getD_some, Bool.or_eq_true, decide_eq_true_eq, ih, List.length_take, sub_taken, ne_eq,
              List.cons.injEq, true_and]
            have rest_ : budget - items.length < (rest.flatMap fun a => ((get a).getD []).map (Prod.mk a)).length →
                budget < items.length + (rest.flatMap fun a => ((get a).getD []).map (Prod.mk a)).length := by omega
            constructor
            · rintro (cut | unreached | cut)
              · exact .inr (by omega)
              · exact .inl unreached
              · exact .inr (rest_ cut)
            · rintro (unreached | cut)
              · exact .inr (.inl unreached)
              · by_cases here : min budget items.length < items.length
                · exact .inl here
                · exact .inr (.inr (by omega))

/-- A change of each entry carries over. -/
theorem spend_map {δ : Type*} (f : β → δ) : spend (fun a => (get a).map (List.map f)) budget sources =
    ⟨(spend get budget sources).pages.map fun page => (page.1, page.2.map f), (spend get budget sources).missing,
      (spend get budget sources).cut⟩ := by
  induction sources generalizing budget with
  | nil => rfl
  | cons a rest ih =>
      simp only [spend]
      split
      · rfl
      · cases found : get a with
        | none => simp [ih]
        | some items => simp [ih, List.map_take]

/-- Only the sources asked for matter. -/
theorem spend_congr {get' : α → Option (List β)} (same : ∀ a ∈ sources, get a = get' a) :
    spend get budget sources = spend get' budget sources := by
  induction sources generalizing budget with
  | nil => rfl
  | cons a rest ih =>
      have later := fun budget => @ih budget fun a member => same a (List.mem_cons_of_mem _ member)
      simp only [spend, same a List.mem_cons_self, later]

/-- Sources that are missing cost nothing. -/
theorem reached_of_missing (some_ : budget ≠ 0) (missing : ∀ a ∈ sources, get a = none) :
    reached get budget sources = sources := by
  induction sources with
  | nil => rfl
  | cons a rest ih =>
      simp [reached, some_, missing a List.mem_cons_self, ih fun a member => missing a (List.mem_cons_of_mem _ member)]

theorem entries_filter : entries get (sources.filter p) = (entries get sources).filter fun e => p e.1 := by
  induction sources with
  | nil => rfl
  | cons a rest ih =>
      simp only [entries, List.flatMap_cons, List.filter_append] at ih ⊢
      cases kept : p a <;> simp [kept, ih, List.filter_map, Function.comp_def]

/-- With fewer sources a reader comes at least as far. -/
theorem reached_filter (more : budget ≤ budget') :
    (reached get budget sources).filter p <+: reached get budget' (sources.filter p) := by
  induction sources generalizing budget budget' with
  | nil => exact List.prefix_rfl
  | cons a rest ih =>
      simp only [reached]
      split
      · exact List.nil_prefix
      · cases kept : p a
        · rw [List.filter_cons_of_neg (by simp [kept]), List.filter_cons_of_neg (by simp [kept])]
          exact ih (by omega)
        · rw [List.filter_cons_of_pos kept, List.filter_cons_of_pos kept, reached, if_neg (by omega)]
          exact List.cons_prefix_cons.mpr ⟨rfl, ih (by omega)⟩

end Spending

/-! ## Several readers -/

section Dividing

variable {l : List α} {n : Nat} {p : α → Bool}

theorem filter_take_prefix : (l.take n).filter p <+: (l.filter p).take n := by
  rw [List.prefix_take_iff]
  refine ⟨(List.take_prefix n l).filter p, ?_⟩
  exact (List.length_filter_le _ _).trans (List.length_take_le n l)

variable {readers : List γ}

/-- What is further in some longer lists. -/
def further (short long : γ → List α) (readers : List γ) : List α :=
  readers.flatMap fun g => (long g).drop (short g).length

theorem perm_further {short long : γ → List α} (longer : ∀ g ∈ readers, short g <+: long g) :
    (readers.flatMap long).Perm (readers.flatMap short ++ further short long readers) := by
  induction readers with
  | nil => exact .refl _
  | cons g rest ih =>
      obtain ⟨more, same⟩ := longer g List.mem_cons_self
      have later := ih fun g member => longer g (List.mem_cons_of_mem _ member)
      simp only [further, List.flatMap_cons, ← same, List.drop_left] at later ⊢
      rw [List.append_assoc, List.append_assoc]
      refine List.Perm.append_left _ ?_
      exact (later.append_left more).trans (by
        rw [← List.append_assoc, ← List.append_assoc]
        exact List.perm_append_comm.append_right _)

variable [DecidableEq γ]

/-- Each reader's share, one after the other, is everything in another order. -/
theorem perm_shares (apart : readers.Nodup) {key : α → γ} (covered : ∀ a ∈ l, key a ∈ readers) :
    (readers.flatMap fun g => l.filter fun a => key a = g).Perm l := by
  induction l with
  | nil => simp
  | cons a rest ih =>
      have later := ih fun b member => covered b (List.mem_cons_of_mem _ member)
      obtain ⟨before, after, rfl⟩ := List.append_of_mem (covered a List.mem_cons_self)
      have others := List.nodup_append.mp apart
      have fresh : ∀ g ∈ before, key a ≠ g := fun g member same => others.2.2 g member (key a) List.mem_cons_self same.symm
      have fresh' : ∀ g ∈ after, key a ≠ g := fun g member same =>
        (List.nodup_cons.mp others.2.1).1 (same ▸ member)
      have unchanged (gs : List γ) (fresh : ∀ g ∈ gs, key a ≠ g) :
          (gs.flatMap fun g => (a :: rest).filter fun a => key a = g) = gs.flatMap fun g => rest.filter fun a => key a = g :=
        List.flatMap_congr fun g member => by simp [fresh g member]
      rw [List.flatMap_append, List.flatMap_cons] at later
      rw [List.flatMap_append, List.flatMap_cons, unchanged before fresh, unchanged after fresh']
      simp only [decide_true, List.filter_cons_of_pos, List.cons_append]
      exact List.perm_middle.trans (later.cons a)

end Dividing

end Budget
