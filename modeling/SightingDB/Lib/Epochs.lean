import Mathlib.Data.List.Count
import Mathlib.Order.MinMax
import Mathlib.Algebra.Order.Group.Nat

/-!
A budget that starts afresh with every epoch. One cell keeps the epoch it is in and what it has
counted there; a hit of another epoch empties it. Hits are counted or only seen, and come in any
order of their epochs; the count wraps around at a modulus above the budget.
-/
namespace Epochs

variable {ε : Type*}

structure Cell (ε : Type*) where
  epoch : ε
  count : Nat

/-- A hit is counted, or belongs to others who share the cell. -/
inductive Hit (ε : Type*)
  | mine (epoch : ε)
  | other (epoch : ε)
  deriving DecidableEq

namespace Hit

def epoch : Hit ε → ε
  | mine epoch => epoch
  | other epoch => epoch

def isMine : Hit ε → Bool
  | mine _ => true
  | other _ => false

end Hit

/-! ## Hits of one epoch that come together -/

/-- No hit of another epoch comes before any counted one of this epoch. -/
def Calm (epoch : ε) (hits : List (Hit ε)) : Prop :=
  ∀ between after, hits = between ++ .mine epoch :: after → ∀ hit ∈ between, hit.epoch = epoch

/-- No hit of another epoch comes between two counted ones of this epoch. -/
def Together (epoch : ε) (hits : List (Hit ε)) : Prop :=
  ∀ before between after, hits = before ++ .mine epoch :: (between ++ .mine epoch :: after) → ∀ hit ∈ between, hit.epoch = epoch

section Together

variable {epoch : ε} {hit : Hit ε} {rest : List (Hit ε)}

/-- What comes after a hit stays together. -/
theorem Together.tail (together : Together epoch (hit :: rest)) : Together epoch rest := by
  intro before between after split
  exact together (hit :: before) between after (congrArg (hit :: ·) split)

theorem Together.calm (together : Together epoch (.mine epoch :: rest)) : Calm epoch rest := by
  intro between after split
  exact together [] between after (congrArg (.mine epoch :: ·) split)

theorem Calm.tail (calm : Calm epoch (hit :: rest)) : Calm epoch rest := by
  intro between after split other member
  exact calm (hit :: between) after (congrArg (hit :: ·) split) other (List.mem_cons_of_mem _ member)

/-- Where it is calm, a hit of another epoch comes after the last of this one. -/
theorem Calm.gone (calm : Calm epoch (hit :: rest)) (away : hit.epoch ≠ epoch) : .mine epoch ∉ rest := by
  intro member
  obtain ⟨between, after, split⟩ := List.append_of_mem member
  exact away (calm (hit :: between) after (congrArg (hit :: ·) split) hit List.mem_cons_self)

end Together

variable [DecidableEq ε]

/-- What a cell has counted in an epoch: nothing, in one it is not in. -/
def Cell.at (cell : Cell ε) (epoch : ε) : Nat := if cell.epoch = epoch then cell.count else 0

section Run

variable (modulus budget : Nat)

def Cell.hit (cell : Cell ε) : Hit ε → Cell ε
  | .mine epoch => ⟨epoch, (cell.at epoch + 1) % modulus⟩
  | .other epoch => ⟨epoch, cell.at epoch⟩

def Cell.run (cell : Cell ε) (hits : List (Hit ε)) : Cell ε := hits.foldl (Cell.hit modulus) cell

/-- The counted hits in order, each with its epoch and whether the count was within the budget. -/
def verdicts (cell : Cell ε) : List (Hit ε) → List (ε × Bool)
  | [] => []
  | .mine epoch :: rest =>
      (epoch, decide ((cell.at epoch + 1) % modulus ≤ budget)) :: verdicts (cell.hit modulus (.mine epoch)) rest
  | .other epoch :: rest => verdicts (cell.hit modulus (.other epoch)) rest

end Run

/-- How many hits of an epoch were within the budget. -/
def granted (epoch : ε) (verdicts : List (ε × Bool)) : Nat := verdicts.count (epoch, true)

/-- An epoch's counted hits are within the budget, or they come together and are fewer than the count can tell apart. -/
def Kept (modulus budget : Nat) (epoch : ε) (hits : List (Hit ε)) : Prop :=
  hits.count (.mine epoch) ≤ budget ∨ hits.count (.mine epoch) < modulus ∧ Together epoch hits

/-- What a budget should say: whether fewer than it were counted in the epoch before. -/
def ideal (budget : Nat) (seen : List ε) : List (Hit ε) → List (ε × Bool)
  | [] => []
  | .mine epoch :: rest => (epoch, decide (seen.count epoch < budget)) :: ideal budget (epoch :: seen) rest
  | .other _ :: rest => ideal budget seen rest

variable {modulus budget : Nat} {cell : Cell ε} {epoch : ε} {hit : Hit ε} {hits rest : List (Hit ε)} {seen : List ε}

/-! ## One hit -/

theorem at_hit_mine (cell : Cell ε) (epoch : ε) : (cell.hit modulus (.mine epoch)).at epoch = (cell.at epoch + 1) % modulus :=
  if_pos rfl

theorem at_hit_other (cell : Cell ε) (epoch : ε) : (cell.hit modulus (.other epoch)).at epoch = cell.at epoch := if_pos rfl

/-- A hit of another epoch empties the cell. -/
theorem at_hit_of_ne (cell : Cell ε) (away : hit.epoch ≠ epoch) : (cell.hit modulus hit).at epoch = 0 := by
  cases hit with
  | mine epoch' => exact if_neg away
  | other epoch' => exact if_neg away

theorem count_of_ne (away : hit.epoch ≠ epoch) : (hit :: rest).count (.mine epoch) = rest.count (.mine epoch) := by
  apply List.count_cons_of_ne
  intro same
  exact away (congrArg Hit.epoch same)

theorem count_other (epoch' : ε) (rest : List (Hit ε)) : (.other epoch' :: rest).count (.mine epoch) = rest.count (.mine epoch) := by
  apply List.count_cons_of_ne
  intro same
  cases same

theorem granted_append (epoch : ε) (front back : List (ε × Bool)) :
    granted epoch (front ++ back) = granted epoch front + granted epoch back := List.count_append

theorem granted_cons (epoch : ε) (p : Prop) [Decidable p] (later : List (ε × Bool)) :
    granted epoch ((epoch, decide p) :: later) = granted epoch later + if p then 1 else 0 := by
  unfold granted
  by_cases within : p
  · rw [decide_eq_true within, if_pos within, List.count_cons_self]
  · rw [decide_eq_false within, if_neg within, List.count_cons_of_ne (by intro same; cases same), Nat.add_zero]

/-- A hit of another epoch says nothing of this one. -/
theorem granted_of_ne (cell : Cell ε) (away : hit.epoch ≠ epoch) : granted epoch (verdicts modulus budget cell (hit :: rest)) =
    granted epoch (verdicts modulus budget (cell.hit modulus hit) rest) := by
  cases hit with
  | mine epoch' =>
      apply List.count_cons_of_ne
      intro same
      exact away (congrArg Prod.fst same)
  | other epoch' => rfl

theorem verdicts_append (cell : Cell ε) (front back : List (Hit ε)) :
    verdicts modulus budget cell (front ++ back) =
      verdicts modulus budget cell front ++ verdicts modulus budget (cell.run modulus front) back := by
  induction front generalizing cell with
  | nil => rfl
  | cons hit rest ih =>
      cases hit with
      | mine epoch => exact congrArg (_ :: ·) (ih _)
      | other epoch => exact ih _

/-! ## At least so many -/

/-- Of the hits of an epoch at least as many are within the budget as there are, up to the budget, however often the cell
is emptied. -/
theorem least_granted (fits : budget < modulus) (epoch : ε) (hits : List (Hit ε)) (cell : Cell ε) :
    min budget (cell.at epoch + hits.count (.mine epoch)) ≤
      min budget (cell.at epoch) + granted epoch (verdicts modulus budget cell hits) := by
  induction hits generalizing cell with
  | nil => exact Nat.le_add_right _ _
  | cons hit rest ih =>
      have later := ih (cell.hit modulus hit)
      by_cases away : hit.epoch = epoch
      · cases hit with
        | other epoch' =>
            obtain rfl : epoch' = epoch := away
            rw [at_hit_other] at later
            rw [count_other]
            exact later
        | mine epoch' =>
            obtain rfl : epoch' = epoch := away
            rw [at_hit_mine] at later
            rw [List.count_cons_self, verdicts, granted_cons]
            by_cases wraps : modulus ≤ cell.at epoch' + 1
            · have full : min budget (cell.at epoch') = budget := Nat.min_eq_left (by omega)
              rw [full]
              exact (Nat.min_le_left _ _).trans (Nat.le_add_right _ _)
            · rw [Nat.mod_eq_of_lt (Nat.lt_of_not_le wraps)] at later ⊢
              split <;> omega
      · rw [at_hit_of_ne cell away] at later
        rw [count_of_ne away, granted_of_ne cell away]
        omega

/-- Where more come together than the count can tell apart, one more than the budget is within it. -/
theorem wrapped_granted (fits : budget < modulus) (epoch : ε) (hits : List (Hit ε)) (cell : Cell ε)
    (together : Together epoch hits) (calm : cell.at epoch = 0 ∨ Calm epoch hits)
    (many : modulus ≤ cell.at epoch + hits.count (.mine epoch)) (least : cell.at epoch < modulus) :
    budget < min budget (cell.at epoch) + granted epoch (verdicts modulus budget cell hits) := by
  induction hits generalizing cell with
  | nil => exact absurd many (Nat.not_le_of_lt least)
  | cons hit rest ih =>
      by_cases away : hit.epoch = epoch
      · cases hit with
        | other epoch' =>
            obtain rfl : epoch' = epoch := away
            have later := ih (cell.hit modulus (.other epoch')) together.tail
            rw [at_hit_other] at later
            rw [count_other] at many
            exact later (calm.imp_right Calm.tail) many least
        | mine epoch' =>
            obtain rfl : epoch' = epoch := away
            have later := ih (cell.hit modulus (.mine epoch')) together.tail (.inr together.calm)
            rw [at_hit_mine] at later
            rw [List.count_cons_self] at many
            rw [verdicts, granted_cons]
            by_cases wraps : modulus ≤ cell.at epoch' + 1
            · have zero : (cell.at epoch' + 1) % modulus = 0 := by
                rw [show cell.at epoch' + 1 = modulus by omega, Nat.mod_self]
              rw [zero, if_pos (Nat.zero_le _)]
              omega
            · rw [Nat.mod_eq_of_lt (Nat.lt_of_not_le wraps)] at later ⊢
              have more := later (by omega) (Nat.lt_of_not_le wraps)
              split <;> omega
      · have later := ih (cell.hit modulus hit) together.tail (.inl (at_hit_of_ne cell away))
        rw [at_hit_of_ne cell away] at later
        rw [count_of_ne away] at many
        rw [granted_of_ne cell away]
        rcases calm with zero | calm
        · have more := later (by omega) (by omega)
          omega
        · have none_ := List.count_eq_zero_of_not_mem (calm.gone away)
          omega

/-- A cell that is never emptied between two hits of an epoch, nor loses count, and only such a cell, lets no more of them
through than the budget; so does any with no more hits than that. -/
theorem kept_of_granted (fits : budget < modulus) (some_ : 0 < budget) (empty : cell.at epoch = 0)
    (within : granted epoch (verdicts modulus budget cell hits) ≤ budget) : Kept modulus budget epoch hits := by
  by_contra broken
  obtain ⟨many, apart⟩ := not_or.mp broken
  by_cases together : Together epoch hits
  · have wraps : modulus ≤ hits.count (.mine epoch) := not_lt.mp fun less => apart ⟨less, together⟩
    have more := wrapped_granted fits epoch hits cell together (.inl empty) (by omega) (by omega)
    omega
  · unfold Together at together
    push Not at together
    obtain ⟨before, between, after, rfl, hit, member, away⟩ := together
    obtain ⟨near, far, rfl⟩ := List.append_of_mem member
    -- What comes up to the hit that empties the cell is counted apart from what comes after it.
    have parts : before ++ .mine epoch :: (near ++ hit :: far ++ .mine epoch :: after) =
        (before ++ .mine epoch :: near ++ [hit]) ++ (far ++ .mine epoch :: after) := by simp
    have emptied : (cell.run modulus (before ++ .mine epoch :: near ++ [hit])).at epoch = 0 := by
      rw [Cell.run, List.foldl_append, List.foldl_cons, List.foldl_nil]
      exact at_hit_of_ne _ away
    have first := least_granted fits epoch (before ++ .mine epoch :: near ++ [hit]) cell
    have second := least_granted fits epoch (far ++ .mine epoch :: after)
      (cell.run modulus (before ++ .mine epoch :: near ++ [hit]))
    have one : 0 < (before ++ .mine epoch :: near ++ [hit]).count (.mine epoch) := List.count_pos_iff.mpr (by simp)
    have other : 0 < (far ++ .mine epoch :: after).count (.mine epoch) := List.count_pos_iff.mpr (by simp)
    rw [parts, verdicts_append, granted_append] at within
    rw [parts, List.count_append] at many
    rw [empty] at first
    rw [emptied] at second
    omega

/-! ## Exactly so many -/

theorem ideal_filter (seen : List ε) (hits : List (Hit ε)) : ideal budget seen (hits.filter Hit.isMine) = ideal budget seen hits := by
  induction hits generalizing seen with
  | nil => rfl
  | cons hit rest ih =>
      cases hit with
      | mine epoch => exact congrArg (_ :: ·) (ih _)
      | other epoch => exact ih seen

theorem granted_ideal (epoch : ε) (seen : List ε) (hits : List (Hit ε)) :
    granted epoch (ideal budget seen hits) ≤ budget - seen.count epoch := by
  induction hits generalizing seen with
  | nil => exact Nat.zero_le _
  | cons hit rest ih =>
      cases hit with
      | other epoch' => exact ih seen
      | mine epoch' =>
          have later := ih (epoch' :: seen)
          rw [ideal]
          by_cases same : epoch' = epoch
          · subst same
            rw [List.count_cons_self] at later
            rw [granted_cons]
            split <;> omega
          · rw [List.count_cons_of_ne same] at later
            refine le_trans (le_of_eq ?_) later
            apply List.count_cons_of_ne
            intro equal
            exact same (congrArg Prod.fst equal)

/-- The epochs counted once a hit has been. -/
def Hit.note (seen : List ε) : Hit ε → List ε
  | mine epoch => epoch :: seen
  | other _ => seen

/-- How an epoch stands between two hits: within the budget to the end, or not emptied while it matters. -/
def Fine (modulus budget : Nat) (epoch : ε) (cell : Cell ε) (seen : List ε) (hits : List (Hit ε)) : Prop :=
  cell.at epoch ≤ seen.count epoch ∧ seen.count epoch + hits.count (.mine epoch) ≤ budget ∨
    seen.count epoch + hits.count (.mine epoch) < modulus ∧ Together epoch hits ∧
      (hits.count (.mine epoch) = 0 ∨ cell.at epoch = seen.count epoch ∧ (seen.count epoch = 0 ∨ Calm epoch hits))

theorem fine_of_kept (kept : Kept modulus budget epoch hits) (empty : cell.at epoch = 0) : Fine modulus budget epoch cell [] hits := by
  rcases kept with few | ⟨less, together⟩
  · exact .inl ⟨empty.le, (Nat.zero_add _).trans_le few⟩
  · exact .inr ⟨(Nat.zero_add _).trans_lt less, together, .inr ⟨empty, .inl rfl⟩⟩

theorem note_of_ne (away : hit.epoch ≠ epoch) (seen : List ε) : (hit.note seen).count epoch = seen.count epoch := by
  cases hit with
  | mine epoch' => exact List.count_cons_of_ne away
  | other epoch' => rfl

/-- A hit leaves every epoch standing as well as it did. -/
theorem fine_hit (fits : budget < modulus) (fine : Fine modulus budget epoch cell seen (hit :: rest)) :
    Fine modulus budget epoch (cell.hit modulus hit) (hit.note seen) rest := by
  unfold Fine at fine ⊢
  by_cases away : hit.epoch = epoch
  · cases hit with
    | other epoch' =>
        obtain rfl : epoch' = epoch := away
        rw [count_other] at fine
        rw [at_hit_other]
        rcases fine with few | ⟨less, together, stands⟩
        · exact .inl few
        · exact .inr ⟨less, together.tail, stands.imp_right fun held => ⟨held.1, held.2.imp_right Calm.tail⟩⟩
    | mine epoch' =>
        obtain rfl : epoch' = epoch := away
        rw [List.count_cons_self] at fine
        rw [at_hit_mine, Hit.note, List.count_cons_self]
        rcases fine with ⟨low, few⟩ | ⟨less, together, stands⟩
        · rw [Nat.mod_eq_of_lt (by omega)]
          exact .inl ⟨by omega, by omega⟩
        · have held := stands.resolve_left (Nat.succ_ne_zero _)
          rw [held.1, Nat.mod_eq_of_lt (by omega)]
          exact .inr ⟨by omega, together.tail, .inr ⟨rfl, .inr together.calm⟩⟩
  · rw [count_of_ne away] at fine
    rw [at_hit_of_ne cell away, note_of_ne away]
    rcases fine with ⟨low, few⟩ | ⟨less, together, stands⟩
    · exact .inl ⟨Nat.zero_le _, few⟩
    · refine .inr ⟨less, together.tail, ?_⟩
      rcases stands with past | ⟨held, none_ | calm⟩
      · exact .inl past
      · exact .inr ⟨none_.symm, .inl none_⟩
      · exact .inl (List.count_eq_zero_of_not_mem (calm.gone away))

/-- While every epoch stands so, the cell says what the budget should say. -/
theorem verdicts_eq_ideal (fits : budget < modulus) (fine : ∀ epoch, Fine modulus budget epoch cell seen hits) :
    verdicts modulus budget cell hits = ideal budget seen hits := by
  induction hits generalizing cell seen with
  | nil => rfl
  | cons hit rest ih =>
      have later := ih fun epoch => fine_hit fits (fine epoch)
      cases hit with
      | other epoch => exact later
      | mine epoch =>
          have here := fine epoch
          unfold Fine at here
          rw [List.count_cons_self] at here
          have count : (cell.at epoch + 1) % modulus ≤ budget ↔ seen.count epoch < budget := by
            rcases here with ⟨low, few⟩ | ⟨less, _, stands⟩
            · rw [Nat.mod_eq_of_lt (by omega)]
              omega
            · rw [(stands.resolve_left (Nat.succ_ne_zero _)).1, Nat.mod_eq_of_lt (by omega)]
              omega
          exact congrArg₂ (· :: ·) (congrArg (epoch, ·) (decide_eq_decide.mpr count)) later

/-- What is kept of the hits is kept of the counted ones alone. -/
theorem Kept.alone (kept : Kept modulus budget epoch hits) : Kept modulus budget epoch (hits.filter Hit.isMine) := by
  unfold Kept
  rw [List.count_filter rfl]
  refine kept.imp_right fun ⟨less, together⟩ => ⟨less, ?_⟩
  intro before between after split hit member
  obtain ⟨front, tail, rfl, rfl, here⟩ := List.filter_eq_append_iff.mp split
  obtain ⟨skipped, tail, rfl, _, _, later⟩ := List.filter_eq_cons_iff.mp here
  obtain ⟨middle, tail, rfl, rfl, there⟩ := List.filter_eq_append_iff.mp later
  obtain ⟨skipped', tail, rfl, _, _, _⟩ := List.filter_eq_cons_iff.mp there
  apply together (front ++ skipped) (middle ++ skipped') tail (by simp) hit
  exact List.mem_append_left _ (List.mem_filter.mp member).1

/-- From an empty cell: no epoch has more hits within the budget than the budget, and others make no difference to them,
exactly if every epoch is within the budget or has its hits together, fewer than the count can tell apart. -/
theorem kept_iff (fits : budget < modulus) (some_ : 0 < budget) (empty : ∀ epoch, cell.at epoch = 0) :
    ((∀ epoch, granted epoch (verdicts modulus budget cell hits) ≤ budget) ∧
      verdicts modulus budget cell hits = verdicts modulus budget cell (hits.filter Hit.isMine)) ↔
        ∀ epoch, Kept modulus budget epoch hits := by
  constructor
  · intro holds epoch
    exact kept_of_granted fits some_ (empty epoch) (holds.1 epoch)
  · intro kept
    have whole := verdicts_eq_ideal fits fun epoch => fine_of_kept (kept epoch) (empty epoch)
    have alone := verdicts_eq_ideal fits fun epoch => fine_of_kept (kept epoch).alone (empty epoch)
    constructor
    · intro epoch
      rw [whole]
      exact granted_ideal epoch [] hits
    · rw [whole, alone, ideal_filter]

end Epochs
