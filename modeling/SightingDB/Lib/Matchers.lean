import Mathlib.Data.List.Basic

/-!
Regular expressions that are tried leftmost and greedily. A matcher gives every way in which it
can match the front of a text, the preferred one first; a search takes the first way at the
first place that has one.
-/

abbrev Matcher (α : Type*) (β : Type*) := List α → List (β × List α)

namespace Matcher

variable {α β γ : Type*}

def pure (b : β) : Matcher α β := fun text => [(b, text)]

/-- One after the other. -/
def andThen (m : Matcher α β) (k : β → Matcher α γ) : Matcher α γ :=
  fun text => (m text).flatMap fun way => k way.1 way.2

/-- The first before the second. -/
def orElse (m n : Matcher α β) : Matcher α β := fun text => m text ++ n text

/-- One symbol of a class. -/
def one (p : α → Bool) : Matcher α (List α)
  | a :: rest => if p a then [([a], rest)] else []
  | [] => []

/-- As often as there are turns, more often before less. A round that takes nothing is not taken. -/
def rounds (m : Matcher α (List α)) : Nat → Matcher α (List α)
  | 0, text => [([], text)]
  | turns + 1, text =>
      (((m text).filter fun way => way.2.length < text.length).flatMap fun way =>
        (rounds m turns way.2).map fun more => (way.1 ++ more.1, more.2)) ++ [([], text)]

/-- Any number of times, greedily. -/
def star (m : Matcher α (List α)) : Matcher α (List α) := fun text => rounds m text.length text

def plus (m : Matcher α (List α)) : Matcher α (List α) :=
  m.andThen fun first => (star m).andThen fun more => pure (first ++ more)

/-- The first place that has a match: what was matched, and what is left. -/
def search (m : Matcher α β) : List α → Option (β × List α)
  | [] => (m []).head?
  | a :: rest => (m (a :: rest)).head?.or (search m rest)

/-- One match after the other, each beginning where the last one ended. -/
def searchAll (m : Matcher α β) : Nat → List α → List β
  | 0, _ => []
  | turns + 1, text => match search m text with
    | none => []
    | some (b, rest) => b :: searchAll m turns rest

/-! ## The preferred way -/

variable {m : Matcher α β} {k : β → Matcher α γ} {p : α → Bool} {text rest : List α} {b : β} {c : γ}

@[simp] theorem pure_apply : pure b text = [(b, text)] := rfl

/-- What follows the preferred way is preferred. -/
theorem andThen_head (first : (m text).head? = some (b, rest)) {way : γ × List α} (then_ : (k b rest).head? = some way) :
    (m.andThen k text).head? = some way := by
  obtain ⟨tail, shape⟩ := List.head?_eq_some_iff.mp first
  obtain ⟨tail', shape'⟩ := List.head?_eq_some_iff.mp then_
  simp [andThen, shape, shape']

theorem one_head {a : α} (in_ : p a = true) : (one p (a :: rest)).head? = some ([a], rest) := by simp [one, in_]

theorem one_stop (stop : ∀ a ∈ rest.head?, p a = false) : one p rest = [] := by
  cases rest with
  | nil => rfl
  | cons a rest => simp [one, stop a rfl]

/-- A part that is taken whole, whatever comes after it. -/
def Takes (m : Matcher α (List α)) (unit : List α) : Prop :=
  unit ≠ [] ∧ ∀ rest, (m (unit ++ rest)).head? = some (unit, rest)

/-- Parts are taken one after the other as far as they go. -/
theorem rounds_head {m : Matcher α (List α)} {units : List (List α)} (takes : ∀ unit ∈ units, Takes m unit)
    (stop : m rest = []) {turns : Nat} (enough : units.length ≤ turns) :
    (rounds m turns (units.flatten ++ rest)).head? = some (units.flatten, rest) := by
  induction units generalizing turns with
  | nil =>
      cases turns with
      | zero => rfl
      | succ turns => simp [rounds, stop]
  | cons unit units ih =>
      cases turns with
      | zero => cases enough
      | succ turns =>
          have next := ih (fun other member => takes other (List.mem_cons_of_mem _ member)) (Nat.le_of_succ_le_succ enough)
          obtain ⟨some_, taken⟩ := takes unit List.mem_cons_self
          obtain ⟨tail, shape⟩ := List.head?_eq_some_iff.mp (taken (units.flatten ++ rest))
          obtain ⟨tail', shape'⟩ := List.head?_eq_some_iff.mp next
          have shorter : 0 < unit.length := List.length_pos_of_ne_nil some_
          simp [rounds, List.append_assoc, shape, shape', shorter]

theorem star_head {m : Matcher α (List α)} {units : List (List α)} (takes : ∀ unit ∈ units, Takes m unit)
    (stop : m rest = []) : (star m (units.flatten ++ rest)).head? = some (units.flatten, rest) := by
  refine rounds_head takes stop ?_
  have each : units.length ≤ units.flatten.length := by
    clear stop
    induction units with
    | nil => simp
    | cons unit units ih =>
        have here : 0 < unit.length := List.length_pos_of_ne_nil (takes unit List.mem_cons_self).1
        have there := ih fun other member => takes other (List.mem_cons_of_mem _ member)
        simp only [List.length_cons, List.flatten_cons, List.length_append]
        omega
  rw [List.length_append]
  omega

/-- A class is taken as far as it goes. -/
theorem star_one_head {taken : List α} (in_ : ∀ a ∈ taken, p a = true) (stop : ∀ a ∈ rest.head?, p a = false) :
    (star (one p) (taken ++ rest)).head? = some (taken, rest) := by
  have units : (taken.map fun a => [a]).flatten = taken := by
    induction taken with
    | nil => rfl
    | cons a taken ih => simpa using ih fun b member => in_ b (List.mem_cons_of_mem _ member)
  have takes : ∀ unit ∈ taken.map fun a => [a], Takes (one p) unit := fun unit member => by
    obtain ⟨a, there, rfl⟩ := List.mem_map.mp member
    exact ⟨by simp, fun rest => one_head (in_ a there)⟩
  have whole := star_head takes (one_stop stop)
  rwa [units] at whole

theorem plus_one_head {taken : List α} (some_ : taken ≠ []) (in_ : ∀ a ∈ taken, p a = true)
    (stop : ∀ a ∈ rest.head?, p a = false) : (plus (one p) (taken ++ rest)).head? = some (taken, rest) := by
  obtain ⟨a, more, rfl⟩ := List.exists_cons_of_ne_nil some_
  refine andThen_head (one_head (in_ a List.mem_cons_self)) (andThen_head
    (star_one_head (fun b member => in_ b (List.mem_cons_of_mem _ member)) stop) ?_)
  rfl

/-! ## Every way -/

theorem mem_andThen {way : γ × List α} : way ∈ m.andThen k text ↔ ∃ b rest, (b, rest) ∈ m text ∧ way ∈ k b rest := by
  simp [andThen, List.mem_flatMap]

theorem of_mem_one {way : List α × List α} (member : way ∈ one p text) : ∃ a, p a = true ∧ way.1 = [a] := by
  cases text with
  | nil => cases member
  | cons a rest =>
      simp only [one] at member
      split_ifs at member with in_
      · obtain rfl := List.mem_singleton.mp member
        exact ⟨a, in_, rfl⟩
      · cases member

theorem mem_rounds_one {turns : Nat} {way : List α × List α} (member : way ∈ rounds (one p) turns text) :
    ∀ a ∈ way.1, p a = true := by
  induction turns generalizing text way with
  | zero =>
      obtain rfl := List.mem_singleton.mp member
      simp
  | succ turns ih =>
      rcases List.mem_append.mp member with more | none_
      · obtain ⟨first, taken, more⟩ := List.mem_flatMap.mp more
        obtain ⟨next, there, rfl⟩ := List.mem_map.mp more
        obtain ⟨a, in_, shape⟩ := of_mem_one (List.mem_filter.mp taken).1
        intro b among
        rw [shape] at among
        rcases List.mem_append.mp among with front | back
        · rwa [List.mem_singleton.mp front]
        · exact ih there b back
      · obtain rfl := List.mem_singleton.mp none_
        simp

/-- Whatever a repeated class takes is of the class. -/
theorem mem_plus_one {way : List α × List α} (member : way ∈ plus (one p) text) :
    way.1 ≠ [] ∧ ∀ a ∈ way.1, p a = true := by
  obtain ⟨first, rest, taken, more⟩ := mem_andThen.mp member
  obtain ⟨later, rest', there, done⟩ := mem_andThen.mp more
  obtain rfl := List.mem_singleton.mp done
  obtain ⟨a, in_, rfl⟩ := of_mem_one taken
  refine ⟨by simp, fun b among => ?_⟩
  rcases List.mem_append.mp among with front | back
  · rwa [List.mem_singleton.mp front]
  · exact mem_rounds_one there b back

/-! ## Searching -/

theorem search_skip {a : α} (none_ : m (a :: rest) = []) : search m (a :: rest) = search m rest := by
  simp [search, none_]

theorem search_here {way : β × List α} (here : (m text).head? = some way) : search m text = some way := by
  cases text <;> simp [search, here]

theorem mem_of_search {way : β × List α} (found : search m text = some way) : ∃ text', way ∈ m text' := by
  induction text with
  | nil => exact ⟨[], List.mem_of_mem_head? found⟩
  | cons a rest ih =>
      rcases Option.or_eq_some_iff.mp found with here | ⟨-, later⟩
      · exact ⟨a :: rest, List.mem_of_mem_head? here⟩
      · exact ih later

/-- What a search finds is found somewhere. -/
theorem mem_of_searchAll {turns : Nat} (found : b ∈ searchAll m turns text) : ∃ text' rest, (b, rest) ∈ m text' := by
  induction turns generalizing text with
  | zero => cases found
  | succ turns ih =>
      simp only [searchAll] at found
      split at found
      · cases found
      · rename_i b' rest once
        rcases List.mem_cons.mp found with rfl | later
        · obtain ⟨text', there⟩ := mem_of_search once
          exact ⟨text', rest, there⟩
        · exact ih later

end Matcher
