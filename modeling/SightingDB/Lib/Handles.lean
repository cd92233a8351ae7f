import SightingDB.Lib.OrderedMap

/-!
Objects behind reference-counted handles, and the map through which they are found. An
object outlives its entry in the map: whoever took a handle before still writes to it.
-/

/-- `map` names the cell of each key; no two keys share one. -/
structure Handles (κ β : Type) [LinearOrder κ] where
  cells : List β
  map : OrderedMap κ Nat
  within : ∀ k id, map.get k = some id → id < cells.length
  apart : ∀ k k' id, map.get k = some id → map.get k' = some id → k = k'

namespace Handles

variable {κ β : Type} [LinearOrder κ] (h : Handles κ β)

def empty : Handles κ β where
  cells := []
  map := ∅
  within _ _ found := by cases found
  apart _ _ _ found := by cases found

/-- The handle a lookup hands out. -/
def handle (k : κ) : Option Nat := h.map.get k

def get (k : κ) : Option β := (h.handle k).bind (h.cells[·]?)

/-- Put a new object under a key. What was there is not found any more. -/
def add (k : κ) (b : β) : Handles κ β where
  cells := h.cells ++ [b]
  map := h.map.insert k h.cells.length
  within k' id found := by
    rw [OrderedMap.get_insert] at found
    split at found
    · cases found
      simp
    · have := h.within k' id found
      simp
      omega
  apart k₁ k₂ id found₁ found₂ := by
    rw [OrderedMap.get_insert] at found₁ found₂
    split at found₁ <;> split at found₂
    · simp [*]
    · cases found₁
      exact absurd (h.within _ _ found₂) (lt_irrefl _)
    · cases found₂
      exact absurd (h.within _ _ found₁) (lt_irrefl _)
    · exact h.apart k₁ k₂ id found₁ found₂

/-- Write through a handle. -/
def modify (id : Nat) (f : β → β) : Handles κ β where
  cells := h.cells.modify id f
  map := h.map
  within k id' found := by
    rw [List.length_modify]
    exact h.within k id' found
  apart := h.apart

/-- Keep only some keys in the map. -/
def filter (p : κ → Bool) : Handles κ β where
  cells := h.cells
  map := h.map.filter fun k _ => p k
  within k id found := by
    rw [OrderedMap.get_filter] at found
    exact h.within k id (Option.filter_eq_some_iff.mp found).1
  apart k k' id found found' := by
    rw [OrderedMap.get_filter] at found found'
    exact h.apart k k' id (Option.filter_eq_some_iff.mp found).1 (Option.filter_eq_some_iff.mp found').1

/-- What the map leads to. -/
def objects : OrderedMap κ β := h.map.filterMap fun _ id => h.cells[id]?

def addAll (entries : List (κ × β)) : Handles κ β := entries.foldl (fun h e => h.add e.1 e.2) h

section Specs

theorem get_objects (k : κ) : h.objects.get k = h.get k := OrderedMap.get_filterMap _ _ _

theorem get_isSome (k : κ) : (h.get k).isSome = (h.handle k).isSome := by
  unfold get handle
  cases found : h.map.get k with
  | none => rfl
  | some id => simp [h.within k id found]

theorem get_eq_some {k : κ} {b : β} : h.get k = some b ↔ ∃ id, h.handle k = some id ∧ h.cells[id]? = some b := by
  simp [get, Option.bind_eq_some_iff]

theorem get_eq_none {k : κ} : h.get k = none ↔ h.handle k = none := by
  have same := h.get_isSome k
  cases g : h.get k <;> cases m : h.handle k <;> simp_all

theorem exists_get {k : κ} {id : Nat} (found : h.handle k = some id) : ∃ b, h.get k = some b := by
  have same := h.get_isSome k
  rw [found] at same
  exact Option.isSome_iff_exists.mp same

theorem handle_add (k k' : κ) (b : β) :
    (h.add k b).handle k' = if k' = k then some h.cells.length else h.handle k' :=
  OrderedMap.get_insert _ _ _ _

theorem get_add (k k' : κ) (b : β) : (h.add k b).get k' = if k' = k then some b else h.get k' := by
  unfold get
  rw [handle_add]
  split
  · simp [add]
  · cases found : h.handle k' with
    | none => rfl
    | some id => simp [add, List.getElem?_append_left (h.within k' id found)]

@[simp] theorem handle_modify (id : Nat) (f : β → β) (k : κ) :
    (h.modify id f).handle k = h.handle k := rfl

theorem get_modify (id : Nat) (f : β → β) (k : κ) :
    (h.modify id f).get k = if h.handle k = some id then (h.get k).map f else h.get k := by
  unfold get
  rw [handle_modify]
  cases found : h.handle k with
  | none => simp
  | some id' =>
      simp only [Option.bind_some, modify, List.getElem?_modify, Option.some.injEq]
      by_cases same : id = id'
      · simp [same]
      · simp [same, Ne.symm same]

theorem handle_filter (p : κ → Bool) (k : κ) :
    (h.filter p).handle k = if p k then h.handle k else none := by
  unfold handle filter
  rw [OrderedMap.get_filter]
  cases h.map.get k <;> cases p k <;> simp [Option.filter]

theorem get_filter (p : κ → Bool) (k : κ) :
    (h.filter p).get k = if p k then h.get k else none := by
  unfold get
  rw [handle_filter]
  cases p k <;> rfl

theorem handle_addAll_of_not_mem {k : κ} (entries : List (κ × β)) (out : k ∉ entries.map Prod.fst) :
    (h.addAll entries).handle k = h.handle k := by
  induction entries generalizing h with
  | nil => rfl
  | cons e rest ih =>
      simp only [List.map_cons, List.mem_cons, not_or] at out
      change ((h.add e.1 e.2).addAll rest).handle k = _
      rw [ih _ out.2, handle_add, if_neg out.1]

theorem get_addAll (entries : List (κ × β)) (nodup : (entries.map Prod.fst).Nodup) (k : κ) :
    (h.addAll entries).get k = (OrderedMap.lookup k entries).or (h.get k) := by
  induction entries generalizing h with
  | nil => rfl
  | cons e rest ih =>
      have apart := List.nodup_cons.mp nodup
      change ((h.add e.1 e.2).addAll rest).get k = _
      rw [ih _ apart.2, get_add, OrderedMap.lookup.eq_def k (e :: rest)]
      simp only
      by_cases same : k = e.1
      · subst same
        have none : OrderedMap.lookup e.1 rest = none := by
          cases found : OrderedMap.lookup e.1 rest with
          | none => rfl
          | some b =>
              have mem := OrderedMap.mem_of_lookup found
              exact absurd (List.mem_map_of_mem mem) apart.1
        simp [none]
      · simp [same]

/-! ### What the map leads to, operation by operation -/

theorem objects_add (k : κ) (b : β) : (h.add k b).objects = h.objects.insert k b := by
  refine OrderedMap.ext_get fun k' => ?_
  rw [get_objects, get_add, OrderedMap.get_insert, get_objects]

theorem objects_modify {k : κ} {id : Nat} (found : h.handle k = some id) (b : β) :
    (h.modify id fun _ => b).objects = h.objects.insert k b := by
  refine OrderedMap.ext_get fun k' => ?_
  rw [get_objects, get_modify, OrderedMap.get_insert, get_objects]
  by_cases same : k' = k
  · subst same
    obtain ⟨old, held⟩ := h.exists_get found
    rw [if_pos found, if_pos rfl, held]
    rfl
  · have other : h.handle k' ≠ some id := fun found' => same (h.apart k' k id found' found)
    rw [if_neg other, if_neg same]

/-- Writing through a handle that is not found any more changes nothing that is. -/
theorem objects_modify_orphan {id : Nat} (orphan : ∀ k, h.handle k ≠ some id) (b : β) :
    (h.modify id fun _ => b).objects = h.objects := by
  refine OrderedMap.ext_get fun k => ?_
  rw [get_objects, get_modify, if_neg (orphan k), get_objects]

theorem objects_erase (k : κ) : (h.filter fun k' => k' ≠ k).objects = h.objects.erase k := by
  refine OrderedMap.ext_get fun k' => ?_
  rw [get_objects, get_filter, OrderedMap.get_erase, get_objects]
  by_cases same : k' = k <;> simp [same]

theorem size_objects : h.objects.size = h.map.size := by
  have all : ∀ e ∈ h.map.entries, ((h.cells[e.2]?).map (e.1, ·)).isSome = true := by
    intro e mem
    have bound := h.within e.1 e.2 (OrderedMap.mem_entries.mp mem)
    simp [bound]
  have count := List.countP_eq_length.mpr all
  rw [OrderedMap.size, OrderedMap.size, objects, OrderedMap.filterMap, List.length_filterMap_eq_countP, count]

end Specs

end Handles
