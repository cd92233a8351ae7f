import SightingDB.AttributeMerge

/-!
What happens to one value on one server: sightings, whoever they are counted for,
replacements of its tags, and copies merged in from peers.
-/
namespace SightingDB

inductive Operation
  | sight (node : String) (when : DateTime) (ttl : Option Nat) (retention : Nat) (tags : String)
  | retag (tags : String) (at_ : Int)
  | merge (payload : Merge) (mine : String)
  deriving DecidableEq

namespace Operation

/-- The time an operation names for the first edge of the seen window. -/
def firstTime : Operation → Option DateTime
  | .sight _ when _ _ _ => some when
  | .retag _ _ => none
  | .merge p _ => DateTime.fromTimestamp p.firstSeen

/-- The time an operation names for the last edge. -/
def lastTime : Operation → Option DateTime
  | .sight _ when _ _ _ => some when
  | .retag _ _ => none
  | .merge p _ => DateTime.fromTimestamp p.lastSeen

/-- The copy an operation brings in. -/
def payload : Operation → Option Merge
  | .merge p _ => some p
  | _ => none

/-- Whether an operation says anything about tags beyond what a copy carries. -/
def plain : Operation → Bool
  | .sight _ _ _ _ tags => tags = ""
  | .retag _ _ => false
  | .merge _ _ => true

end Operation

namespace Attribute

def apply (a : Attribute) : Operation → Attribute
  | .sight node when ttl retention tags => a.sighted node when ttl retention tags
  | .retag tags at_ => a.setTags tags at_
  | .merge p mine => (a.merge p mine).1

def applyAll (a : Attribute) (ops : List Operation) : Attribute := ops.foldl apply a

/-- Whether the window is seeded rather than widened: a sighting looks at the total alone,
a merge at the total and the epoch. -/
def seeds (a : Attribute) : Operation → Bool
  | .sight .. => a.count = 0
  | .retag .. => false
  | .merge .. => a.unseen

@[simp] theorem applyAll_nil (a : Attribute) : a.applyAll [] = a := rfl

@[simp] theorem applyAll_cons (a : Attribute) (op : Operation) (rest : List Operation) :
    a.applyAll (op :: rest) = (a.apply op).applyAll rest := rfl

theorem applyAll_append (a : Attribute) (before after : List Operation) :
    a.applyAll (before ++ after) = (a.applyAll before).applyAll after :=
  List.foldl_append

@[simp] theorem applyAll_concat (a : Attribute) (before : List Operation) (op : Operation) :
    a.applyAll (before ++ [op]) = (a.applyAll before).apply op :=
  applyAll_append a before [op]

/-- Sightings and merges move the first edge by one rule and differ in when they seed it. -/
theorem apply_firstSeen (a : Attribute) (op : Operation) :
    (a.apply op).firstSeen = firstEdge (a.seeds op) a.firstSeen op.firstTime := by
  cases op with
  | sight node when ttl retention tags =>
      rw [apply, sighted_eq, increment_firstSeen]
      change (if a.count = 0 then when else min a.firstSeen when) = _
      by_cases none : a.count = 0 <;> simp [firstEdge, seeds, Operation.firstTime, none]
  | retag tags at_ => rfl
  | merge p mine => exact merge_firstSeen a p mine

theorem apply_lastSeen (a : Attribute) (op : Operation) :
    (a.apply op).lastSeen = lastEdge (a.seeds op) a.lastSeen op.lastTime := by
  cases op with
  | sight node when ttl retention tags =>
      rw [apply, sighted_eq, increment_lastSeen]
      change (if a.count = 0 then when else max a.lastSeen when) = _
      by_cases none : a.count = 0 <;> simp [lastEdge, seeds, Operation.lastTime, none]
  | retag tags at_ => rfl
  | merge p mine => exact merge_lastSeen a p mine

/-- Without tags of its own an operation joins in what its copy carries. -/
theorem apply_tagState {op : Operation} (plain : op.plain = true) (a : Attribute) :
    (a.apply op).tagState = op.payload.elim a.tagState (a.tagState ⊔ ·.tagState) := by
  cases op with
  | sight node when ttl retention tags =>
      obtain rfl : tags = "" := by simpa [Operation.plain] using plain
      simp [apply, sighted_eq, tagState, Operation.payload]
  | retag tags at_ => cases plain
  | merge p mine => exact merge_tagState a p mine

theorem applyAll_tagState {ops : List Operation} (plain : ∀ op ∈ ops, op.plain = true)
    (a : Attribute) : (a.applyAll ops).tagState =
      ((ops.filterMap Operation.payload).map Merge.tagState).foldl (· ⊔ ·) a.tagState := by
  induction ops generalizing a with
  | nil => rfl
  | cons op rest ih =>
      have first := apply_tagState (plain op (by simp)) a
      rw [applyAll_cons, ih fun op' member => plain op' (List.mem_cons_of_mem _ member), first]
      cases brings : op.payload with
      | none => rw [List.filterMap_cons_none brings, Option.elim_none]
      | some p => rw [List.filterMap_cons_some brings, List.map_cons, List.foldl_cons, Option.elim_some]

end Attribute
end SightingDB
