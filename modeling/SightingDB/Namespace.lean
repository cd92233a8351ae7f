import SightingDB.Attribute

/-!
One namespace: its values, and whether anything in it was ever given a lifetime.
-/
namespace SightingDB

/-- `hasTtl` is sticky: it stays set once a lifetime has been seen. -/
structure Namespace where
  values : OrderedMap String Attribute
  hasTtl : Bool
  deriving DecidableEq

/-- A slice of a listing, with the number of matches before paging. -/
structure Page (α : Type) where
  items : List α
  total : Nat
  offset : Nat
  deriving DecidableEq

namespace Namespace

def empty : Namespace := ⟨∅, false⟩

/-- A snapshot from an older build is migrated value by value. -/
def fromValues (values : OrderedMap String Attribute) (node : String) : Namespace where
  values := values.mapValues fun _ a => a.migrate node
  hasTtl := values.entries.any fun e => 0 < e.2.ttl

/-- `is_some_and(|ttl| ttl > 0)`. -/
def setsTtl : Option Nat → Bool
  | none => false
  | some ttl => 0 < ttl

/-- Record a sighting: the new count, whether the value is new here, and a view for the log. -/
def record (ns : Namespace) (node value : String) (when : DateTime) (ttl : Option Nat)
    (retention : Nat) (tags : String) : Namespace × Nat × Bool × AttributeView :=
  let hasTtl := ns.hasTtl || setsTtl ttl
  match ns.values.get value with
  | some cell =>
      let attr := cell.sighted node when ttl retention tags
      (⟨ns.values.insert value attr, hasTtl⟩, attr.count, false, attr.view 0 false)
  | none =>
      let attr := (Attribute.new value).sighted node when ttl retention tags
      (⟨ns.values.insert value attr, hasTtl⟩, attr.count, true, attr.view 0 false)

/-- State one value's count outright; a count of zero removes the value. -/
def setCount (ns : Namespace) (node value : String) (count : Nat) (now : DateTime) :
    Namespace × Bool :=
  if count = 0 then ({ ns with values := ns.values.erase value }, ns.values.contains value)
  else
    let attr := (ns.values.get value).getD (.new value)
    if attr.count = count then ({ ns with values := ns.values.insert value attr }, false)
    else
      let attr := { attr with counts := OrderedMap.empty.insert node count }
      let attr := if attr.firstSeen = .unixEpoch then
          { attr with firstSeen := now, lastSeen := now }
        else attr
      ({ ns with values := ns.values.insert value attr }, true)

/-- Fold a peer's copy in, reporting whether the value was absent here. -/
def merge (ns : Namespace) (node value : String) (incoming : Merge) : Namespace × Merged × Bool :=
  let isNew := !ns.values.contains value
  let (attr, outcome) := ((ns.values.get value).getD (.new value)).merge incoming node
  (⟨ns.values.insert value attr, ns.hasTtl || (0 < incoming.ttl : Bool)⟩, outcome, isNew)

def mergePage (ns : Namespace) (offset limit : Nat) (now : DateTime) : Page (String × Merge) :=
  let live := ns.values.entries.filter fun e => !e.2.isExpired now
  { items := ((live.drop offset).take limit).map fun e => (e.1, e.2.asMerge)
    total := live.length
    offset := offset }

def mergePayload (ns : Namespace) (value : String) (now : DateTime) : Option Merge :=
  match ns.values.get value with
  | none => none
  | some attr => if attr.isExpired now then none else some attr.asMerge

/-- An expired value is invisible even before it is swept. -/
def view (ns : Namespace) (value : String) (consensus : Nat) (withStats : Bool) (now : DateTime) :
    Option AttributeView :=
  match ns.values.get value with
  | none => none
  | some attr => if attr.isExpired now then none else some (attr.view consensus withStats)

def count (ns : Namespace) (value : String) (now : DateTime) : Nat :=
  match ns.values.get value with
  | none => 0
  | some attr => if attr.isExpired now then 0 else attr.count

def allViews (ns : Namespace) (withStats : Bool) (now : DateTime) : List AttributeView :=
  (ns.values.entries.filter fun e => !e.2.isExpired now).map fun e => e.2.view 0 withStats

/-- Drop expired values, returning those that went. -/
def removeExpired (ns : Namespace) (now : DateTime) : Namespace × List String :=
  if !ns.hasTtl then (ns, [])
  else if !ns.values.entries.any fun e => e.2.isExpired now then (ns, [])
  else ({ ns with values := ns.values.filter fun _ a => !a.isExpired now },
    (ns.values.filter fun _ a => a.isExpired now).keys)

/-- Replace one value's tag set, reporting whether the value was there. -/
def retag (ns : Namespace) (value tags : String) (now : DateTime) : Namespace × Bool :=
  match ns.values.get value with
  | none => (ns, false)
  | some attr =>
      if attr.isExpired now then (ns, false)
      else ({ ns with values := ns.values.insert value (attr.setTags tags now.timestampMillis) }, true)

/-- Give back one consensus count, dropping the entry when nothing remains. -/
def release (ns : Namespace) (node value : String) : Namespace :=
  match ns.values.get value with
  | none => ns
  | some attr =>
      let (attr, remaining) := attr.decrement node
      if remaining = 0 then { ns with values := ns.values.erase value }
      else { ns with values := ns.values.insert value attr }

def valueNames (ns : Namespace) : List String := ns.values.keys

def isEmpty (ns : Namespace) : Bool := ns.values.entries.isEmpty

def len (ns : Namespace) : Nat := ns.values.size

/-! ## What each operation leaves behind -/

section Specs

variable (ns : Namespace) (node value : String)

/-- The cell a sighting or a merge works on. -/
def cell (ns : Namespace) (value : String) : Attribute := (ns.values.get value).getD (.new value)

theorem get_of_isEmpty {ns : Namespace} (empty : ns.isEmpty = true) (value : String) :
    ns.values.get value = none := by
  rw [OrderedMap.get, List.isEmpty_iff.mp empty]
  rfl

theorem record_values (when : DateTime) (ttl : Option Nat) (retention : Nat) (tags : String) :
    (ns.record node value when ttl retention tags).1.values =
      ns.values.insert value ((ns.cell value).sighted node when ttl retention tags) := by
  cases found : ns.values.get value <;> simp [record, cell, found]

theorem record_isNew (when : DateTime) (ttl : Option Nat) (retention : Nat) (tags : String) :
    (ns.record node value when ttl retention tags).2.2.1 = !ns.values.contains value := by
  cases found : ns.values.get value <;> simp [record, OrderedMap.contains, found]

theorem merge_values (incoming : Merge) :
    (ns.merge node value incoming).1.values =
      ns.values.insert value ((ns.cell value).merge incoming node).1 := rfl

theorem merge_isNew (incoming : Merge) :
    (ns.merge node value incoming).2.2 = !ns.values.contains value := rfl

theorem merge_outcome (incoming : Merge) :
    (ns.merge node value incoming).2.1 = ((ns.cell value).merge incoming node).2 := rfl

theorem retag_contains (tags : String) (now : DateTime) (v : String) :
    (ns.retag value tags now).1.values.contains v = ns.values.contains v := by
  simp only [retag]
  cases found : ns.values.get value with
  | none => rfl
  | some a =>
      by_cases expired : a.isExpired now
      · simp [expired]
      · by_cases same : v = value
        · subst same
          simp [expired, OrderedMap.contains, found]
        · simp [expired, OrderedMap.contains, OrderedMap.get_insert, same]

theorem removeExpired_keys_nodup (now : DateTime) : (ns.removeExpired now).2.Nodup := by
  simp only [removeExpired]
  split_ifs
  · exact List.nodup_nil
  · exact List.nodup_nil
  · exact OrderedMap.keys_nodup _

/-- A value is either kept or reported as gone. -/
theorem removeExpired_contains (now : DateTime) (v : String) :
    ns.values.contains v = true ↔
      ((ns.removeExpired now).1.values.contains v = true ∨ v ∈ (ns.removeExpired now).2) := by
  simp only [removeExpired]
  split_ifs
  · simp
  · simp
  · simp only [OrderedMap.contains_iff, OrderedMap.mem_keys, OrderedMap.get_filter]
    cases found : ns.values.get v with
    | none => simp
    | some a => by_cases expired : a.isExpired now <;> simp [expired, Option.filter]

/-- A cell is left alone, or it had expired and is gone. -/
theorem removeExpired_get (now : DateTime) (v : String) :
    (ns.removeExpired now).1.values.get v = ns.values.get v ∨
      (ns.removeExpired now).1.values.get v = none ∧
        ((ns.values.get v).any fun a => a.isExpired now) = true := by
  simp only [removeExpired]
  split_ifs
  · exact .inl rfl
  · exact .inl rfl
  · rw [OrderedMap.get_filter]
    cases ns.values.get v with
    | none => exact .inl rfl
    | some a => by_cases expired : a.isExpired now <;> simp [expired, Option.filter]

/-- Nothing is dropped from a namespace in which nothing has expired. -/
theorem removeExpired_none {now : DateTime}
    (live : ∀ v a, ns.values.get v = some a → a.isExpired now = false) : ns.removeExpired now = (ns, []) := by
  have none : (ns.values.entries.any fun e => e.2.isExpired now) = false := by
    refine List.any_eq_false.mpr fun e member => ?_
    simp [live e.1 e.2 (OrderedMap.mem_entries.mp member)]
  simp [removeExpired, none]

theorem removeExpired_disjoint {now : DateTime} {v : String} (gone : v ∈ (ns.removeExpired now).2) :
    (ns.removeExpired now).1.values.contains v = false := by
  simp only [removeExpired] at gone ⊢
  split_ifs at gone ⊢
  · simp at gone
  · simp at gone
  · simp only [OrderedMap.mem_keys, OrderedMap.get_filter] at gone
    rw [OrderedMap.not_contains_iff, OrderedMap.get_filter]
    cases found : ns.values.get v with
    | none => rfl
    | some a => by_cases expired : a.isExpired now <;> simp_all [Option.filter]

/-- Counted once each: what was there is what is kept and what went. -/
theorem removeExpired_count (now : DateTime) (v : String) :
    (ns.values.contains v).toNat =
      ((ns.removeExpired now).1.values.contains v).toNat + (ns.removeExpired now).2.count v := by
  have split := ns.removeExpired_contains now v
  by_cases gone : v ∈ (ns.removeExpired now).2
  · rw [List.count_eq_one_of_mem (ns.removeExpired_keys_nodup now) gone, ns.removeExpired_disjoint gone,
      split.mpr (.inr gone)]
    rfl
  · rw [List.count_eq_zero_of_not_mem gone, Nat.add_zero]
    simp only [gone, or_false] at split
    rw [Bool.eq_iff_iff.mpr split]

end Specs

end Namespace
end SightingDB
