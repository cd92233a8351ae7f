import Mathlib.Order.Defs.LinearOrder
import Mathlib.Order.Lattice
import Mathlib.Data.List.Basic
import Mathlib.Data.List.Nodup
import Mathlib.Algebra.Order.Group.Nat
import Mathlib.Algebra.GroupWithZero.Nat
import Mathlib.Order.Lattice.Nat

/-!
Finite maps kept as key-sorted association lists. The sorted list is unique for
its lookup function, so two maps with the same lookups are equal, equality is
decidable by comparing entries, and iteration is in ascending key order.
-/
namespace OrderedMap

variable {κ : Type*} {ν : Type*} [LinearOrder κ]

/-- First value stored under a key in an association list. -/
def lookup (k : κ) : List (κ × ν) → Option ν
  | [] => none
  | (k', v) :: rest => if k = k' then some v else lookup k rest

/-- Sorted insertion, replacing the value of an existing key. -/
def insertEntry (k : κ) (v : ν) : List (κ × ν) → List (κ × ν)
  | [] => [(k, v)]
  | (k', v') :: rest =>
      if k < k' then (k, v) :: (k', v') :: rest
      else if k = k' then (k, v) :: rest
      else (k', v') :: insertEntry k v rest

def Sorted (l : List (κ × ν)) : Prop := l.Pairwise (fun a b => a.1 < b.1)

theorem lookup_none_of_above {k : κ} {l : List (κ × ν)} (above : ∀ e ∈ l, k < e.1) :
    lookup k l = none := by
  induction l with
  | nil => rfl
  | cons e rest ih =>
      have hne : k ≠ e.1 := ne_of_lt (above e (by simp))
      simp only [lookup, if_neg hne]
      exact ih fun e' member => above e' (List.mem_cons_of_mem _ member)

theorem mem_of_lookup {k : κ} {v : ν} {l : List (κ × ν)} (found : lookup k l = some v) :
    (k, v) ∈ l := by
  induction l with
  | nil => simp [lookup] at found
  | cons e rest ih =>
      obtain ⟨k', v'⟩ := e
      by_cases same : k = k'
      · subst same
        simp only [lookup, if_true, Option.some.injEq] at found
        simp [found]
      · simp only [lookup, if_neg same] at found
        exact List.mem_cons_of_mem _ (ih found)

theorem lookup_of_mem {k : κ} {v : ν} {l : List (κ × ν)} (sorted : Sorted l)
    (member : (k, v) ∈ l) : lookup k l = some v := by
  induction l with
  | nil => simp at member
  | cons e rest ih =>
      obtain ⟨k', v'⟩ := e
      obtain ⟨above, sortedRest⟩ := List.pairwise_cons.mp sorted
      rcases List.mem_cons.mp member with here | later
      · obtain ⟨rfl, rfl⟩ := Prod.mk.inj here
        simp [lookup]
      · have hne : k ≠ k' := (ne_of_lt (above _ later)).symm
        simp only [lookup, if_neg hne]
        exact ih sortedRest later

theorem mem_insertEntry {k : κ} {v : ν} {l : List (κ × ν)} {e : κ × ν}
    (member : e ∈ insertEntry k v l) : e = (k, v) ∨ e ∈ l := by
  induction l with
  | nil => simpa [insertEntry] using member
  | cons e' rest ih =>
      obtain ⟨k', v'⟩ := e'
      simp only [insertEntry] at member
      split_ifs at member with below same
      · simpa using member
      · rcases List.mem_cons.mp member with here | later
        · exact .inl here
        · exact .inr (List.mem_cons_of_mem _ later)
      · rcases List.mem_cons.mp member with here | later
        · exact .inr (by simp [here])
        · exact (ih later).imp id (List.mem_cons_of_mem _)

theorem insertEntry_sorted (k : κ) (v : ν) {l : List (κ × ν)} (sorted : Sorted l) :
    Sorted (insertEntry k v l) := by
  induction l with
  | nil => simp [insertEntry, Sorted]
  | cons e rest ih =>
      obtain ⟨k', v'⟩ := e
      obtain ⟨above, sortedRest⟩ := List.pairwise_cons.mp sorted
      simp only [insertEntry]
      split_ifs with below same
      · refine List.pairwise_cons.mpr ⟨?_, sorted⟩
        intro e' member
        rcases List.mem_cons.mp member with rfl | later
        · exact below
        · exact below.trans (above e' later)
      · subst same
        exact List.pairwise_cons.mpr ⟨above, sortedRest⟩
      · refine List.pairwise_cons.mpr ⟨?_, ih sortedRest⟩
        intro e' member
        rcases mem_insertEntry member with rfl | old
        · exact lt_of_le_of_ne (not_lt.mp below) (Ne.symm same)
        · exact above e' old

theorem lookup_insertEntry (k k' : κ) (v : ν) {l : List (κ × ν)} (sorted : Sorted l) :
    lookup k' (insertEntry k v l) = if k' = k then some v else lookup k' l := by
  induction l with
  | nil => rfl
  | cons e rest ih =>
      obtain ⟨k₀, v₀⟩ := e
      obtain ⟨above, sortedRest⟩ := List.pairwise_cons.mp sorted
      by_cases below : k < k₀
      · simp only [insertEntry, if_pos below, lookup]
      · by_cases same : k = k₀
        · subst same
          by_cases hit : k' = k <;> simp [insertEntry, lookup, hit]
        · simp only [insertEntry, if_neg below, if_neg same, lookup, ih sortedRest]
          by_cases hit : k' = k
          · simp [hit, same]
          · simp [hit]

theorem lookup_filter (p : κ × ν → Bool) (k : κ) {l : List (κ × ν)} (sorted : Sorted l) :
    lookup k (l.filter p) = (lookup k l).filter (fun v => p (k, v)) := by
  induction l with
  | nil => rfl
  | cons e rest ih =>
      obtain ⟨k', v'⟩ := e
      obtain ⟨above, sortedRest⟩ := List.pairwise_cons.mp sorted
      by_cases same : k = k'
      · subst same
        have gone : lookup k (rest.filter p) = none :=
          lookup_none_of_above fun e member => above e (List.mem_of_mem_filter member)
        by_cases keep : p (k, v')
        · simp [lookup, List.filter_cons_of_pos, keep, Option.filter]
        · simp [lookup, List.filter_cons_of_neg, keep, gone, Option.filter]
      · by_cases keep : p (k', v')
        · simp only [List.filter_cons_of_pos keep, lookup, if_neg same, ih sortedRest]
        · simp only [List.filter_cons_of_neg keep, lookup, if_neg same, ih sortedRest]

/-- The entries under one key. -/
theorem filter_key (k : κ) {l : List (κ × ν)} (sorted : Sorted l) :
    (l.filter fun e => decide (e.1 = k)) = ((lookup k l).map fun v => (k, v)).toList := by
  induction l with
  | nil => rfl
  | cons e rest ih =>
      obtain ⟨above, sortedRest⟩ := List.pairwise_cons.mp sorted
      by_cases here : e.1 = k
      · subst here
        have gone : (rest.filter fun e' => decide (e'.1 = e.1)) = [] :=
          List.filter_eq_nil_iff.mpr fun e' member => by simpa using (above e' member).ne'
        simp [lookup, gone]
      · have other : k ≠ e.1 := fun same => here same.symm
        simp [lookup, here, other, ih sortedRest]

theorem lookup_map {ν' : Type*} (f : κ → ν → ν') (k : κ) (l : List (κ × ν)) :
    lookup k (l.map fun e => (e.1, f e.1 e.2)) = (lookup k l).map (f k) := by
  induction l with
  | nil => rfl
  | cons e rest ih =>
      obtain ⟨k', v'⟩ := e
      by_cases same : k = k'
      · subst same; simp [lookup]
      · simp [lookup, same, ih]

theorem entries_ext {l l' : List (κ × ν)} (sorted : Sorted l) (sorted' : Sorted l')
    (same : ∀ k, lookup k l = lookup k l') : l = l' := by
  induction l generalizing l' with
  | nil =>
      cases l' with
      | nil => rfl
      | cons e rest => simpa [lookup] using same e.1
  | cons e rest ih =>
      obtain ⟨k, v⟩ := e
      cases l' with
      | nil => simpa [lookup] using same k
      | cons e' rest' =>
          obtain ⟨k', v'⟩ := e'
          obtain ⟨above, sortedRest⟩ := List.pairwise_cons.mp sorted
          obtain ⟨above', sortedRest'⟩ := List.pairwise_cons.mp sorted'
          -- The head keys agree: each is present on the other side, hence not below it.
          have head : k = k' := by
            by_contra hne
            have h₁ : (k, v) ∈ rest' := by
              have found := same k
              simp only [lookup, if_true, if_neg hne] at found
              exact mem_of_lookup found.symm
            have h₂ : (k', v') ∈ rest := by
              have found := same k'
              simp only [lookup, if_true, if_neg (Ne.symm hne)] at found
              exact mem_of_lookup found
            exact lt_asymm (above _ h₂) (above' _ h₁)
          subst head
          have value : v = v' := by simpa [lookup] using same k
          subst value
          refine congrArg _ (ih sortedRest sortedRest' ?_)
          intro j
          by_cases hj : j = k
          · subst hj
            rw [lookup_none_of_above above, lookup_none_of_above above']
          · simpa [lookup, hj] using same j

end OrderedMap

/-- A finite map with ascending keys. -/
structure OrderedMap (κ : Type*) (ν : Type*) [LinearOrder κ] where
  entries : List (κ × ν)
  sorted : OrderedMap.Sorted entries
  deriving DecidableEq

namespace OrderedMap

variable {κ : Type*} {ν : Type*} {ν' : Type*} [LinearOrder κ]

def empty : OrderedMap κ ν := ⟨[], List.Pairwise.nil⟩

instance : EmptyCollection (OrderedMap κ ν) := ⟨empty⟩
instance : Inhabited (OrderedMap κ ν) := ⟨empty⟩

def get (m : OrderedMap κ ν) (k : κ) : Option ν := lookup k m.entries

def contains (m : OrderedMap κ ν) (k : κ) : Bool := (m.get k).isSome

def insert (m : OrderedMap κ ν) (k : κ) (v : ν) : OrderedMap κ ν :=
  ⟨insertEntry k v m.entries, insertEntry_sorted k v m.sorted⟩

/-- Keep the entries a predicate accepts. -/
def filter (m : OrderedMap κ ν) (p : κ → ν → Bool) : OrderedMap κ ν :=
  ⟨m.entries.filter fun e => p e.1 e.2, m.sorted.filter _⟩

def erase (m : OrderedMap κ ν) (k : κ) : OrderedMap κ ν := m.filter fun k' _ => k' ≠ k

/-- Keep what `f` gives a value. -/
def filterMap (m : OrderedMap κ ν) (f : κ → ν → Option ν') : OrderedMap κ ν' where
  entries := m.entries.filterMap fun e => (f e.1 e.2).map (e.1, ·)
  sorted := m.sorted.filterMap _ fun a b less c kept d kept' => by
    obtain ⟨_, _, rfl⟩ := Option.map_eq_some_iff.mp kept
    obtain ⟨_, _, rfl⟩ := Option.map_eq_some_iff.mp kept'
    exact less

def mapValues (m : OrderedMap κ ν) (f : κ → ν → ν') : OrderedMap κ ν' :=
  ⟨m.entries.map fun e => (e.1, f e.1 e.2), List.pairwise_map.mpr (m.sorted.imp id)⟩

def keys (m : OrderedMap κ ν) : List κ := m.entries.map Prod.fst

def size (m : OrderedMap κ ν) : Nat := m.entries.length

/-- How many entries a predicate accepts. -/
def countP (m : OrderedMap κ ν) (p : κ → ν → Bool) : Nat := m.entries.countP fun e => p e.1 e.2

/-- The values of a numeric map added together. -/
def total (m : OrderedMap κ Nat) : Nat := (m.entries.map Prod.snd).sum

theorem ext_get {m m' : OrderedMap κ ν} (same : ∀ k, m.get k = m'.get k) : m = m' := by
  cases m with
  | mk entries sorted =>
      cases m' with
      | mk entries' sorted' =>
          congr
          exact entries_ext sorted sorted' same

@[simp] theorem get_empty (k : κ) : (∅ : OrderedMap κ ν).get k = none := rfl

theorem get_insert (m : OrderedMap κ ν) (k k' : κ) (v : ν) :
    (m.insert k v).get k' = if k' = k then some v else m.get k' :=
  lookup_insertEntry k k' v m.sorted

@[simp] theorem get_insert_self (m : OrderedMap κ ν) (k : κ) (v : ν) :
    (m.insert k v).get k = some v := by simp [get_insert]

theorem get_insert_of_ne (m : OrderedMap κ ν) {k k' : κ} (v : ν) (hne : k' ≠ k) :
    (m.insert k v).get k' = m.get k' := by simp [get_insert, hne]

@[simp] theorem get_filter (m : OrderedMap κ ν) (p : κ → ν → Bool) (k : κ) :
    (m.filter p).get k = (m.get k).filter (p k) :=
  lookup_filter (fun e => p e.1 e.2) k m.sorted

theorem get_erase (m : OrderedMap κ ν) (k k' : κ) :
    (m.erase k).get k' = if k' = k then none else m.get k' := by
  by_cases same : k' = k
  · subst same
    cases found : m.get k' <;> simp [erase, found, Option.filter]
  · cases found : m.get k' <;> simp [erase, same, found, Option.filter]

@[simp] theorem get_erase_self (m : OrderedMap κ ν) (k : κ) : (m.erase k).get k = none := by
  simp [get_erase]

@[simp] theorem get_mapValues (m : OrderedMap κ ν) (f : κ → ν → ν') (k : κ) :
    (m.mapValues f).get k = (m.get k).map (f k) :=
  lookup_map f k m.entries

private theorem lookup_filterMap (f : κ → ν → Option ν') (k : κ) {l : List (κ × ν)}
    (sorted : Sorted l) :
    lookup k (l.filterMap fun e => (f e.1 e.2).map (e.1, ·)) = (lookup k l).bind (f k) := by
  induction l with
  | nil => rfl
  | cons e rest ih =>
      obtain ⟨above, sortedRest⟩ := List.pairwise_cons.mp sorted
      have absent (same : k = e.1) : lookup k rest = none :=
        lookup_none_of_above fun e' member => same ▸ above e' member
      cases gone : f e.1 e.2 with
      | none =>
          rw [List.filterMap_cons_none (by simp [gone]), ih sortedRest]
          by_cases same : k = e.1
          · rw [absent same]
            simp [lookup, same, gone]
          · simp [lookup, same]
      | some v =>
          rw [List.filterMap_cons_some (by simp [gone]; rfl)]
          by_cases same : k = e.1
          · simp [lookup, same, gone]
          · simp [lookup, same, ih sortedRest]

theorem get_filterMap (m : OrderedMap κ ν) (f : κ → ν → Option ν') (k : κ) :
    (m.filterMap f).get k = (m.get k).bind (f k) := lookup_filterMap f k m.sorted

theorem mem_entries {m : OrderedMap κ ν} {k : κ} {v : ν} : (k, v) ∈ m.entries ↔ m.get k = some v :=
  ⟨lookup_of_mem m.sorted, mem_of_lookup⟩

theorem mem_keys {m : OrderedMap κ ν} {k : κ} : k ∈ m.keys ↔ ∃ v, m.get k = some v := by
  simp only [keys, List.mem_map, Prod.exists, mem_entries]
  constructor
  · rintro ⟨k', v, found, rfl⟩; exact ⟨v, found⟩
  · rintro ⟨v, found⟩; exact ⟨k, v, found, rfl⟩

theorem contains_iff {m : OrderedMap κ ν} {k : κ} : m.contains k = true ↔ ∃ v, m.get k = some v := by
  simp [contains, Option.isSome_iff_exists]

theorem not_contains_iff {m : OrderedMap κ ν} {k : κ} : m.contains k = false ↔ m.get k = none := by
  simp [contains]

theorem keys_nodup (m : OrderedMap κ ν) : m.keys.Nodup :=
  List.pairwise_map.mpr (m.sorted.imp fun below => ne_of_lt below)

/-- A list entered in a set, key by key. -/
theorem contains_foldl_insert (l : List κ) (set : OrderedMap κ Unit) (k : κ) :
    (l.foldl (fun set n => set.insert n ()) set).contains k = (set.contains k || decide (k ∈ l)) := by
  induction l generalizing set with
  | nil => simp
  | cons n rest ih =>
      rw [List.foldl_cons, ih]
      by_cases same : k = n
      · subst same
        simp [contains]
      · simp [contains, get_insert, same]

theorem count_keys (m : OrderedMap κ ν) (k : κ) : m.keys.count k = (m.contains k).toNat := by
  cases held : m.contains k with
  | true => exact List.count_eq_one_of_mem m.keys_nodup (mem_keys.mpr (contains_iff.mp held))
  | false =>
      refine List.count_eq_zero_of_not_mem fun member => ?_
      rw [contains_iff.mpr (mem_keys.mp member)] at held
      cases held

/-! ## Counting and adding up -/

private theorem countP_insertEntry (p : κ × ν → Bool) (k : κ) (v : ν) {l : List (κ × ν)}
    (sorted : Sorted l) :
    (insertEntry k v l).countP p + (lookup k l).elim 0 (fun w => (p (k, w)).toNat) =
      l.countP p + (p (k, v)).toNat := by
  induction l with
  | nil => cases hv : p (k, v) <;> simp [insertEntry, lookup, hv]
  | cons e rest ih =>
      obtain ⟨k', v'⟩ := e
      obtain ⟨above, sortedRest⟩ := List.pairwise_cons.mp sorted
      by_cases below : k < k'
      · have hne : k ≠ k' := ne_of_lt below
        have gone : lookup k rest = none :=
          lookup_none_of_above fun e member => below.trans (above e member)
        cases hv : p (k, v) <;> simp [insertEntry, below, lookup, hne, gone, hv]
      · by_cases same : k = k'
        · subst same
          cases hv : p (k, v) <;> cases hw : p (k, v') <;>
            simp [insertEntry, lookup, hv, hw]
        · have step := ih sortedRest
          simp only [insertEntry, if_neg below, if_neg same, lookup, List.countP_cons]
          omega

theorem countP_insert (m : OrderedMap κ ν) (p : κ → ν → Bool) (k : κ) (v : ν) :
    (m.insert k v).countP p + (m.get k).elim 0 (fun w => (p k w).toNat) =
      m.countP p + (p k v).toNat :=
  countP_insertEntry (fun e => p e.1 e.2) k v m.sorted

theorem insert_self (m : OrderedMap κ ν) {k : κ} {v : ν} (found : m.get k = some v) :
    m.insert k v = m := by
  refine ext_get fun k' => ?_
  by_cases same : k' = k <;> simp [get_insert, same, found]

theorem insert_insert (m : OrderedMap κ ν) (k : κ) (v v' : ν) :
    (m.insert k v).insert k v' = m.insert k v' := by
  refine ext_get fun k' => ?_
  by_cases same : k' = k <;> simp [get_insert, same]

theorem size_eq_countP (m : OrderedMap κ ν) : m.size = m.countP fun _ _ => true := by
  simp [size, countP]

theorem size_le_insert (m : OrderedMap κ ν) (k : κ) (v : ν) : m.size ≤ (m.insert k v).size := by
  have step := countP_insert m (fun _ _ => true) k v
  rw [size_eq_countP, size_eq_countP]
  cases found : m.get k <;> simp [found] at step <;> omega

theorem insert_erase (m : OrderedMap κ ν) {k : κ} {v : ν} (found : m.get k = some v) :
    (m.erase k).insert k v = m := by
  refine ext_get fun k' => ?_
  by_cases same : k' = k
  · simp [same, found]
  · simp [get_insert, get_erase, same]

theorem erase_absent (m : OrderedMap κ ν) {k : κ} (absent : m.get k = none) : m.erase k = m := by
  refine ext_get fun k' => ?_
  by_cases same : k' = k
  · simp [same, absent]
  · simp [get_erase, same]

theorem countP_erase (m : OrderedMap κ ν) (p : κ → ν → Bool) (k : κ) :
    (m.erase k).countP p + (m.get k).elim 0 (fun w => (p k w).toNat) = m.countP p := by
  cases found : m.get k with
  | none => simp [erase_absent m found]
  | some v =>
      have step := countP_insert (m.erase k) p k v
      rw [insert_erase m found, get_erase_self] at step
      simpa using step.symm

theorem countP_pos {m : OrderedMap κ ν} {p : κ → ν → Bool} :
    0 < m.countP p ↔ ∃ k v, m.get k = some v ∧ p k v = true := by
  simp only [countP, List.countP_pos_iff, Prod.exists, mem_entries]

theorem countP_eq_length (m : OrderedMap κ ν) (p : κ → ν → Bool) :
    m.countP p = (m.filter p).keys.length := by
  simp [countP, keys, filter, List.countP_eq_length_filter]

theorem countP_eq_of_get {m : OrderedMap κ ν} {m' : OrderedMap κ ν'} {p : κ → ν → Bool}
    {q : κ → ν' → Bool}
    (same : ∀ k, (m.get k).elim false (p k) = (m'.get k).elim false (q k)) :
    m.countP p = m'.countP q := by
  rw [countP_eq_length, countP_eq_length]
  have perm : (m.filter p).keys.Perm (m'.filter q).keys := by
    refine (List.perm_ext_iff_of_nodup (keys_nodup _) (keys_nodup _)).mpr fun k => ?_
    have h := same k
    simp only [mem_keys, get_filter]
    cases hm : m.get k <;> cases hm' : m'.get k <;> simp_all [Option.filter]
  exact perm.length_eq

/-- What one map counts is counted at the same key in one of two others. -/
theorem countP_le_add_of_get {m m₁ m₂ : OrderedMap κ ν} {p q r : κ → ν → Bool}
    (covered : ∀ k, (m.get k).elim false (p k) = true →
      (m₁.get k).elim false (q k) = true ∨ (m₂.get k).elim false (r k) = true) :
    m.countP p ≤ m₁.countP q + m₂.countP r := by
  have counted : ∀ (m : OrderedMap κ ν) (p : κ → ν → Bool) (k : κ),
      k ∈ (m.filter p).keys ↔ (m.get k).elim false (p k) = true := by
    intro m p k
    rw [mem_keys, get_filter]
    cases m.get k <;> simp [Option.filter]
  rw [countP_eq_length, countP_eq_length, countP_eq_length, ← List.length_append]
  refine List.Nodup.length_le_of_subset (keys_nodup _) fun k member => ?_
  rw [List.mem_append, counted, counted]
  exact covered k ((counted m p k).mp member)

theorem total_insert (m : OrderedMap κ Nat) (k : κ) (v : Nat) :
    (m.insert k v).total + (m.get k).getD 0 = m.total + v := by
  obtain ⟨entries, sorted⟩ := m
  simp only [total, insert, get]
  induction entries with
  | nil => simp [insertEntry, lookup]
  | cons e rest ih =>
      obtain ⟨k', v'⟩ := e
      obtain ⟨above, sortedRest⟩ := List.pairwise_cons.mp sorted
      by_cases below : k < k'
      · have hne : k ≠ k' := ne_of_lt below
        have gone : lookup k rest = none :=
          lookup_none_of_above fun e member => below.trans (above e member)
        simp [insertEntry, below, lookup, hne, gone]; omega
      · by_cases same : k = k'
        · subst same
          simp [insertEntry, lookup]; omega
        · have step := ih sortedRest
          simp only [insertEntry, if_neg below, if_neg same, lookup, List.map_cons, List.sum_cons]
          omega

theorem total_erase (m : OrderedMap κ Nat) (k : κ) :
    (m.erase k).total + (m.get k).getD 0 = m.total := by
  cases found : m.get k with
  | none => simp [erase_absent m found]
  | some v =>
      have step := total_insert (m.erase k) k v
      rw [insert_erase m found, get_erase_self] at step
      simpa using step.symm

@[simp] theorem total_empty : (∅ : OrderedMap κ Nat).total = 0 := rfl

@[simp] theorem total_single (k : κ) (v : Nat) : (OrderedMap.empty.insert k v).total = v := by
  have step := total_insert (OrderedMap.empty : OrderedMap κ Nat) k v
  simpa [OrderedMap.empty, total, get, lookup] using step

theorem le_total (m : OrderedMap κ Nat) {k : κ} {v : Nat} (found : m.get k = some v) :
    v ≤ m.total := by
  have step := total_erase m k
  rw [found] at step
  simp only [Option.getD_some] at step
  omega

/-! ## Folding one map into another -/

/-- A loop over the entries of a map that rewrites one key of an accumulator per entry
acts on each key alone: distinct keys never meet. -/
theorem get_foldl_insert {α : Type*} (f : κ → Option ν → α → ν) (l : List (κ × α))
    (nodup : (l.map Prod.fst).Nodup) (m : OrderedMap κ ν) (k : κ) :
    (l.foldl (fun acc e => acc.insert e.1 (f e.1 (acc.get e.1) e.2)) m).get k =
      (lookup k l).elim (m.get k) fun a => some (f k (m.get k) a) := by
  induction l generalizing m with
  | nil => rfl
  | cons e rest ih =>
      obtain ⟨k', a⟩ := e
      obtain ⟨fresh, nodupRest⟩ := List.nodup_cons.mp nodup
      simp only [List.foldl_cons]
      rw [ih nodupRest]
      by_cases same : k = k'
      · subst same
        have gone : lookup k rest = none := by
          cases found : lookup k rest with
          | none => rfl
          | some a' => exact absurd (List.mem_map.mpr ⟨_, mem_of_lookup found, rfl⟩) fresh
        simp [lookup, gone]
      · simp [lookup, same, get_insert]

/-- A map is built from its entries. -/
theorem foldl_insert_entries (m : OrderedMap κ ν) : m.entries.foldl (fun m e => m.insert e.1 e.2) ∅ = m := by
  refine ext_get fun k => ?_
  have step := get_foldl_insert (fun _ _ v => v) m.entries m.keys_nodup (∅ : OrderedMap κ ν) k
  rw [step]
  change (m.get k).elim none some = m.get k
  cases m.get k <;> rfl

/-- The same loop carrying a flag: the flag sees each key as it stood before the loop. -/
theorem foldl_insert_flag {α : Type*} (f : Option ν → α → ν) (g : Option ν → α → Bool)
    (l : List (κ × α)) (nodup : (l.map Prod.fst).Nodup) (m : OrderedMap κ ν) (flag : Bool) :
    l.foldl (fun acc e =>
        (acc.1.insert e.1 (f (acc.1.get e.1) e.2), acc.2 || g (acc.1.get e.1) e.2)) (m, flag) =
      (l.foldl (fun acc e => acc.insert e.1 (f (acc.get e.1) e.2)) m,
        flag || l.any fun e => g (m.get e.1) e.2) := by
  induction l generalizing m flag with
  | nil => simp
  | cons e rest ih =>
      obtain ⟨k, a⟩ := e
      obtain ⟨fresh, nodupRest⟩ := List.nodup_cons.mp nodup
      have later : (rest.any fun e => g ((m.insert k (f (m.get k) a)).get e.1) e.2) =
          rest.any fun e => g (m.get e.1) e.2 := by
        rw [Bool.eq_iff_iff, List.any_eq_true, List.any_eq_true]
        refine exists_congr fun e => and_congr_right fun member => ?_
        have hne : e.1 ≠ k := fun same => fresh (List.mem_map.mpr ⟨e, member, same⟩)
        rw [get_insert_of_ne m _ hne]
      simp only [List.foldl_cons, List.any_cons, ih nodupRest, later, Bool.or_assoc]

/-- An entry above all others is the last. -/
theorem entries_insert_above {m : OrderedMap κ ν} {k : κ} (above : ∀ k' ∈ m.keys, k' < k) (v : ν) :
    (m.insert k v).entries = m.entries ++ [(k, v)] := by
  have steps : ∀ l : List (κ × ν), (∀ e ∈ l, e.1 < k) → insertEntry k v l = l ++ [(k, v)] := by
    intro l less
    induction l with
    | nil => rfl
    | cons e rest ih =>
        have first := less e List.mem_cons_self
        rw [insertEntry, if_neg first.not_gt, if_neg first.ne', ih fun later member => less later (List.mem_cons_of_mem _ member)]
        rfl
  exact steps m.entries fun e member => above e.1 (List.mem_map_of_mem member)

theorem keys_sorted (m : OrderedMap κ ν) : m.keys.Pairwise (· < ·) := List.pairwise_map.mpr m.sorted

theorem get_foldl_erase (l : List κ) (m : OrderedMap κ ν) (k : κ) :
    (l.foldl erase m).get k = if k ∈ l then none else m.get k := by
  induction l generalizing m with
  | nil => rfl
  | cons first rest ih =>
      rw [List.foldl_cons, ih, get_erase]
      by_cases later : k ∈ rest
      · simp [later]
      · by_cases same : k = first <;> simp [later, same]

end OrderedMap
