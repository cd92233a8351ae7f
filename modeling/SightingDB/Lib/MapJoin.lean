import SightingDB.Lib.OrderedMap

/-!
Joining finite maps key by key. When the values form a join semilattice so do the maps,
and the construction nests: maps of maps join bucket by bucket.
-/
namespace OrderedMap

variable {κ : Type*} {ν : Type*} [LinearOrder κ] [SemilatticeSup ν]

/-- Fold every entry of the right map into the left one. -/
def join (m m' : OrderedMap κ ν) : OrderedMap κ ν :=
  m'.entries.foldl (fun acc e => acc.insert e.1 ((acc.get e.1).elim e.2 (· ⊔ e.2))) m

theorem get_join (m m' : OrderedMap κ ν) (k : κ) :
    (m.join m').get k = Option.merge (· ⊔ ·) (m.get k) (m'.get k) := by
  have fold := get_foldl_insert (fun _ (held : Option ν) v => held.elim v (· ⊔ v)) m'.entries
    m'.keys_nodup m k
  simp only [join, fold]
  change (m'.get k).elim _ _ = _
  cases m'.get k with
  | none => simp
  | some v => cases m.get k <;> simp

instance : Max (OrderedMap κ ν) := ⟨join⟩

@[simp] theorem get_sup (m m' : OrderedMap κ ν) (k : κ) :
    (m ⊔ m').get k = Option.merge (· ⊔ ·) (m.get k) (m'.get k) := get_join m m' k

private theorem join_comm (m m' : OrderedMap κ ν) : m ⊔ m' = m' ⊔ m := by
  refine ext_get fun k => ?_
  simp only [get_sup]
  cases m.get k <;> cases m'.get k <;> simp [sup_comm]

private theorem join_assoc (m m' m'' : OrderedMap κ ν) : m ⊔ m' ⊔ m'' = m ⊔ (m' ⊔ m'') := by
  refine ext_get fun k => ?_
  simp only [get_sup]
  cases m.get k <;> cases m'.get k <;> cases m''.get k <;> simp [sup_assoc]

private theorem join_self (m : OrderedMap κ ν) : m ⊔ m = m := by
  refine ext_get fun k => ?_
  simp only [get_sup]
  cases m.get k <;> simp

instance : SemilatticeSup (OrderedMap κ ν) := SemilatticeSup.mk' join_comm join_assoc join_self

/-- One map lies below another when every entry does. -/
theorem le_iff_get {m m' : OrderedMap κ ν} :
    m ≤ m' ↔ ∀ k v, m.get k = some v → ∃ w, m'.get k = some w ∧ v ≤ w := by
  constructor
  · intro below k v found
    have joined : (m ⊔ m').get k = m'.get k := by rw [sup_eq_right.mpr below]
    rw [get_sup, found] at joined
    cases found' : m'.get k with
    | none => simp [found'] at joined
    | some w =>
        refine ⟨w, rfl, ?_⟩
        simpa [found'] using joined
  · intro entries
    refine sup_eq_right.mp (ext_get fun k => ?_)
    rw [get_sup]
    cases found : m.get k with
    | none => simp
    | some v =>
        obtain ⟨w, found', below⟩ := entries k v found
        simp [found', below]

theorem empty_le (m : OrderedMap κ ν) : ∅ ≤ m := le_iff_get.mpr fun k v found => by simp at found

instance : OrderBot (OrderedMap κ ν) where
  bot := ∅
  bot_le := empty_le

theorem bot_eq_empty : (⊥ : OrderedMap κ ν) = ∅ := rfl

theorem erase_le (m : OrderedMap κ ν) (k : κ) : m.erase k ≤ m := by
  refine le_iff_get.mpr fun k' v found => ?_
  rw [get_erase] at found
  split_ifs at found with same
  exact ⟨v, found, le_rfl⟩

/-- Nothing joined under a key that was erased reaches that key. -/
@[simp] theorem get_sup_erase_self (m m' : OrderedMap κ ν) (k : κ) :
    (m ⊔ m'.erase k).get k = m.get k := by simp

/-- An entry that is already covered may be left out of a join. -/
theorem sup_erase_of_covered {m m' : OrderedMap κ ν} {k : κ}
    (covered : ∀ v, m'.get k = some v → ∃ w, m.get k = some w ∧ v ≤ w) :
    m ⊔ m'.erase k = m ⊔ m' := by
  refine ext_get fun k' => ?_
  by_cases same : k' = k
  · subst same
    rw [get_sup_erase_self, get_sup]
    cases found : m'.get k' with
    | none => simp
    | some v =>
        obtain ⟨w, held, below⟩ := covered v found
        simp [held, below]
  · simp [get_erase, same]

private theorem sum_le_total (l : List (κ × Nat)) (nodup : (l.map Prod.fst).Nodup)
    (m : OrderedMap κ Nat) (below : ∀ e ∈ l, ∃ w, m.get e.1 = some w ∧ e.2 ≤ w) :
    (l.map Prod.snd).sum ≤ m.total := by
  induction l generalizing m with
  | nil => simp
  | cons e rest ih =>
      obtain ⟨fresh, nodupRest⟩ := List.nodup_cons.mp nodup
      obtain ⟨w, found, le⟩ := below e (by simp)
      have others := ih nodupRest (m.erase e.1) fun e' member => by
        have hne : e'.1 ≠ e.1 := fun same => fresh (List.mem_map.mpr ⟨e', member, same⟩)
        simpa [get_erase, hne] using below e' (List.mem_cons_of_mem _ member)
      have split := total_erase m e.1
      rw [found, Option.getD_some] at split
      simp only [List.map_cons, List.sum_cons]
      omega

theorem total_mono {m m' : OrderedMap κ Nat} (below : m ≤ m') : m.total ≤ m'.total :=
  sum_le_total m.entries m.keys_nodup m' fun _ member =>
    le_iff_get.mp below _ _ (mem_entries.mp member)

/-- Overwriting an entry by a greater one moves the map up. -/
theorem le_insert (m : OrderedMap κ ν) (k : κ) (v : ν) (raised : ∀ w, m.get k = some w → w ≤ v) :
    m ≤ m.insert k v := by
  refine le_iff_get.mpr fun k' w found => ?_
  by_cases same : k' = k
  · subst same
    exact ⟨v, by simp, raised w found⟩
  · exact ⟨w, by simpa [get_insert, same] using found, le_rfl⟩

theorem insert_mono {m m' : OrderedMap κ ν} (below : m ≤ m') (k : κ) (v : ν) :
    m.insert k v ≤ m'.insert k v := by
  refine le_iff_get.mpr fun k' w found => ?_
  rw [get_insert] at found ⊢
  split_ifs at found ⊢ with same
  · exact ⟨w, found, le_rfl⟩
  · exact le_iff_get.mp below k' w found

end OrderedMap
