import Mathlib.Data.List.Basic
import Mathlib.Data.List.Nodup
import Mathlib.Data.List.Infix

/-!
The first of each key. A pass over a list lets through what has no key, and of the entries
with one key the first.
-/
namespace FirstOfEach

variable {α κ : Type*} [DecidableEq κ] (key : α → Option κ)

/-- One pass, with the keys met so far. -/
def pass (seen : List κ) : List α → List α
  | [] => []
  | a :: rest => match key a with
    | none => a :: pass seen rest
    | some k => if k ∈ seen then pass seen rest else a :: pass (k :: seen) rest

def keep (l : List α) : List α := pass key [] l

variable {key} {seen seen' : List κ} {l m : List α} {a : α} {k : κ}

theorem pass_congr (same : ∀ k, k ∈ seen ↔ k ∈ seen') : pass key seen l = pass key seen' l := by
  induction l generalizing seen seen' with
  | nil => rfl
  | cons a rest ih =>
      simp only [pass]
      cases key a with
      | none => rw [ih same]
      | some k =>
          dsimp only
          rw [if_congr (same k) (ih same) rfl]
          split
          · rfl
          · exact congrArg _ (@ih (k :: seen) (k :: seen') fun k' => by simp [same k'])

theorem pass_sublist : (pass key seen l).Sublist l := by
  induction l generalizing seen with
  | nil => exact .refl _
  | cons a rest ih =>
      simp only [pass]
      split
      · exact ih.cons_cons a
      · split
        · exact ih.cons a
        · exact ih.cons_cons a

theorem keep_sublist : (keep key l).Sublist l := pass_sublist

/-- What has been let through and what has been met before share no key. -/
theorem pass_keys : ((pass key seen l).filterMap key).Nodup ∧ ∀ k ∈ (pass key seen l).filterMap key, k ∉ seen := by
  induction l generalizing seen with
  | nil => exact ⟨List.nodup_nil, fun k member => by cases member⟩
  | cons a rest ih =>
      simp only [pass]
      split
      · rename_i none_
        simpa [none_] using @ih seen
      · rename_i k some_
        split
        · exact ih
        · rename_i fresh
          obtain ⟨apart, away⟩ := @ih (k :: seen)
          rw [List.filterMap_cons_some some_]
          refine ⟨List.nodup_cons.mpr ⟨fun member => away k member List.mem_cons_self, apart⟩, fun k' member => ?_⟩
          rcases List.mem_cons.mp member with rfl | later
          · exact fresh
          · exact fun known => away k' later (List.mem_cons_of_mem _ known)

theorem keep_nodup : ((keep key l).filterMap key).Nodup := pass_keys.1

/-- Of the entries with a key the first is let through. -/
theorem mem_pass (keyed : key a = some k) :
    a ∈ pass key seen l ↔ k ∉ seen ∧ l.find? (fun b => key b = some k) = some a := by
  induction l generalizing seen with
  | nil => simp [pass]
  | cons b rest ih =>
      simp only [pass]
      cases keyed' : key b with
      | none =>
          have other : a ≠ b := by
            rintro rfl
            rw [keyed] at keyed'
            cases keyed'
          simp [other, ih, keyed']
      | some k' =>
          by_cases same : k' = k
          · subst same
            by_cases known : k' ∈ seen
            · simp [known, ih]
            · simp [known, ih, keyed', eq_comm]
          · have other : a ≠ b := by
              rintro rfl
              rw [keyed] at keyed'
              exact same (Option.some.inj keyed').symm
            have other' : ¬ k = k' := fun h => same h.symm
            by_cases known : k' ∈ seen <;> simp [known, ih, keyed', same, other, other']

/-- What has no key is let through. -/
theorem mem_pass_none (unkeyed : key a = none) : a ∈ pass key seen l ↔ a ∈ l := by
  refine ⟨pass_sublist.mem, fun member => ?_⟩
  induction l generalizing seen with
  | nil => cases member
  | cons b rest ih =>
      simp only [pass]
      rcases List.mem_cons.mp member with rfl | later
      · rw [unkeyed]
        exact List.mem_cons_self
      · split
        · exact List.mem_cons_of_mem _ (ih later)
        · split
          · exact ih later
          · exact List.mem_cons_of_mem _ (ih later)

theorem mem_keep (keyed : key a = some k) : a ∈ keep key l ↔ l.find? (fun b => key b = some k) = some a := by
  simp [keep, mem_pass keyed]

/-- Every key of a list is still there. -/
theorem exists_mem_keep (member : a ∈ l) (keyed : key a = some k) :
    ∃ b ∈ keep key l, key b = some k ∧ l.find? (fun c => key c = some k) = some b := by
  have found : (l.find? fun c => key c = some k).isSome = true :=
    List.find?_isSome.mpr ⟨a, member, by simpa using keyed⟩
  obtain ⟨b, first⟩ := Option.isSome_iff_exists.mp found
  have keyed' : key b = some k := by simpa using List.find?_some first
  exact ⟨b, (mem_keep keyed').mpr first, keyed', first⟩

theorem eq_of_mem_keep {b : α} (member : a ∈ keep key l) (member' : b ∈ keep key l) (keyed : key a = some k)
    (keyed' : key b = some k) : a = b :=
  Option.some.inj (((mem_keep keyed).mp member).symm.trans ((mem_keep keyed').mp member'))

theorem pass_append : pass key seen (l ++ m) = pass key seen l ++ pass key (l.filterMap key ++ seen) m := by
  induction l generalizing seen with
  | nil => rfl
  | cons a rest ih =>
      simp only [List.cons_append, pass]
      cases keyed : key a with
      | none => simp [ih, keyed]
      | some k =>
          rw [List.filterMap_cons_some keyed]
          by_cases known : k ∈ seen
          · simp only [known, if_true, ih]
            exact congrArg _ (pass_congr fun k' => by simp; grind)
          · simp only [known, if_false, ih, List.cons_append]
            exact congrArg _ (congrArg _ (pass_congr fun k' => by simp; grind))

/-- A second pass finds nothing to stop. -/
theorem pass_pass (fewer : ∀ k ∈ seen, k ∈ seen') : pass key seen' (pass key seen l) = pass key seen' l := by
  induction l generalizing seen seen' with
  | nil => rfl
  | cons a rest ih =>
      cases keyed : key a with
      | none => simp [pass, keyed, ih fewer]
      | some k =>
          by_cases known : k ∈ seen
          · simp [pass, keyed, known, fewer k known, ih fewer]
          · by_cases known' : k ∈ seen'
            · simp only [pass, keyed, known, known', if_true, if_false]
              exact ih fun k' member => by
                rcases List.mem_cons.mp member with rfl | member
                · exact known'
                · exact fewer k' member
            · simp only [pass, keyed, known, known', if_false]
              rw [ih fun k' member => by
                rcases List.mem_cons.mp member with rfl | member
                · exact List.mem_cons_self
                · exact List.mem_cons_of_mem _ (fewer k' member)]

/-- Letting the parts through one by one and then the whole is letting the whole through. -/
theorem keep_flatMap_keep (ls : List (List α)) : keep key (ls.flatMap (keep key)) = keep key ls.flatten := by
  have general : ∀ seen : List κ, pass key seen (ls.flatMap (keep key)) = pass key seen ls.flatten := by
    induction ls with
    | nil => exact fun _ => rfl
    | cons l rest ih =>
        intro seen
        rw [List.flatMap_cons, List.flatten_cons, pass_append, pass_append, ih, keep,
          pass_pass (fun k member => by cases member)]
        refine congrArg _ (pass_congr fun k => ?_)
        have keys : k ∈ (pass key [] l).filterMap key ↔ k ∈ l.filterMap key := by
          constructor
          · intro member
            obtain ⟨a, there, keyed⟩ := List.mem_filterMap.mp member
            exact List.mem_filterMap.mpr ⟨a, pass_sublist.mem there, keyed⟩
          · intro member
            obtain ⟨a, there, keyed⟩ := List.mem_filterMap.mp member
            obtain ⟨b, kept, keyed', -⟩ := exists_mem_keep there keyed
            exact List.mem_filterMap.mpr ⟨b, kept, keyed'⟩
        simp [keys]
  exact general []

/-- Where no key comes twice nothing is stopped. -/
theorem pass_self (apart : (l.filterMap key).Nodup) (fresh : ∀ k ∈ l.filterMap key, k ∉ seen) : pass key seen l = l := by
  induction l generalizing seen with
  | nil => rfl
  | cons a rest ih =>
      cases keyed : key a with
      | none =>
          rw [List.filterMap_cons_none keyed] at apart fresh
          simp [pass, keyed, ih apart fresh]
      | some k =>
          rw [List.filterMap_cons_some keyed] at apart fresh
          obtain ⟨first, apart⟩ := List.nodup_cons.mp apart
          have new : k ∉ seen := fresh k List.mem_cons_self
          simp only [pass, keyed, new, if_false]
          refine congrArg _ (ih apart fun k' member known => ?_)
          rcases List.mem_cons.mp known with rfl | before
          · exact first member
          · exact fresh k' (List.mem_cons_of_mem _ member) before

theorem keep_self : keep key l = l ↔ (l.filterMap key).Nodup :=
  ⟨fun same => same ▸ keep_nodup, fun apart => pass_self apart (by simp)⟩

theorem pass_map {β : Type*} (f : β → α) (bs : List β) : pass key seen (bs.map f) = (pass (key ∘ f) seen bs).map f := by
  induction bs generalizing seen with
  | nil => rfl
  | cons b rest ih =>
      simp only [List.map_cons, pass, Function.comp_apply]
      cases key (f b) with
      | none => simp [ih]
      | some k =>
          by_cases known : k ∈ seen <;> simp [known, ih]

theorem keep_map {β : Type*} (f : β → α) (bs : List β) : keep key (bs.map f) = (keep (key ∘ f) bs).map f := pass_map f bs

/-- Entries of one key are all of a kind, so the kinds can be let through apart. -/
theorem pass_filter {q : α → Bool} (kinds : ∀ a ∈ l, ∀ b ∈ l, ∀ k, key a = some k → key b = some k → q a = q b)
    (agree : ∀ a ∈ l, q a = true → ∀ k, key a = some k → (k ∈ seen ↔ k ∈ seen')) :
    (pass key seen l).filter q = pass key seen' (l.filter q) := by
  induction l generalizing seen seen' with
  | nil => rfl
  | cons a rest ih =>
      have kinds' : ∀ b ∈ rest, ∀ c ∈ rest, ∀ k, key b = some k → key c = some k → q b = q c :=
        fun b member c member' => kinds b (List.mem_cons_of_mem _ member) c (List.mem_cons_of_mem _ member')
      have agree' : ∀ b ∈ rest, q b = true → ∀ k, key b = some k → (k ∈ seen ↔ k ∈ seen') :=
        fun b member => agree b (List.mem_cons_of_mem _ member)
      cases keyed : key a with
      | none =>
          have next := ih kinds' agree'
          cases of_kind : q a <;> simp [pass, keyed, of_kind, next]
      | some k =>
          cases of_kind : q a with
          | false =>
              have other : ∀ b ∈ rest, q b = true → ∀ k', key b = some k' → (k' ∈ k :: seen ↔ k' ∈ seen') := by
                intro b member kind k' keyed'
                have differs : k' ≠ k := by
                  rintro rfl
                  rw [kinds a List.mem_cons_self b (List.mem_cons_of_mem _ member) k' keyed keyed', kind] at of_kind
                  cases of_kind
                rw [List.mem_cons, or_iff_right differs]
                exact agree' b member kind k' keyed'
              by_cases known : k ∈ seen
              · simp [pass, keyed, known, of_kind, ih kinds' agree']
              · simp [pass, keyed, known, of_kind, ih kinds' other]
          | true =>
              have both : ∀ b ∈ rest, q b = true → ∀ k', key b = some k' → (k' ∈ k :: seen ↔ k' ∈ k :: seen') := by
                intro b member kind k' keyed'
                rw [List.mem_cons, List.mem_cons, agree' b member kind k' keyed']
              have same := agree a List.mem_cons_self of_kind k keyed
              by_cases known : k ∈ seen
              · simp [pass, keyed, known, same.mp known, of_kind, ih kinds' agree']
              · have known' : k ∉ seen' := fun there => known (same.mpr there)
                simp [pass, keyed, known, known', of_kind, ih kinds' both]

theorem keep_filter {q : α → Bool} (kinds : ∀ a ∈ l, ∀ b ∈ l, ∀ k, key a = some k → key b = some k → q a = q b) :
    (keep key l).filter q = keep key (l.filter q) :=
  pass_filter kinds fun _ _ _ _ _ => Iff.rfl

end FirstOfEach
