import Mathlib.Data.List.Basic
import Mathlib.Data.List.Nodup

/-!
Lists collected without repeats: an entry is taken if no entry with its key is there yet.
-/
namespace Distinct

variable {α β : Type*} [DecidableEq β] (key : α → β)

/-- Take an entry unless its key is there. -/
def add (acc : List α) (a : α) : List α := if acc.any (key · = key a) then acc else acc ++ [a]

def collect (l : List α) : List α := l.foldl (add key) []

variable {key}

theorem mem_of_mem_add {acc : List α} {a b : α} (member : b ∈ add key acc a) : b ∈ acc ∨ b = a := by
  unfold add at member
  split at member
  · exact .inl member
  · exact (List.mem_append.mp member).imp id List.mem_singleton.mp

theorem mem_keys_add {acc : List α} {a : α} {k : β} : k ∈ (add key acc a).map key ↔ k ∈ acc.map key ∨ k = key a := by
  unfold add
  split
  · rename_i known
    obtain ⟨b, there, same⟩ := List.any_eq_true.mp known
    refine ⟨.inl, ?_⟩
    rintro (there' | rfl)
    · exact there'
    · exact List.mem_map.mpr ⟨b, there, of_decide_eq_true same⟩
  · simp

theorem add_nodup {acc : List α} (apart : (acc.map key).Nodup) (a : α) : ((add key acc a).map key).Nodup := by
  unfold add
  split
  · exact apart
  · rename_i new
    rw [List.map_append, List.map_singleton, ← List.concat_eq_append]
    refine List.Nodup.concat (fun there => new ?_) apart
    obtain ⟨b, member, same⟩ := List.mem_map.mp there
    exact List.any_eq_true.mpr ⟨b, member, decide_eq_true same⟩

section Foldl

variable {acc : List α}

theorem mem_of_mem_foldl {l : List α} {b : α} (member : b ∈ l.foldl (add key) acc) : b ∈ acc ∨ b ∈ l := by
  induction l generalizing acc with
  | nil => exact .inl member
  | cons a rest ih =>
      rcases ih member with there | later
      · rcases mem_of_mem_add there with before | rfl
        · exact .inl before
        · exact .inr List.mem_cons_self
      · exact .inr (List.mem_cons_of_mem _ later)

theorem mem_keys_foldl {l : List α} {k : β} :
    k ∈ (l.foldl (add key) acc).map key ↔ k ∈ acc.map key ∨ k ∈ l.map key := by
  induction l generalizing acc with
  | nil => simp
  | cons a rest ih => rw [List.foldl_cons, ih, mem_keys_add, List.map_cons, List.mem_cons, or_assoc]

theorem foldl_nodup (l : List α) (apart : (acc.map key).Nodup) : ((l.foldl (add key) acc).map key).Nodup := by
  induction l generalizing acc with
  | nil => exact apart
  | cons a rest ih => exact ih (add_nodup apart a)

end Foldl

/-- What is collected comes from the list, -/
theorem mem_of_mem_collect {l : List α} {b : α} (member : b ∈ collect key l) : b ∈ l :=
  (mem_of_mem_foldl member).elim (fun none => nomatch none) id

/-- has every key of it, -/
theorem mem_keys_collect {l : List α} {k : β} : k ∈ (collect key l).map key ↔ k ∈ l.map key := by
  rw [collect, mem_keys_foldl]
  simp

/-- and has none twice. -/
theorem collect_nodup (l : List α) : ((collect key l).map key).Nodup := foldl_nodup l List.nodup_nil

/-- Where keys tell entries apart nothing is left out. -/
theorem mem_collect {l whole : List α} (apart : (whole.map key).Nodup) (within : ∀ a ∈ l, a ∈ whole) {a : α}
    (member : a ∈ l) : a ∈ collect key l := by
  have known : key a ∈ (collect key l).map key := mem_keys_collect.mpr (List.mem_map_of_mem member)
  obtain ⟨b, collected, same⟩ := List.mem_map.mp known
  rwa [← List.inj_on_of_nodup_map apart (within b (mem_of_mem_collect collected)) (within a member) same]

end Distinct
