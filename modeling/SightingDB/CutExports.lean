import SightingDB.GatheredExport

/-!
An export of several namespaces, cut into pieces that are exported apart and folded together. The
author stands first in every piece, identities and markings last; of each id the first object stays,
and which that is does not depend on where the cuts are.
-/
namespace SightingDB

namespace Stix

variable {crates : Crates} {settings : Settings} {untyped : Untyped} {pieces : List (List Part)}

/-- The pieces of a list of namespaces, to be exported one by one. -/
def apart (settings : Settings) (untyped : Untyped) (pieces : List (List Part)) : List Group :=
  pieces.map fun parts => ⟨parts, settings, untyped⟩

theorem shown_apart : allShown crates (apart settings untyped pieces) =
    Group.shown crates ⟨pieces.flatten, settings, untyped⟩ := by
  induction pieces with
  | nil => rfl
  | cons first rest ih =>
      have later : allShown crates (apart settings untyped (first :: rest)) =
          Group.shown crates ⟨first, settings, untyped⟩ ++ allShown crates (apart settings untyped rest) := rfl
      rw [later, ih, List.flatten_cons, Group.shown, Group.shown, Group.shown, List.flatMap_append]
      rfl

theorem skipped_apart : (apart settings untyped pieces).flatMap (Group.skipped crates) =
    Group.skipped crates ⟨pieces.flatten, settings, untyped⟩ := by
  induction pieces with
  | nil => rfl
  | cons first rest ih =>
      have later : (apart settings untyped (first :: rest)).flatMap (Group.skipped crates) =
          Group.skipped crates ⟨first, settings, untyped⟩ ++ (apart settings untyped rest).flatMap (Group.skipped crates) := rfl
      rw [later, ih, List.flatten_cons, Group.skipped, Group.skipped, Group.skipped, List.flatMap_append]
      rfl

/-- Where the list is cut makes no difference to which object of each id is the first. -/
theorem objects_apart (some_ : pieces ≠ []) (o : Json) :
    o ∈ allObjects crates (apart settings untyped pieces) ↔ o ∈ allObjects crates [⟨pieces.flatten, settings, untyped⟩] := by
  have shown : allShown crates (apart settings untyped pieces) = allShown crates [⟨pieces.flatten, settings, untyped⟩] := by
    rw [shown_apart, allShown, List.flatMap_singleton]
  have alike : ∀ g ∈ apart settings untyped pieces, g.settings = settings := by
    intro g member
    obtain ⟨parts, -, rfl⟩ := List.mem_map.mp member
    rfl
  have alike' : ∀ g ∈ [(⟨pieces.flatten, settings, untyped⟩ : Group)], g.settings = settings := by
    intro g member
    rw [List.mem_singleton.mp member]
  have firsts : SameFirsts crates settings (allShown crates (apart settings untyped pieces))
      (allShown crates [⟨pieces.flatten, settings, untyped⟩]) := by
    rw [shown]
    exact .refl _
  refine (same_objects_iff alike alike' ?_ (List.cons_ne_nil _ _) fun m => by rw [shown]).mpr firsts o
  simpa [apart] using some_

/-- The figures of the pieces add up to those of the whole. -/
theorem figures_apart (names : List String) :
    let whole := Group.bundle crates ⟨pieces.flatten, settings, untyped⟩
    let merged := mergeExports crates names ((apart settings untyped pieces).map (Group.bundle crates))
    merged.exported = whole.exported ∧ merged.skipped = whole.skipped ∧ merged.untyped = whole.untyped ∧
      merged.namespaces = whole.namespaces := by
  simp only [mergeExports, Group.bundle_eq, List.map_map, List.flatMap_map, Function.comp_def]
  refine ⟨?_, skipped_apart, ?_, ?_⟩
  · rw [← shown_apart, allShown, List.length_flatMap]
  · rw [← shown_apart, allShown, List.countP_flatMap]
    rfl
  · rw [List.length_flatten, apart, List.map_map]
    rfl

/-- A list of namespaces cut anywhere, into a first piece and one after each cut, and its pieces exported
and folded together, give the bundle of the whole list: its id, its objects and its figures. -/
theorem merged_as_one (crates : Crates) (settings : Settings) (untyped : Untyped) (first : List Part)
    (rest : List (List Part)) :
    let whole := bundleOf crates (first ++ rest.flatten) settings untyped
    let merged := mergeExports crates ((first ++ rest.flatten).map (·.namespace_))
      ((first :: rest).map fun parts => bundleOf crates parts settings untyped)
    merged.bundle.getStr "id" = whole.bundle.getStr "id" ∧
      (∀ o, o ∈ objectsOf merged.bundle ↔ o ∈ objectsOf whole.bundle) ∧
      merged.exported = whole.exported ∧ merged.skipped = whole.skipped ∧ merged.untyped = whole.untyped ∧
      merged.namespaces = whole.namespaces := by
  intro whole merged
  have cut : merged = mergeExports crates ((first ++ rest.flatten).map (·.namespace_))
      ((apart settings untyped (first :: rest)).map (Group.bundle crates)) := by
    rw [apart, List.map_map]
    rfl
  refine ⟨rfl, fun o => ?_, ?_⟩
  · have same := @objects_apart crates settings untyped (first :: rest) (List.cons_ne_nil _ _) o
    rw [cut, objectsOf_merged]
    rw [allObjects, allObjects, List.flatMap_singleton, ← objectsOf_bundle] at same
    exact same
  · rw [cut]
    exact figures_apart _

end Stix

end SightingDB
