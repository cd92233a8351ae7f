import SightingDB.Paths
import SightingDB.Stix

/-!
What a bundle holds. The values that go out are a list, and the objects are the author, two for
each value, and the identities and markings met on the way; then the first of each id stays.
Two values with one id share the object of the first.
-/
namespace SightingDB

namespace Stix

/-- A value as it goes out. -/
structure Shown where
  author : String
  namespace_ : String
  view : AttributeView
  observable : String
  fallback : Bool
  pattern : String
  deriving DecidableEq

/-- One export: what it is asked for, and under whose name it goes out. -/
structure Group where
  parts : List Part
  settings : Settings
  untyped : Untyped

section

variable (crates : Crates)

namespace Shown

def indicatorId (e : Shown) : String := Stix.indicatorId crates e.view e.observable

def sightingId (e : Shown) : String := Stix.sightingId crates e.namespace_ e.observable e.view

def indicator (e : Shown) : Json :=
  Stix.indicator crates (e.indicatorId crates) e.view e.pattern e.author (markingRefs e.view) e.fallback

def sighting (e : Shown) : Json :=
  Stix.sighting crates e.namespace_ e.observable e.view (e.indicatorId crates) e.author
    (sightedBy crates e.author e.view) (markingRefs e.view)

end Shown

namespace Group

def bundle (g : Group) : Export := bundleOf crates g.parts g.settings g.untyped

def author (g : Group) : String := identityId crates g.settings.identity

/-- A value of a part, if it goes out. -/
def show_ (g : Group) (part : Part) (view : AttributeView) : Option Shown :=
  (observableType view part.defaultType g.untyped).bind fun typing =>
    (patternFor typing.observable view.value).map fun pattern =>
      ⟨g.author crates, part.namespace_, view, typing.observable, typing.fallback, pattern⟩

/-- The values that go out. -/
def shown (g : Group) : List Shown := g.parts.flatMap fun part => part.values.filterMap (g.show_ crates part)

/-- The values that are left out. -/
def skipped (g : Group) : List String :=
  g.parts.flatMap fun part => (part.values.filter fun view => (g.show_ crates part view).isNone).map (·.value)

/-- The bundle once some values have gone out and some been left out. -/
def gathered (g : Group) (shown : List Shown) (skipped : List String) : Bundling where
  objects := identity crates g.settings.identity g.settings.identityClass ::
    shown.flatMap fun e => [e.indicator crates, e.sighting crates]
  identities := shown.foldl (fun known e => noteIdentities crates known e.view) []
  markings := shown.foldl (fun known e => (markingRefs e.view).foldl pushNew known) []
  skipped := skipped
  exported := shown.length
  untyped := shown.countP (·.fallback)

/-- The objects of a bundle before repeats go. -/
def objects (g : Group) : List Json :=
  let done := g.gathered crates (g.shown crates) (g.skipped crates)
  done.objects ++ done.identities.map (·.2) ++
    (tlp.filter fun level => level.2 ∈ done.markings).map fun level => marking level.1 level.2

end Group

end

variable {crates : Crates}

/-! ## One value after the other -/

namespace Group

variable {g : Group}

theorem bundleView_gathered (part : Part) (shown : List Shown) (skipped : List String) (view : AttributeView) :
    bundleView crates (g.author crates) g.untyped part (g.gathered crates shown skipped) view =
      match g.show_ crates part view with
      | none => g.gathered crates shown (skipped ++ [view.value])
      | some e => g.gathered crates (shown ++ [e]) skipped := by
  simp only [bundleView, show_]
  cases observableType view part.defaultType g.untyped with
  | none => rfl
  | some typing =>
      cases found : patternFor typing.observable view.value with
      | none => simp [found, gathered]
      | some pattern =>
          cases fallback : typing.fallback <;>
            simp [found, gathered, Shown.indicator, Shown.sighting, Shown.indicatorId, fallback]

theorem values_gathered (part : Part) (views : List AttributeView) (shown : List Shown) (skipped : List String) :
    views.foldl (bundleView crates (g.author crates) g.untyped part) (g.gathered crates shown skipped) =
      g.gathered crates (shown ++ views.filterMap (g.show_ crates part))
        (skipped ++ (views.filter fun view => (g.show_ crates part view).isNone).map (·.value)) := by
  induction views generalizing shown skipped with
  | nil => simp
  | cons view rest ih =>
      rw [List.foldl_cons, bundleView_gathered]
      cases found : g.show_ crates part view with
      | none => simp [ih, found]
      | some e => simp [ih, found]

theorem parts_gathered (parts : List Part) (shown : List Shown) (skipped : List String) :
    parts.foldl (fun acc part => part.values.foldl (bundleView crates (g.author crates) g.untyped part) acc)
        (g.gathered crates shown skipped) =
      g.gathered crates (shown ++ parts.flatMap fun part => part.values.filterMap (g.show_ crates part))
        (skipped ++ parts.flatMap fun part =>
          (part.values.filter fun view => (g.show_ crates part view).isNone).map (·.value)) := by
  induction parts generalizing shown skipped with
  | nil => simp
  | cons part rest ih =>
      rw [List.foldl_cons, values_gathered, ih]
      simp [List.append_assoc]

/-- What `bundle_of` gives. -/
theorem bundle_eq : g.bundle crates = {
    bundle := bundleJson crates (g.parts.map (·.namespace_)) (FirstOfEach.keep idOf (g.objects crates))
    exported := (g.shown crates).length
    skipped := g.skipped crates
    untyped := (g.shown crates).countP (·.fallback)
    truncated := false
    missing := []
    namespaces := g.parts.length } := by
  have done := @parts_gathered crates g g.parts [] []
  simp only [List.nil_append] at done
  have start : g.gathered crates [] [] =
      ⟨[identity crates g.settings.identity g.settings.identityClass], [], [], [], 0, 0⟩ := rfl
  rw [start] at done
  simp only [bundle, bundleOf]
  rw [← author, done]
  rfl

end Group

@[simp] theorem objectsOf_bundleJson (namespaces : List String) (objects : List Json) :
    objectsOf (bundleJson crates namespaces objects) = objects := by
  simp [objectsOf, bundleJson]

/-- The objects of one bundle, -/
theorem objectsOf_bundle (g : Group) : objectsOf (g.bundle crates).bundle = FirstOfEach.keep idOf (g.objects crates) := by
  rw [Group.bundle_eq, objectsOf_bundleJson]

/-- and of several folded into one. -/
theorem objectsOf_merged (names : List String) (groups : List Group) :
    objectsOf (mergeExports crates names (groups.map (Group.bundle crates))).bundle =
      FirstOfEach.keep idOf (groups.flatMap (Group.objects crates)) := by
  have each : (groups.map (Group.bundle crates)).flatMap (fun part => objectsOf part.bundle) =
      (groups.map (Group.objects crates)).flatMap (FirstOfEach.keep idOf) := by
    simp [List.flatMap_map, objectsOf_bundle]
  rw [mergeExports, objectsOf_bundleJson, each, FirstOfEach.keep_flatMap_keep, ← List.flatMap_def]

/-! ## Objects by their id -/

@[simp] theorem idOf_identity (name class_ : String) : idOf (identity crates name class_) = some (identityId crates name) := by
  simp [idOf, Json.getStr, identity]

@[simp] theorem idOf_marking (level id : String) : idOf (marking level id) = some id := by
  simp [idOf, Json.getStr, marking]

namespace Shown

variable (e : Shown)

@[simp] theorem idOf_indicator : idOf (e.indicator crates) = some (e.indicatorId crates) := by
  simp [idOf, Json.getStr, indicator, Stix.indicator]

@[simp] theorem idOf_sighting : idOf (e.sighting crates) = some (e.sightingId crates) := by
  simp [idOf, Json.getStr, sighting, Stix.sighting, sightingId]

theorem indicatorId_starts : startsWith (e.indicatorId crates) "indicator--" = true := by
  simp only [indicatorId, Stix.indicatorId]
  split
  · split
    · rename_i given
      exact (Bool.and_eq_true _ _ ▸ given).1
    · exact startsWith_append _ _
  · exact startsWith_append _ _

theorem sightingId_starts : startsWith (e.sightingId crates) "sighting--" = true := startsWith_append _ _

@[simp] theorem sighting_type : (e.sighting crates).getStr "type" = some "sighting" := by
  simp [Json.getStr, sighting, Stix.sighting]

@[simp] theorem sighting_namespace : (e.sighting crates).getStr "x_sightingdb_namespace" = some e.namespace_ := by
  simp [Json.getStr, sighting, Stix.sighting]

@[simp] theorem sighting_of_ref : (e.sighting crates).getStr "sighting_of_ref" = some (e.indicatorId crates) := by
  simp [Json.getStr, sighting, Stix.sighting]

@[simp] theorem indicator_type : (e.indicator crates).getStr "type" = some "indicator" := by
  simp [Json.getStr, indicator, Stix.indicator]

@[simp] theorem indicator_pattern : (e.indicator crates).getStr "pattern" = some e.pattern := by
  simp [Json.getStr, indicator, Stix.indicator]

end Shown

theorem starts_alike {s a b : String} (first : startsWith s a = true) (second : startsWith s b = true) :
    startsWith a b = true ∨ startsWith b a = true := by
  simp only [startsWith, List.isPrefixOf_iff_prefix] at *
  exact (List.prefix_or_prefix_of_prefix second first)

/-- Identities that the tags name, under the ids of their names. -/
def Named (crates : Crates) (known : List (String × Json)) : Prop :=
  ∀ p ∈ known, ∃ name, p = (identityId crates name, identity crates name "organization")

theorem Named.note {known : List (String × Json)} (named : Named crates known) (view : AttributeView) :
    Named crates (noteIdentities crates known view) := by
  refine List.foldlRecOn (motive := Named crates) _ _ named fun known named name _ => ?_
  split
  · exact named
  · intro p member
    rcases List.mem_append.mp member with before | new
    · exact named p before
    · exact ⟨name, List.mem_singleton.mp new⟩

theorem named_shown (shown : List Shown) :
    Named crates (shown.foldl (fun known e => noteIdentities crates known e.view) []) :=
  List.foldlRecOn (motive := Named crates) _ _ (by simp [Named]) fun _ named e _ => named.note e.view

theorem marking_starts {level : String × String} (member : level ∈ tlp) :
    startsWith level.2 "marking-definition--" = true := by
  revert level
  decide +kernel

namespace Group

variable {g : Group} {id : String}

/-- An id that is neither an identity's nor a marking's is a value's. -/
theorem find_objects (identity_ : startsWith id "identity--" = false) (marking_ : startsWith id "marking-definition--" = false) :
    (g.objects crates).find? (fun o => idOf o = some id) =
      ((g.shown crates).flatMap fun e => [e.indicator crates, e.sighting crates]).find? fun o => idOf o = some id := by
  have named (name : String) : identityId crates name ≠ id := by
    rintro rfl
    rw [identityId, startsWith_append] at identity_
    cases identity_
  have others : ((g.gathered crates (g.shown crates) (g.skipped crates)).identities.map (·.2)).find?
      (fun o => idOf o = some id) = none := by
    refine List.find?_eq_none.mpr fun o member => ?_
    obtain ⟨p, there, rfl⟩ := List.mem_map.mp member
    obtain ⟨name, rfl⟩ := named_shown (g.shown crates) p there
    simpa using named name
  have marks (levels : List (String × String)) (known : ∀ level ∈ levels, level ∈ tlp) :
      (levels.map fun level => marking level.1 level.2).find? (fun o => idOf o = some id) = none := by
    refine List.find?_eq_none.mpr fun o member => ?_
    obtain ⟨level, there, rfl⟩ := List.mem_map.mp member
    have starts := marking_starts (known level there)
    simp only [idOf_marking, Option.some.injEq, decide_eq_true_eq]
    rintro rfl
    rw [starts] at marking_
    cases marking_
  simp only [objects, List.find?_append, others, marks _ fun level member => (List.mem_filter.mp member).1, Option.or_none]
  simp [gathered, named]

/-- An object of a bundle is an identity, a value's indicator or sighting, or a marking. -/
theorem objects_cases {o : Json} (member : o ∈ g.objects crates) :
    (∃ name class_, o = identity crates name class_) ∨ (∃ e ∈ g.shown crates, o = e.indicator crates) ∨
      (∃ e ∈ g.shown crates, o = e.sighting crates) ∨ ∃ level ∈ tlp, o = marking level.1 level.2 := by
  simp only [objects, gathered, List.cons_append, List.append_assoc, List.mem_cons, List.mem_append] at member
  rcases member with rfl | shown | named | marked
  · exact .inl ⟨_, _, rfl⟩
  · obtain ⟨e, there, pair⟩ := List.mem_flatMap.mp shown
    simp only [List.mem_cons, List.not_mem_nil, or_false] at pair
    rcases pair with rfl | rfl
    · exact .inr (.inl ⟨e, there, rfl⟩)
    · exact .inr (.inr (.inl ⟨e, there, rfl⟩))
  · obtain ⟨p, there, rfl⟩ := List.mem_map.mp named
    obtain ⟨name, rfl⟩ := named_shown (g.shown crates) p there
    exact .inl ⟨name, "organization", rfl⟩
  · obtain ⟨level, there, rfl⟩ := List.mem_map.mp marked
    exact .inr (.inr (.inr ⟨level, (List.mem_filter.mp there).1, rfl⟩))

end Group

theorem find_indicator {id : String} (indicator_ : startsWith id "indicator--" = true) (shown : List Shown) :
    (shown.flatMap fun e => [e.indicator crates, e.sighting crates]).find? (fun o => idOf o = some id) =
      (shown.find? fun e => e.indicatorId crates = id).map (Shown.indicator crates) := by
  induction shown with
  | nil => rfl
  | cons e rest ih =>
      have other : e.sightingId crates ≠ id := by
        rintro rfl
        exact absurd (starts_alike indicator_ e.sightingId_starts) (by decide)
      by_cases here : e.indicatorId crates = id
      · simp [here]
      · simpa [here, other] using ih

theorem find_sighting {id : String} (sighting_ : startsWith id "sighting--" = true) (shown : List Shown) :
    (shown.flatMap fun e => [e.indicator crates, e.sighting crates]).find? (fun o => idOf o = some id) =
      (shown.find? fun e => e.sightingId crates = id).map (Shown.sighting crates) := by
  induction shown with
  | nil => rfl
  | cons e rest ih =>
      have other : e.indicatorId crates ≠ id := by
        rintro rfl
        exact absurd (starts_alike sighting_ e.indicatorId_starts) (by decide)
      by_cases here : e.sightingId crates = id
      · simp [here, other]
      · simpa [here, other] using ih

section Groups

variable (crates) (groups : List Group)

/-- The values that go out in several exports. -/
def allShown : List Shown := groups.flatMap (Group.shown crates)

/-- The objects of several exports, the first of each id. -/
def allObjects : List Json := FirstOfEach.keep idOf (groups.flatMap (Group.objects crates))

variable {crates groups} {id : String} {o : Json}

theorem find_all (identity_ : startsWith id "identity--" = false) (marking_ : startsWith id "marking-definition--" = false) :
    (groups.flatMap (Group.objects crates)).find? (fun o => idOf o = some id) =
      ((allShown crates groups).flatMap fun e => [e.indicator crates, e.sighting crates]).find?
        fun o => idOf o = some id := by
  induction groups with
  | nil => rfl
  | cons g rest ih =>
      simp only [allShown, List.flatMap_cons, List.flatMap_append, List.find?_append] at ih ⊢
      rw [ih, Group.find_objects identity_ marking_]

/-- The indicator of an id is that of the first value with it. -/
theorem mem_indicator (indicator_ : startsWith id "indicator--" = true) (keyed : idOf o = some id) :
    o ∈ allObjects crates groups ↔
      ∃ e, (allShown crates groups).find? (fun e => e.indicatorId crates = id) = some e ∧ e.indicator crates = o := by
  have identity_ : startsWith id "identity--" = false := by
    by_contra other
    exact absurd (starts_alike indicator_ (by simpa using other)) (by decide)
  have marking_ : startsWith id "marking-definition--" = false := by
    by_contra other
    exact absurd (starts_alike indicator_ (by simpa using other)) (by decide)
  rw [allObjects, FirstOfEach.mem_keep keyed, find_all identity_ marking_, find_indicator indicator_,
    Option.map_eq_some_iff]

/-- The sighting of an id is that of the first value with it. -/
theorem mem_sighting (sighting_ : startsWith id "sighting--" = true) (keyed : idOf o = some id) :
    o ∈ allObjects crates groups ↔
      ∃ e, (allShown crates groups).find? (fun e => e.sightingId crates = id) = some e ∧ e.sighting crates = o := by
  have identity_ : startsWith id "identity--" = false := by
    by_contra other
    exact absurd (starts_alike sighting_ (by simpa using other)) (by decide)
  have marking_ : startsWith id "marking-definition--" = false := by
    by_contra other
    exact absurd (starts_alike sighting_ (by simpa using other)) (by decide)
  rw [allObjects, FirstOfEach.mem_keep keyed, find_all identity_ marking_, find_sighting sighting_,
    Option.map_eq_some_iff]

end Groups

/-- One bundle is several that are one. -/
theorem objectsOf_bundle_all (g : Group) : objectsOf (g.bundle crates).bundle = allObjects crates [g] := by
  rw [objectsOf_bundle, allObjects, List.flatMap_singleton]

theorem allShown_one (g : Group) : allShown crates [g] = g.shown crates := by
  rw [allShown, List.flatMap_singleton]

/-! ## Each sighting and its indicator -/

section Pointing

variable (crates) (groups : List Group)

/-- The first value with the sighting of another, and the first with the indicator of that. -/
def Stands (e d c : Shown) : Prop :=
  (allShown crates groups).find? (fun d => d.sightingId crates = e.sightingId crates) = some d ∧
    (allShown crates groups).find? (fun c => c.indicatorId crates = d.indicatorId crates) = some c

variable {crates groups} {e : Shown}

theorem exists_stands (member : e ∈ allShown crates groups) : ∃ d c, Stands crates groups e d c := by
  have first : ((allShown crates groups).find? fun d => d.sightingId crates = e.sightingId crates).isSome = true :=
    List.find?_isSome.mpr ⟨e, member, by simp⟩
  obtain ⟨d, found⟩ := Option.isSome_iff_exists.mp first
  have second : ((allShown crates groups).find? fun c => c.indicatorId crates = d.indicatorId crates).isSome = true :=
    List.find?_isSome.mpr ⟨d, List.mem_of_find?_eq_some found, by simp⟩
  obtain ⟨c, found'⟩ := Option.isSome_iff_exists.mp second
  exact ⟨d, c, found, found'⟩

theorem Stands.unique {d c d' c' : Shown} (stands : Stands crates groups e d c) (stands' : Stands crates groups e d' c') :
    d' = d ∧ c' = c := by
  obtain rfl := Option.some.inj (stands'.1.symm.trans stands.1)
  exact ⟨rfl, Option.some.inj (stands'.2.symm.trans stands.2)⟩

/-- The sighting of a value and the indicator it refers to, in what goes out. -/
theorem Stands.objects {d c : Shown} (stands : Stands crates groups e d c) {s i : Json} {id : String}
    (sighting_ : s ∈ allObjects crates groups ∧ idOf s = some (e.sightingId crates))
    (refers : s.getStr "sighting_of_ref" = some id) (indicator_ : i ∈ allObjects crates groups ∧ idOf i = some id) :
    s = d.sighting crates ∧ i = c.indicator crates := by
  obtain ⟨d', found, rfl⟩ := (mem_sighting e.sightingId_starts sighting_.2).mp sighting_.1
  obtain rfl := Option.some.inj (found.symm.trans stands.1)
  rw [Shown.sighting_of_ref] at refers
  obtain rfl := Option.some.inj refers
  obtain ⟨c', found', rfl⟩ := (mem_indicator d'.indicatorId_starts indicator_.2).mp indicator_.1
  obtain rfl := Option.some.inj (found'.symm.trans stands.2)
  exact ⟨rfl, rfl⟩

theorem Stands.there {d c : Shown} (stands : Stands crates groups e d c) :
    (d.sighting crates ∈ allObjects crates groups ∧ idOf (d.sighting crates) = some (e.sightingId crates)) ∧
      c.indicator crates ∈ allObjects crates groups ∧ idOf (c.indicator crates) = some (d.indicatorId crates) := by
  have same : d.sightingId crates = e.sightingId crates := by simpa using List.find?_some stands.1
  have same' : c.indicatorId crates = d.indicatorId crates := by simpa using List.find?_some stands.2
  have keyed : idOf (d.sighting crates) = some (e.sightingId crates) := by rw [Shown.idOf_sighting, same]
  have keyed' : idOf (c.indicator crates) = some (d.indicatorId crates) := by rw [Shown.idOf_indicator, same']
  exact ⟨⟨(mem_sighting e.sightingId_starts keyed).mpr ⟨d, stands.1, rfl⟩, keyed⟩,
    (mem_indicator d.indicatorId_starts keyed').mpr ⟨c, stands.2, rfl⟩, keyed'⟩

variable (crates)

/-- Among some objects there is a value's sighting, and it refers to one indicator only, that of
the value's pattern. -/
def PointsAtOwn (objects : List Json) (e : Shown) : Prop :=
  ∃ s id i, (s ∈ objects ∧ idOf s = some (e.sightingId crates)) ∧ s.getStr "type" = some "sighting" ∧
    s.getStr "x_sightingdb_namespace" = some e.namespace_ ∧ s.getStr "sighting_of_ref" = some id ∧
    (i ∈ objects ∧ idOf i = some id) ∧ i.getStr "type" = some "indicator" ∧
    i.getStr "pattern" = patternFor e.observable e.view.value ∧ ∀ j, j ∈ objects → idOf j = some id → j = i

variable {crates}

theorem pattern_shown (member : e ∈ allShown crates groups) : patternFor e.observable e.view.value = some e.pattern := by
  obtain ⟨g, -, shown⟩ := List.mem_flatMap.mp member
  obtain ⟨part, -, shown⟩ := List.mem_flatMap.mp shown
  obtain ⟨view, -, shown⟩ := List.mem_filterMap.mp shown
  obtain ⟨typing, -, shown⟩ := Option.bind_eq_some_iff.mp shown
  obtain ⟨pattern, found, rfl⟩ := Option.map_eq_some_iff.mp shown
  exact found

theorem Stands.points_iff {d c : Shown} (stands : Stands crates groups e d c) :
    PointsAtOwn crates (allObjects crates groups) e ↔
      d.namespace_ = e.namespace_ ∧
        patternFor c.observable c.view.value = patternFor e.observable e.view.value := by
  rw [pattern_shown (List.mem_of_find?_eq_some stands.2)]
  constructor
  · rintro ⟨s, id, i, sighting_, -, here, refers, indicator_, -, matches_, -⟩
    obtain ⟨rfl, rfl⟩ := stands.objects sighting_ refers indicator_
    rw [Shown.sighting_namespace] at here
    rw [Shown.indicator_pattern] at matches_
    exact ⟨Option.some.inj here, matches_⟩
  · rintro ⟨here, matches_⟩
    obtain ⟨sighting_, indicator_⟩ := stands.there
    refine ⟨d.sighting crates, d.indicatorId crates, c.indicator crates, sighting_, by simp, by simp [here], by simp,
      indicator_, by simp, by simpa using matches_, fun j member keyed => ?_⟩
    exact FirstOfEach.eq_of_mem_keep member indicator_.1 keyed indicator_.2

/-- Ids in a bundle are apart. A value's sighting refers to an indicator of the value exactly when
the first value with its sighting's id is of its namespace, and the first with the indicator's id
of that one has its pattern. -/
theorem points_at_own_iff (crates : Crates) (g : Group) :
    (g.bundle crates).exported = (g.shown crates).length ∧
    ((objectsOf (g.bundle crates).bundle).filterMap idOf).Nodup ∧
    ((∀ e ∈ g.shown crates, PointsAtOwn crates (objectsOf (g.bundle crates).bundle) e) ↔
      ∀ e ∈ g.shown crates, ∀ d c, Stands crates [g] e d c →
        d.namespace_ = e.namespace_ ∧
          patternFor c.observable c.view.value = patternFor e.observable e.view.value) := by
  refine ⟨by rw [Group.bundle_eq], by rw [objectsOf_bundle]; exact FirstOfEach.keep_nodup, ?_⟩
  rw [objectsOf_bundle_all]
  refine forall_congr' fun e => forall_congr' fun member => ?_
  rw [← allShown_one] at member
  obtain ⟨d, c, stands⟩ := exists_stands member
  rw [stands.points_iff]
  constructor
  · intro own d' c' stands'
    obtain ⟨rfl, rfl⟩ := stands.unique stands'
    exact own
  · exact fun own => own d c stands

theorem colon_parts {a b rest rest' : String} (solid : ':' ∉ a.toList) (solid' : ':' ∉ b.toList)
    (same : a ++ (":" ++ rest) = b ++ (":" ++ rest')) : a = b ∧ rest = rest' := by
  rw [← String.append_assoc, ← String.append_assoc] at same
  have first : splitOnce ':' (a ++ ":" ++ rest) = some (a, rest) := splitOnce_append solid rest
  have second : splitOnce ':' (b ++ ":" ++ rest') = some (b, rest') := splitOnce_append solid' rest'
  rw [same, second] at first
  exact ⟨(Prod.mk.inj (Option.some.inj first)).1.symm, (Prod.mk.inj (Option.some.inj first)).2.symm⟩

/-- A value whose ids are derived from texts in which a colon only separates. -/
structure Shown.Plain (e : Shown) : Prop where
  namespace_ : ':' ∉ e.namespace_.toList
  observable : ':' ∉ e.observable.toList
  derived : tagValue e.view.tags "stix-id" = none

theorem sightingId_plain (apart : Function.Injective crates.uuidFor) {d : Shown} (plain : e.Plain) (plain' : d.Plain)
    (same : d.sightingId crates = e.sightingId crates) :
    d.namespace_ = e.namespace_ ∧ d.observable = e.observable ∧ d.view.value = e.view.value := by
  have texts := apart ((String.append_right_inj _).mp same)
  simp only [String.append_assoc, String.append_right_inj] at texts
  obtain ⟨here, rest⟩ := colon_parts plain'.namespace_ plain.namespace_ texts
  exact ⟨here, colon_parts plain'.observable plain.observable rest⟩

theorem indicatorId_plain (apart : Function.Injective crates.uuidFor) {d : Shown} (plain : e.Plain) (plain' : d.Plain)
    (same : d.indicatorId crates = e.indicatorId crates) :
    d.observable = e.observable ∧ d.view.value = e.view.value := by
  simp only [Shown.indicatorId, indicatorId, plain.derived, plain'.derived] at same
  have texts := apart ((String.append_right_inj _).mp same)
  simp only [String.append_assoc, String.append_right_inj] at texts
  exact colon_parts plain'.observable plain.observable texts

/-- Where ids are derived and no name or type holds a colon, every sighting has its indicator. -/
theorem points_at_own_of_plain (apart : Function.Injective crates.uuidFor) (plain : ∀ e ∈ allShown crates groups, e.Plain)
    (member : e ∈ allShown crates groups) : PointsAtOwn crates (allObjects crates groups) e := by
  obtain ⟨d, c, stands⟩ := exists_stands member
  have there := plain d (List.mem_of_find?_eq_some stands.1)
  obtain ⟨here, observable, value⟩ :=
    sightingId_plain apart (plain e member) there (by simpa using List.find?_some stands.1)
  obtain ⟨observable', value'⟩ := indicatorId_plain apart there (plain c (List.mem_of_find?_eq_some stands.2))
    (by simpa using List.find?_some stands.2)
  exact stands.points_iff.mpr ⟨here, by rw [observable', value', observable, value]⟩

/-- The ids of some keys, and one time. -/
def sampleIds : List (String × String) :=
  [("identity:SightingDB", "63f507d5-3a21-5668-ba66-6d2d598a2ef6"),
    ("sighting:stix/ips:ipv4-addr:1.2.3.4", "b5727e3b-1c29-5478-bf50-68425e9071ae"),
    ("sighting:stix/ips:ipv4-addr:5.6.7.8", "5b0fc184-b7ce-52ae-8ed7-c246635e002e"),
    ("indicator:ipv4-addr:1.2.3.4", "407cd7a8-da80-5fa3-b02a-9ae7ccc848e0"),
    ("sighting:feeds/a:ipv4-addr:1.2.3.4", "48d569dc-f657-5919-b822-ccebcc554776"),
    ("sighting:feeds/b:ipv4-addr:1.2.3.4", "4197cc49-5157-588a-a279-1bb33519a3e9"),
    ("indicator:windows-registry-key:HKLM\\Software", "d8f1fca8-ebea-5579-a97e-edfabb11314e"),
    ("sighting:feeds/a:windows-registry-key:HKLM\\Software", "ac8ab2c5-fbe4-51e9-8785-f44c8ba2bdff")]

def Crates.sample : Crates where
  uuidFor key := ((sampleIds.find? (·.1 = key)).map (·.2)).getD key
  isUuid text := text = "3f2504e0-4f89-41d3-9a0c-0305e82c3301"
  rfc3339 _ := "2020-09-13T12:26:40.000Z"
  parseRfc3339 text := if text = "2020-09-13T12:26:40.000Z" then some 1600000000 else none

def seen (value tags : String) : AttributeView := ⟨value, 1600000000, 1600000000, 1, tags, 0, 1, none⟩

def givenTags : String := "stix-type:ipv4-addr,stix-id:indicator--3f2504e0-4f89-41d3-9a0c-0305e82c3301"

/-- Two values that came in with one indicator. -/
def oneIndicator : Group where
  parts := [⟨"stix/ips", [seen "1.2.3.4" givenTags, seen "5.6.7.8" givenTags], none⟩]
  settings := .default
  untyped := .skip

def shownAddress (value : String) : Shown where
  author := identityId Crates.sample "SightingDB"
  namespace_ := "stix/ips"
  view := seen value givenTags
  observable := "ipv4-addr"
  fallback := false
  pattern := "[ipv4-addr:value = '" ++ value ++ "']"

/-- The sighting of the second refers to the indicator of the first. -/
theorem shared_indicator : ¬ ∀ e ∈ oneIndicator.shown Crates.sample,
    PointsAtOwn Crates.sample (objectsOf (oneIndicator.bundle Crates.sample).bundle) e := by
  intro own
  have shown : oneIndicator.shown Crates.sample = [shownAddress "1.2.3.4", shownAddress "5.6.7.8"] := by decide +kernel
  have stands : Stands Crates.sample [oneIndicator] (shownAddress "5.6.7.8") (shownAddress "5.6.7.8")
      (shownAddress "1.2.3.4") := by
    simp only [Stands, allShown_one, shown]
    decide +kernel
  have points := own (shownAddress "5.6.7.8") (by simp [shown])
  rw [objectsOf_bundle_all, stands.points_iff] at points
  exact absurd points.2 (by decide +kernel)

end Pointing

/-! ## Markings -/

section Marking

/-- The markings an object refers to. -/
def refsOf (object : Json) : List String :=
  (((object.get "object_marking_refs").bind Json.asArray).getD []).filterMap Json.asStr

theorem filterMap_asStr (texts : List String) : (texts.map Json.str).filterMap Json.asStr = texts := by
  induction texts with
  | nil => rfl
  | cons text rest ih => simp [ih]

theorem refs_someTexts (texts : List String) :
    (((someTexts texts).bind Json.asArray).getD []).filterMap Json.asStr = texts := by
  rw [someTexts]
  split_ifs with empty
  · simp [empty]
  · simpa using filterMap_asStr texts

@[simp] theorem Shown.refsOf_sighting (e : Shown) : refsOf (e.sighting crates) = markingRefs e.view := by
  simp [refsOf, Shown.sighting, Stix.sighting, refs_someTexts]

@[simp] theorem Shown.refsOf_indicator (e : Shown) : refsOf (e.indicator crates) = markingRefs e.view := by
  simp [refsOf, Shown.indicator, Stix.indicator, refs_someTexts]

theorem mem_pushNew {known : List String} {text other : String} : other ∈ pushNew known text ↔ other ∈ known ∨ other = text := by
  rw [pushNew]
  split_ifs with there
  · constructor
    · exact .inl
    · rintro (known | rfl)
      · exact known
      · exact there
  · simp

theorem mem_foldl_pushNew {known texts : List String} {text : String} :
    text ∈ texts.foldl pushNew known ↔ text ∈ known ∨ text ∈ texts := by
  induction texts generalizing known with
  | nil => simp
  | cons first rest ih => rw [List.foldl_cons, ih, mem_pushNew, List.mem_cons, or_assoc]

/-- A value asks for the marking of every level it is tagged with that is known. -/
theorem mem_markingRefs {view : AttributeView} {id : String} :
    id ∈ markingRefs view ↔ ∃ level ∈ tagValues view.tags "tlp", tlpId level = some id := by
  simp [markingRefs, mem_foldl_pushNew]

theorem tlpId_mem {level id : String} (known : tlpId level = some id) : ∃ name, (name, id) ∈ tlp := by
  simp only [tlpId, Option.map_eq_some_iff] at known
  obtain ⟨entry, found, rfl⟩ := known
  exact ⟨entry.1, List.mem_of_find?_eq_some found⟩

variable {groups : List Group} {e : Shown} {id : String}

/-- A marking that a value asks for is among the objects of its bundle. -/
theorem Group.marking_mem {g : Group} (shown : e ∈ g.shown crates) (asked : id ∈ markingRefs e.view) :
    ∃ name, marking name id ∈ g.objects crates := by
  obtain ⟨level, -, known⟩ := mem_markingRefs.mp asked
  obtain ⟨name, entry⟩ := tlpId_mem known
  have collected (shown : List Shown) {seen : List String} (there : id ∈ seen ∨ e ∈ shown) :
      id ∈ shown.foldl (fun known e => (markingRefs e.view).foldl pushNew known) seen := by
    induction shown generalizing seen with
    | nil => simpa using there
    | cons d rest ih =>
        refine ih ?_
        rw [mem_foldl_pushNew]
        rcases there with before | member
        · exact .inl (.inl before)
        · rcases List.mem_cons.mp member with rfl | later
          · exact .inl (.inr asked)
          · exact .inr later
  refine ⟨name, List.mem_append_right _ (List.mem_map.mpr ⟨(name, id), List.mem_filter.mpr ⟨entry, ?_⟩, rfl⟩)⟩
  exact decide_eq_true (collected (g.shown crates) (.inr shown))

/-- Only markings have the ids of markings. -/
theorem Group.marking_type {g : Group} {o : Json} (member : o ∈ g.objects crates) (keyed : idOf o = some id)
    (starts : startsWith id "marking-definition--" = true) : o.getStr "type" = some "marking-definition" := by
  have other {start : String} (starts' : startsWith id start = true)
      (apart : ¬ (startsWith "marking-definition--" start = true ∨ startsWith start "marking-definition--" = true)) :
      o.getStr "type" = some "marking-definition" := absurd (starts_alike starts starts') apart
  rcases objects_cases member with ⟨name, class_, rfl⟩ | ⟨e, -, rfl⟩ | ⟨e, -, rfl⟩ | ⟨level, -, rfl⟩
  · obtain rfl := Option.some.inj ((idOf_identity name class_).symm.trans keyed)
    exact other (startsWith_append "identity--" _) (by decide)
  · obtain rfl := Option.some.inj ((Shown.idOf_indicator e).symm.trans keyed)
    exact other e.indicatorId_starts (by decide)
  · obtain rfl := Option.some.inj ((Shown.idOf_sighting e).symm.trans keyed)
    exact other e.sightingId_starts (by decide)
  · simp [marking, Json.getStr]

/-- The marking of every value that goes out goes out with it. -/
theorem marking_there (shown : e ∈ allShown crates groups) (asked : id ∈ markingRefs e.view) :
    ∃ o ∈ allObjects crates groups, idOf o = some id ∧ o.getStr "type" = some "marking-definition" := by
  obtain ⟨g, member, shown⟩ := List.mem_flatMap.mp shown
  obtain ⟨name, there⟩ := Group.marking_mem shown asked
  obtain ⟨o, kept, keyed, -⟩ := FirstOfEach.exists_mem_keep (List.mem_flatMap.mpr ⟨g, member, there⟩) (idOf_marking name id)
  obtain ⟨g', -, there'⟩ := List.mem_flatMap.mp (FirstOfEach.keep_sublist.mem kept)
  obtain ⟨level, -, known⟩ := mem_markingRefs.mp asked
  obtain ⟨name', entry⟩ := tlpId_mem known
  exact ⟨o, kept, keyed, Group.marking_type there' keyed (marking_starts entry)⟩

variable (crates)

/-- Among some objects a value's sighting and the indicator it refers to carry the marking of every
level the value is tagged with that is known, and the marking is there. -/
def Marked (objects : List Json) (e : Shown) : Prop :=
  ∃ s id i, (s ∈ objects ∧ idOf s = some (e.sightingId crates)) ∧ s.getStr "sighting_of_ref" = some id ∧
    (i ∈ objects ∧ idOf i = some id) ∧
    ∀ level ∈ tagValues e.view.tags "tlp", ∀ m, tlpId level = some m →
      m ∈ refsOf s ∧ m ∈ refsOf i ∧ ∃ o ∈ objects, idOf o = some m ∧ o.getStr "type" = some "marking-definition"

variable {crates}

theorem Stands.carried_iff {d c : Shown} (member : e ∈ allShown crates groups) (stands : Stands crates groups e d c) :
    Marked crates (allObjects crates groups) e ↔
      ∀ m ∈ markingRefs e.view, m ∈ markingRefs d.view ∧ m ∈ markingRefs c.view := by
  constructor
  · rintro ⟨s, id, i, sighting_, refers, indicator_, carried⟩ m asked
    obtain ⟨rfl, rfl⟩ := stands.objects sighting_ refers indicator_
    obtain ⟨level, tagged, known⟩ := mem_markingRefs.mp asked
    have carries := carried level tagged m known
    rw [Shown.refsOf_sighting, Shown.refsOf_indicator] at carries
    exact ⟨carries.1, carries.2.1⟩
  · intro carried
    obtain ⟨sighting_, indicator_⟩ := stands.there
    refine ⟨d.sighting crates, d.indicatorId crates, c.indicator crates, sighting_, by simp, indicator_, ?_⟩
    intro level tagged m known
    have asked := mem_markingRefs.mpr ⟨level, tagged, known⟩
    rw [Shown.refsOf_sighting, Shown.refsOf_indicator]
    exact ⟨(carried m asked).1, (carried m asked).2, marking_there member asked⟩

/-- A value's markings are on what goes out for it exactly when the first value with its
sighting's id asks for them, and the first with the indicator's id of that one does: in one
bundle, and in several folded into one. -/
theorem marked_iff (crates : Crates) (names : List String) (groups : List Group) :
    (∀ g : Group, (∀ e ∈ g.shown crates, Marked crates (objectsOf (g.bundle crates).bundle) e) ↔
      ∀ e ∈ g.shown crates, ∀ d c, Stands crates [g] e d c →
        ∀ m ∈ markingRefs e.view, m ∈ markingRefs d.view ∧ m ∈ markingRefs c.view) ∧
    ((∀ e ∈ allShown crates groups,
        Marked crates (objectsOf (mergeExports crates names (groups.map (Group.bundle crates))).bundle) e) ↔
      ∀ e ∈ allShown crates groups, ∀ d c, Stands crates groups e d c →
        ∀ m ∈ markingRefs e.view, m ∈ markingRefs d.view ∧ m ∈ markingRefs c.view) := by
  have folded (groups : List Group) : (∀ e ∈ allShown crates groups, Marked crates (allObjects crates groups) e) ↔
      ∀ e ∈ allShown crates groups, ∀ d c, Stands crates groups e d c →
        ∀ m ∈ markingRefs e.view, m ∈ markingRefs d.view ∧ m ∈ markingRefs c.view := by
    refine forall_congr' fun e => forall_congr' fun member => ?_
    obtain ⟨d, c, stands⟩ := exists_stands member
    rw [stands.carried_iff member]
    constructor
    · intro own d' c' stands'
      obtain ⟨rfl, rfl⟩ := stands.unique stands'
      exact own
    · exact fun own => own d c stands
  constructor
  · intro g
    rw [objectsOf_bundle_all, ← allShown_one]
    exact folded [g]
  · rw [objectsOf_merged]
    exact folded groups

/-- One value in two namespaces, marked in the second. -/
def markedLater : Group where
  parts := [⟨"feeds/a", [seen "1.2.3.4" "stix-type:ipv4-addr"], none⟩,
    ⟨"feeds/b", [seen "1.2.3.4" "stix-type:ipv4-addr,tlp:red"], none⟩]
  settings := .default
  untyped := .skip

def shownIn (name tags : String) : Shown where
  author := identityId Crates.sample "SightingDB"
  namespace_ := name
  view := seen "1.2.3.4" tags
  observable := "ipv4-addr"
  fallback := false
  pattern := "[ipv4-addr:value = '1.2.3.4']"

/-- The indicator goes out without the marking. -/
theorem marking_dropped : ¬ ∀ e ∈ markedLater.shown Crates.sample,
    Marked Crates.sample (objectsOf (markedLater.bundle Crates.sample).bundle) e := by
  intro marked
  have shown : markedLater.shown Crates.sample =
      [shownIn "feeds/a" "stix-type:ipv4-addr", shownIn "feeds/b" "stix-type:ipv4-addr,tlp:red"] := by decide +kernel
  have stands : Stands Crates.sample [markedLater] (shownIn "feeds/b" "stix-type:ipv4-addr,tlp:red")
      (shownIn "feeds/b" "stix-type:ipv4-addr,tlp:red") (shownIn "feeds/a" "stix-type:ipv4-addr") := by
    simp only [Stands, allShown_one, shown]
    decide +kernel
  have carried := marked (shownIn "feeds/b" "stix-type:ipv4-addr,tlp:red") (by simp [shown])
  rw [objectsOf_bundle_all, stands.carried_iff (by simp [allShown_one, shown])] at carried
  revert carried
  decide +kernel

end Marking

end Stix

end SightingDB
