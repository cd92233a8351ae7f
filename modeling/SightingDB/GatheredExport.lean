import SightingDB.Exports
import SightingDB.StixIds
import SightingDB.Lib.Grouping

/-!
What a gathered export shows of who holds what. Each holder reads its share of the names within
the whole limit, and answers through headers; one server holding all of them reads them in turn.
-/
namespace SightingDB

namespace Stix

/-! ## Pages without consensus -/

section Pages

variable {crates : Crates} {settings : StixSettings} {untyped : Untyped}

/-- An export shows nothing of what `_all` counts. -/
theorem exportNamespaces_eq (c : Contents) (now : DateTime) (wanted : List String) (filter : String) (limit : Nat) :
    exportNamespaces crates settings c now wanted filter limit untyped =
      exportOf crates settings untyped (Budget.spend (c.shownUnder now filter) limit wanted) := by
  have read : c.exportPages now filter limit wanted = _ := Budget.spend_map (c.withConsensus now)
  have unseen (author : String) (page : String × List AttributeView) (found : Bundling) (view : AttributeView) :
      bundleView crates author untyped
        ⟨page.1, page.2.map (c.withConsensus now), settings.typeOfNamespace page.1⟩ found (c.withConsensus now view) =
      bundleView crates author untyped ⟨page.1, page.2, settings.typeOfNamespace page.1⟩ found view := rfl
  simp only [exportNamespaces, read, exportOf, bundleOf, List.map_map, List.foldl_map, Function.comp_def,
    List.length_map, unseen]

end Pages

/-! ## Values read, and values that go out -/

section Values

variable (crates : Crates) (settings : StixSettings) (untyped : Untyped)

/-- The export of some pages. -/
def groupOf (spent : Budget.Spent String AttributeView) : Group :=
  ⟨spent.pages.map fun page => ⟨page.1, page.2, settings.typeOfNamespace page.1⟩, settings.exportAs, untyped⟩

/-- A value of a namespace, if it goes out. -/
def goesOut (entry : String × AttributeView) : Option Shown :=
  (observableType entry.2 (settings.typeOfNamespace entry.1) untyped).bind fun typing =>
    (patternFor typing.observable entry.2.value).map fun pattern =>
      ⟨identityId crates settings.exportAs.identity, entry.1, entry.2, typing.observable, typing.fallback, pattern⟩

variable {crates settings untyped} {get : String → Option (List AttributeView)} {limit : Nat} {names : List String}

theorem filterMap_pages {α : Type} (f : String × AttributeView → Option α) (pages : List (String × List AttributeView)) :
    (pages.flatMap fun page => page.2.map (Prod.mk page.1)).filterMap f =
      pages.flatMap fun page => page.2.filterMap fun view => f (page.1, view) := by
  induction pages with
  | nil => rfl
  | cons page rest ih => simp [List.filterMap_append, List.filterMap_map, ih]

theorem shown_spend : (groupOf settings untyped (Budget.spend get limit names)).shown crates =
    ((Budget.entries get names).take limit).filterMap (goesOut crates settings untyped) := by
  rw [← Budget.entries_spent, filterMap_pages, Group.shown, groupOf, List.flatMap_map]
  rfl

theorem skipped_spend : ((groupOf settings untyped (Budget.spend get limit names)).skipped crates).length =
    ((Budget.entries get names).take limit).countP fun entry => (goesOut crates settings untyped entry).isNone := by
  rw [← Budget.entries_spent, Group.skipped, groupOf, List.flatMap_map, List.length_flatMap, List.countP_flatMap]
  refine congrArg _ (List.map_congr_left fun page _ => ?_)
  rw [List.length_map, Function.comp_apply, List.countP_map, ← List.countP_eq_length_filter]
  rfl

/-- What an export of some names says. -/
theorem exportOf_spend : exportOf crates settings untyped (Budget.spend get limit names) = {
    bundle := bundleJson crates ((Budget.spend get limit names).pages.map (·.1))
      (FirstOfEach.keep idOf ((groupOf settings untyped (Budget.spend get limit names)).objects crates))
    exported := (((Budget.entries get names).take limit).filterMap (goesOut crates settings untyped)).length
    skipped := (groupOf settings untyped (Budget.spend get limit names)).skipped crates
    untyped := (((Budget.entries get names).take limit).filterMap (goesOut crates settings untyped)).countP (·.fallback)
    truncated := (Budget.spend get limit names).cut
    missing := (Budget.reached get limit names).filter fun name => (get name).isNone
    namespaces := (Budget.reached get limit names).countP fun name => (get name).isSome } := by
  have whole : exportOf crates settings untyped (Budget.spend get limit names) =
      { (groupOf settings untyped (Budget.spend get limit names)).bundle crates with
        truncated := (Budget.spend get limit names).cut
        missing := (Budget.spend get limit names).missing } := rfl
  have pages : (Budget.spend get limit names).pages.length =
      (Budget.reached get limit names).countP fun name => (get name).isSome := by
    rw [← @List.length_map _ _ (Budget.spend get limit names).pages Prod.fst, Budget.names_spent,
      List.countP_eq_length_filter]
  rw [whole, Group.bundle_eq, shown_spend, Budget.missing_spent]
  simp only [groupOf, List.map_map, List.length_map, pages, Function.comp_def]

end Values

/-! ## Identities and markings by their id -/

section Others

variable {crates : Crates} {id : String} {o : Json} {groups : List Group}

/-- The identities that the tags of some values name. -/
def namesIn (shown : List Shown) : List String := shown.flatMap fun e => tagValues e.view.tags "identity"

/-- An identity that is not there yet. -/
def noteIdentity (crates : Crates) (known : List (String × Json)) (name : String) : List (String × Json) :=
  if known.any (·.1 = identityId crates name) then known
  else known ++ [(identityId crates name, identity crates name "organization")]

theorem noted_shown (shown : List Shown) :
    shown.foldl (fun known e => noteIdentities crates known e.view) [] = (namesIn shown).foldl (noteIdentity crates) [] := by
  rw [namesIn, List.foldl_flatMap]
  rfl

/-- The identity of an id is that of the first name with it. -/
theorem find_noted (names : List String) (known : List (String × Json)) :
    (names.foldl (noteIdentity crates) known).find? (fun p => p.1 = id) =
      (known.find? fun p => p.1 = id).or
        ((names.find? fun name => identityId crates name = id).map fun name =>
          (identityId crates name, identity crates name "organization")) := by
  induction names generalizing known with
  | nil => simp
  | cons name rest ih =>
      rw [List.foldl_cons, ih, noteIdentity]
      by_cases here : identityId crates name = id
      · split
        · rename_i there
          obtain ⟨p, member, same⟩ := List.any_eq_true.mp there
          have found : (known.find? fun p => p.1 = id).isSome = true :=
            List.find?_isSome.mpr ⟨p, member, by simpa [here] using same⟩
          obtain ⟨q, found⟩ := Option.isSome_iff_exists.mp found
          simp [found]
        · simp [here, List.find?_append]
      · split
        · simp [here]
        · simp [here, List.find?_append]

theorem find_identities (shown : List Shown) :
    ((shown.foldl (fun known e => noteIdentities crates known e.view) []).map (·.2)).find? (fun o => idOf o = some id) =
      ((namesIn shown).find? fun name => identityId crates name = id).map fun name => identity crates name "organization" := by
  have named := @named_shown crates shown
  have keys (known : List (String × Json)) (named : Named crates known) :
      (known.map (·.2)).find? (fun o => idOf o = some id) = (known.find? fun p => p.1 = id).map (·.2) := by
    induction known with
    | nil => rfl
    | cons p rest ih =>
        have later := ih fun q member => named q (List.mem_cons_of_mem _ member)
        obtain ⟨name, rfl⟩ := named p List.mem_cons_self
        by_cases here : identityId crates name = id <;> simp [here, later]
  rw [keys _ named, noted_shown, find_noted]
  simp [Option.map_map, Function.comp_def]

theorem find_shown_none (first : String) (startsId : startsWith id first = true)
    (other : startsWith first "indicator--" = false ∧ startsWith "indicator--" first = false)
    (other' : startsWith first "sighting--" = false ∧ startsWith "sighting--" first = false) (shown : List Shown) :
    (shown.flatMap fun e => [e.indicator crates, e.sighting crates]).find? (fun o => idOf o = some id) = none := by
  refine List.find?_eq_none.mpr fun o member => ?_
  obtain ⟨e, -, pair⟩ := List.mem_flatMap.mp member
  simp only [List.mem_cons, List.not_mem_nil, or_false] at pair
  simp only [decide_eq_true_eq]
  intro keyed
  rcases pair with rfl | rfl
  · rw [Shown.idOf_indicator, Option.some.injEq] at keyed
    have alike := starts_alike startsId (keyed ▸ e.indicatorId_starts)
    rw [other.1, other.2] at alike
    simp at alike
  · rw [Shown.idOf_sighting, Option.some.injEq] at keyed
    have alike := starts_alike startsId (keyed ▸ e.sightingId_starts)
    rw [other'.1, other'.2] at alike
    simp at alike

theorem find_markings_none (identity_ : startsWith id "identity--" = true) {levels : List (String × String)}
    (known : ∀ level ∈ levels, level ∈ tlp) :
    (levels.map fun level => marking level.1 level.2).find? (fun o => idOf o = some id) = none := by
  refine List.find?_eq_none.mpr fun o member => ?_
  obtain ⟨level, there, rfl⟩ := List.mem_map.mp member
  simp only [idOf_marking, Option.some.injEq, decide_eq_true_eq]
  rintro rfl
  exact absurd (starts_alike identity_ (marking_starts (known level there))) (by decide)

/-- The identity of an id is the author's, or else of the first name with it. -/
theorem Group.find_identity (g : Group) (identity_ : startsWith id "identity--" = true) :
    (g.objects crates).find? (fun o => idOf o = some id) =
      if g.author crates = id then some (identity crates g.settings.identity g.settings.identityClass)
      else ((namesIn (g.shown crates)).find? fun name => identityId crates name = id).map fun name =>
        identity crates name "organization" := by
  have pairs := @find_shown_none crates _ "identity--" identity_ (by decide) (by decide) (g.shown crates)
  have marks := @find_markings_none _ identity_ (tlp.filter fun level =>
    level.2 ∈ (g.gathered crates (g.shown crates) (g.skipped crates)).markings)
    fun level member => (List.mem_filter.mp member).1
  simp only [objects, List.find?_append, marks, Option.or_none]
  simp only [gathered, List.find?_cons, idOf_identity, Option.some.injEq, pairs, find_identities, Group.author]
  by_cases here : identityId crates g.settings.identity = id <;> simp [here]

theorem find_identity_all {settings : Settings} (alike : ∀ g ∈ groups, g.settings = settings) (some_ : groups ≠ [])
    (identity_ : startsWith id "identity--" = true) :
    (groups.flatMap (Group.objects crates)).find? (fun o => idOf o = some id) =
      if identityId crates settings.identity = id then some (identity crates settings.identity settings.identityClass)
      else ((namesIn (allShown crates groups)).find? fun name => identityId crates name = id).map fun name =>
        identity crates name "organization" := by
  have author (g : Group) (member : g ∈ groups) : g.author crates = identityId crates settings.identity := by
    rw [Group.author, alike g member]
  by_cases here : identityId crates settings.identity = id
  · obtain ⟨g, rest, rfl⟩ := List.exists_cons_of_ne_nil some_
    rw [List.flatMap_cons, List.find?_append, g.find_identity identity_, author g List.mem_cons_self, if_pos here, if_pos here,
      alike g List.mem_cons_self, Option.some_or]
  · rw [if_neg here]
    clear some_
    induction groups with
    | nil => rfl
    | cons g rest ih =>
        have later := ih (fun g member => alike g (List.mem_cons_of_mem _ member)) fun g member =>
          author g (List.mem_cons_of_mem _ member)
        rw [List.flatMap_cons, List.find?_append, later, g.find_identity identity_, author g List.mem_cons_self, if_neg here]
        simp only [allShown, namesIn, List.flatMap_cons, List.flatMap_append, List.find?_append]
        cases (((g.shown crates).flatMap fun e => tagValues e.view.tags "identity").find? fun name =>
          identityId crates name = id) <;> simp

theorem mem_markings (shown : List Shown) (known : List String) :
    id ∈ shown.foldl (fun known e => (markingRefs e.view).foldl pushNew known) known ↔
      id ∈ known ∨ ∃ e ∈ shown, id ∈ markingRefs e.view := by
  induction shown generalizing known with
  | nil => simp
  | cons e rest ih => simp [ih, mem_foldl_pushNew, or_assoc]

theorem Group.of_marking_id {g : Group} {level : String × String} (known : level ∈ tlp) (member : o ∈ g.objects crates)
    (keyed : idOf o = some level.2) :
    o = marking level.1 level.2 ∧ ∃ e ∈ g.shown crates, level.2 ∈ markingRefs e.view := by
  have starts := marking_starts known
  have other {start : String} (startsId : startsWith level.2 start = true)
      (apart : ¬ (startsWith "marking-definition--" start = true ∨ startsWith start "marking-definition--" = true)) :
      o = marking level.1 level.2 ∧ ∃ e ∈ g.shown crates, level.2 ∈ markingRefs e.view :=
    absurd (starts_alike starts startsId) apart
  have identity_ (name class_ : String) (same : o = identity crates name class_) :
      o = marking level.1 level.2 ∧ ∃ e ∈ g.shown crates, level.2 ∈ markingRefs e.view := by
    rw [same, idOf_identity, Option.some.injEq] at keyed
    have starts' : startsWith level.2 "identity--" = true := by
      rw [← keyed, identityId]
      exact startsWith_append _ _
    exact other starts' (by decide)
  simp only [objects, gathered, List.cons_append, List.append_assoc, List.mem_cons, List.mem_append] at member
  rcases member with author | pair | named | marked
  · exact identity_ _ _ author
  · obtain ⟨e, -, pair⟩ := List.mem_flatMap.mp pair
    simp only [List.mem_cons, List.not_mem_nil, or_false] at pair
    rcases pair with rfl | rfl
    · rw [Shown.idOf_indicator, Option.some.injEq] at keyed
      exact other (keyed ▸ e.indicatorId_starts) (by decide)
    · rw [Shown.idOf_sighting, Option.some.injEq] at keyed
      exact other (keyed ▸ e.sightingId_starts) (by decide)
  · obtain ⟨p, there, rfl⟩ := List.mem_map.mp named
    obtain ⟨name, rfl⟩ := named_shown (g.shown crates) p there
    exact identity_ _ _ rfl
  · obtain ⟨level', there, rfl⟩ := List.mem_map.mp marked
    obtain ⟨known', asked⟩ := List.mem_filter.mp there
    rw [idOf_marking, Option.some.injEq] at keyed
    have same : level' = level := by
      have apart : ∀ a ∈ tlp, ∀ b ∈ tlp, a.2 = b.2 → a = b := by decide
      exact apart level' known' level known keyed
    have asked := (mem_markings (g.shown crates) []).mp (same ▸ of_decide_eq_true asked)
    exact ⟨by rw [same], by simpa using asked⟩

/-- A marking is there when a value asks for it. -/
theorem mem_marking {level : String × String} (known : level ∈ tlp) :
    marking level.1 level.2 ∈ allObjects crates groups ↔ ∃ e ∈ allShown crates groups, level.2 ∈ markingRefs e.view := by
  constructor
  · intro member
    obtain ⟨g, there, member⟩ := List.mem_flatMap.mp (FirstOfEach.keep_sublist.mem member)
    obtain ⟨-, e, shown, asked⟩ := Group.of_marking_id known member (idOf_marking _ _)
    exact ⟨e, List.mem_flatMap.mpr ⟨g, there, shown⟩, asked⟩
  · rintro ⟨e, shown, asked⟩
    obtain ⟨o, kept, keyed, -⟩ := marking_there shown asked
    obtain ⟨g, -, member⟩ := List.mem_flatMap.mp (FirstOfEach.keep_sublist.mem kept)
    exact (Group.of_marking_id known member keyed).1 ▸ kept

end Others

/-- Two orders of values that go out, in which the first value of each id gives the same object and
the first name of each id other than the author's is the same. -/
structure SameFirsts (crates : Crates) (settings : Settings) (shown shown' : List Shown) : Prop where
  indicators : ∀ id, (shown.find? fun e => e.indicatorId crates = id).map (Shown.indicator crates) =
    (shown'.find? fun e => e.indicatorId crates = id).map (Shown.indicator crates)
  sightings : ∀ id, (shown.find? fun e => e.sightingId crates = id).map (Shown.sighting crates) =
    (shown'.find? fun e => e.sightingId crates = id).map (Shown.sighting crates)
  identities : ∀ id, id ≠ identityId crates settings.identity →
    (namesIn shown).find? (fun name => identityId crates name = id) =
      (namesIn shown').find? fun name => identityId crates name = id

section Firsts

variable {crates : Crates} {settings : Settings} {groups groups' : List Group} {o : Json}

theorem SameFirsts.refl (shown : List Shown) : SameFirsts crates settings shown shown :=
  ⟨fun _ => rfl, fun _ => rfl, fun _ _ => rfl⟩

theorem SameFirsts.symm {shown shown' : List Shown} (firsts : SameFirsts crates settings shown shown') :
    SameFirsts crates settings shown' shown :=
  ⟨fun id => (firsts.indicators id).symm, fun id => (firsts.sightings id).symm, fun id other =>
    (firsts.identities id other).symm⟩

theorem identityId_starts (name : String) : startsWith (identityId crates name) "identity--" = true := startsWith_append _ _

theorem mem_identity {id : String} (alike : ∀ g ∈ groups, g.settings = settings) (some_ : groups ≠ [])
    (identity_ : startsWith id "identity--" = true) (keyed : idOf o = some id) :
    o ∈ allObjects crates groups ↔
      (if identityId crates settings.identity = id then some (identity crates settings.identity settings.identityClass)
      else ((namesIn (allShown crates groups)).find? fun name => identityId crates name = id).map fun name =>
        identity crates name "organization") = some o := by
  rw [allObjects, FirstOfEach.mem_keep keyed, find_identity_all alike some_ identity_]

theorem SameFirsts.mem (firsts : SameFirsts crates settings (allShown crates groups) (allShown crates groups'))
    (alike : ∀ g ∈ groups, g.settings = settings) (alike' : ∀ g ∈ groups', g.settings = settings)
    (some_ : groups ≠ []) (some_' : groups' ≠ [])
    (asked : ∀ m, (∃ e ∈ allShown crates groups, m ∈ markingRefs e.view) → ∃ e ∈ allShown crates groups', m ∈ markingRefs e.view)
    (member : o ∈ allObjects crates groups) : o ∈ allObjects crates groups' := by
  obtain ⟨g, -, there⟩ := List.mem_flatMap.mp (FirstOfEach.keep_sublist.mem member)
  rcases Group.objects_cases there with ⟨name, class_, rfl⟩ | ⟨e, -, rfl⟩ | ⟨e, -, rfl⟩ | ⟨level, known, rfl⟩
  · rw [mem_identity alike some_ (identityId_starts name) (idOf_identity name class_)] at member
    rw [mem_identity alike' some_' (identityId_starts name) (idOf_identity name class_), ← member]
    split
    · rfl
    · rename_i other
      rw [firsts.identities _ (Ne.symm other)]
  · obtain ⟨d, found, same⟩ := (mem_indicator e.indicatorId_starts e.idOf_indicator).mp member
    have first := firsts.indicators (e.indicatorId crates)
    rw [found, Option.map_some, same, eq_comm, Option.map_eq_some_iff] at first
    exact (mem_indicator e.indicatorId_starts e.idOf_indicator).mpr first
  · obtain ⟨d, found, same⟩ := (mem_sighting e.sightingId_starts e.idOf_sighting).mp member
    have first := firsts.sightings (e.sightingId crates)
    rw [found, Option.map_some, same, eq_comm, Option.map_eq_some_iff] at first
    exact (mem_sighting e.sightingId_starts e.idOf_sighting).mpr first
  · exact (mem_marking known).mpr (asked _ ((mem_marking known).mp member))

theorem identity_inj {name name' class_ : String} (same : identity crates name class_ = identity crates name' class_) :
    name = name' := by
  have read := congrArg (Json.getStr · "name") same
  simpa [Json.getStr, identity] using read

/-- Two collections of bundles hold the same objects exactly when the first of each id is the same. -/
theorem same_objects_iff (alike : ∀ g ∈ groups, g.settings = settings) (alike' : ∀ g ∈ groups', g.settings = settings)
    (some_ : groups ≠ []) (some_' : groups' ≠ [])
    (asked : ∀ m, (∃ e ∈ allShown crates groups, m ∈ markingRefs e.view) ↔
      ∃ e ∈ allShown crates groups', m ∈ markingRefs e.view) :
    (∀ o, o ∈ allObjects crates groups ↔ o ∈ allObjects crates groups') ↔
      SameFirsts crates settings (allShown crates groups) (allShown crates groups') := by
  constructor
  · intro same
    refine ⟨fun id => ?_, fun id => ?_, fun id other => ?_⟩
    · refine Option.ext fun o => ?_
      rw [Option.map_eq_some_iff, Option.map_eq_some_iff]
      constructor <;> rintro ⟨e, found, rfl⟩
      all_goals
        have keyed : e.indicatorId crates = id := by simpa using List.find?_some found
        subst keyed
        have there := (mem_indicator e.indicatorId_starts e.idOf_indicator).mpr ⟨e, found, rfl⟩
      · exact (mem_indicator e.indicatorId_starts e.idOf_indicator).mp ((same _).mp there)
      · exact (mem_indicator e.indicatorId_starts e.idOf_indicator).mp ((same _).mpr there)
    · refine Option.ext fun o => ?_
      rw [Option.map_eq_some_iff, Option.map_eq_some_iff]
      constructor <;> rintro ⟨e, found, rfl⟩
      all_goals
        have keyed : e.sightingId crates = id := by simpa using List.find?_some found
        subst keyed
        have there := (mem_sighting e.sightingId_starts e.idOf_sighting).mpr ⟨e, found, rfl⟩
      · exact (mem_sighting e.sightingId_starts e.idOf_sighting).mp ((same _).mp there)
      · exact (mem_sighting e.sightingId_starts e.idOf_sighting).mp ((same _).mpr there)
    · have carries {groups groups' : List Group} (alike : ∀ g ∈ groups, g.settings = settings)
          (alike' : ∀ g ∈ groups', g.settings = settings) (some_ : groups ≠ []) (some_' : groups' ≠ [])
          (same : ∀ o, o ∈ allObjects crates groups → o ∈ allObjects crates groups') {name : String}
          (found : (namesIn (allShown crates groups)).find? (fun name => identityId crates name = id) = some name) :
          (namesIn (allShown crates groups')).find? (fun name => identityId crates name = id) = some name := by
        have keyed : identityId crates name = id := by simpa using List.find?_some found
        subst keyed
        have there := (mem_identity alike some_ (identityId_starts name) (idOf_identity name "organization")).mpr (by
          rw [if_neg (Ne.symm other), found, Option.map_some])
        have there' := (mem_identity alike' some_' (identityId_starts name) (idOf_identity name "organization")).mp (same _ there)
        rw [if_neg (Ne.symm other), Option.map_eq_some_iff] at there'
        obtain ⟨name', found', same'⟩ := there'
        rw [found', identity_inj same']
      exact Option.ext fun name =>
        ⟨carries alike alike' some_ some_' fun o => (same o).mp, carries alike' alike some_' some_ fun o => (same o).mpr⟩
  · intro firsts o
    exact ⟨firsts.mem alike alike' some_ some_' fun m => (asked m).mp,
      firsts.symm.mem alike' alike some_' some_ fun m => (asked m).mpr⟩

end Firsts

/-! ## Shares -/

/-- Where a name is read. -/
inductive Place
  | here
  | nowhere
  | mirror (url : String)
  deriving DecidableEq

section Shares

variable (site : Site) (galaxy : Galaxy) (weigh : String → String → Nat)

def placeOf (name : String) : Place :=
  if site.stores.holds name then .here
  else match galaxy.readerUrl weigh name "" with
    | .ok url => .mirror url
    | .error _ => .nowhere

def share (wanted : List String) (place : Place) : List String :=
  wanted.filter fun name => placeOf site galaxy weigh name = place

/-- The readers in the order in which their parts come. -/
def turns (wanted : List String) : List Place :=
  .here :: .nowhere :: (groupedByMirror galaxy weigh (wanted.filter site.elsewhere)).1.map fun group => .mirror group.1

variable {site galaxy weigh} {wanted names : List String}

/-- The mirror that serves a name. -/
def urlOf (galaxy : Galaxy) (weigh : String → String → Nat) (name : String) : Option String :=
  (galaxy.readerUrl weigh name "").toOption

theorem groupedByMirror_spec : Grouping.Grouped (urlOf galaxy weigh) names (groupedByMirror galaxy weigh names).1 ∧
    (groupedByMirror galaxy weigh names).2 = names.filter fun name => (urlOf galaxy weigh name).isNone := by
  induction names using List.reverseRecOn with
  | nil => exact ⟨⟨List.nodup_nil, by simp [groupedByMirror], by simp [groupedByMirror], by simp⟩, rfl⟩
  | append_singleton rest name ih =>
      obtain ⟨grouped, nowhere⟩ := ih
      cases found : galaxy.readerUrl weigh name "" with
      | error reason =>
          have step : groupedByMirror galaxy weigh (rest ++ [name]) =
              ((groupedByMirror galaxy weigh rest).1, (groupedByMirror galaxy weigh rest).2 ++ [name]) := by
            simp [groupedByMirror, found]
          have none_ : urlOf galaxy weigh name = none := by simp [urlOf, found, Except.toOption]
          rw [step]
          exact ⟨grouped.other none_, by simp [nowhere, none_]⟩
      | ok u =>
          have step : groupedByMirror galaxy weigh (rest ++ [name]) =
              (Network.intoGroup (groupedByMirror galaxy weigh rest).1 u name, (groupedByMirror galaxy weigh rest).2) := by
            simp [groupedByMirror, found]
          have url : urlOf galaxy weigh name = some u := by simp [urlOf, found, Except.toOption]
          rw [step]
          exact ⟨grouped.into url, by simp [nowhere, url]⟩

theorem elsewhere_eq (name : String) : site.elsewhere name = !site.stores.holds name := by
  rw [Site.elsewhere]
  cases internal : isInternal name <;> simp [StoragePolicy.holds, internal]

theorem placeOf_here {name : String} : placeOf site galaxy weigh name = .here ↔ site.stores.holds name = true := by
  rw [placeOf]
  cases holds : site.stores.holds name
  · cases found : galaxy.readerUrl weigh name "" <;> simp
  · simp

theorem placeOf_mirror {name u : String} : placeOf site galaxy weigh name = .mirror u ↔
    site.elsewhere name = true ∧ urlOf galaxy weigh name = some u := by
  rw [placeOf, elsewhere_eq, urlOf]
  cases holds : site.stores.holds name
  · cases found : galaxy.readerUrl weigh name "" <;> simp [Except.toOption]
  · simp

theorem placeOf_nowhere {name : String} : placeOf site galaxy weigh name = .nowhere ↔
    site.elsewhere name = true ∧ (urlOf galaxy weigh name).isNone = true := by
  rw [placeOf, elsewhere_eq, urlOf]
  cases holds : site.stores.holds name
  · cases found : galaxy.readerUrl weigh name "" <;> simp [Except.toOption]
  · simp

theorem share_here : share site galaxy weigh wanted .here = wanted.filter site.stores.holds :=
  List.filter_congr fun name _ => by simp [placeOf_here]

theorem share_mirror (u : String) : share site galaxy weigh wanted (.mirror u) =
    (wanted.filter site.elsewhere).filter fun name => urlOf galaxy weigh name = some u := by
  rw [List.filter_filter]
  exact List.filter_congr fun name _ => by simp [placeOf_mirror, Bool.and_comm]

theorem share_nowhere : share site galaxy weigh wanted .nowhere =
    (groupedByMirror galaxy weigh (wanted.filter site.elsewhere)).2 := by
  rw [groupedByMirror_spec.2, List.filter_filter]
  refine List.filter_congr fun name _ => ?_
  rw [Bool.eq_iff_iff, decide_eq_true_iff, placeOf_nowhere, Bool.and_eq_true, and_comm]

theorem turns_nodup : (turns site galaxy weigh wanted).Nodup := by
  have apart := (@groupedByMirror_spec galaxy weigh (wanted.filter site.elsewhere)).1.apart
  have mirrors : ((groupedByMirror galaxy weigh (wanted.filter site.elsewhere)).1.map fun group =>
      Place.mirror group.1).Nodup := by
    rw [show (fun group : String × List String => Place.mirror group.1) = Place.mirror ∘ Prod.fst from rfl, ← List.map_map]
    exact apart.map fun _ _ same => Place.mirror.inj same
  simp [turns, mirrors]

theorem placeOf_mem {name : String} (asked : name ∈ wanted) :
    placeOf site galaxy weigh name ∈ turns site galaxy weigh wanted := by
  cases place : placeOf site galaxy weigh name with
  | here => simp [turns]
  | nowhere => simp [turns]
  | mirror u =>
      obtain ⟨away, url⟩ := placeOf_mirror.mp place
      obtain ⟨group, member, rfl⟩ := List.mem_map.mp
        (groupedByMirror_spec.1.covered name (List.mem_filter.mpr ⟨asked, away⟩) u url)
      exact List.mem_cons_of_mem _ (List.mem_cons_of_mem _ (List.mem_map.mpr ⟨group, member, rfl⟩))

/-- What the mirrors are asked for. -/
theorem groupedByMirror_eq : (groupedByMirror galaxy weigh (wanted.filter site.elsewhere)).1 =
    ((groupedByMirror galaxy weigh (wanted.filter site.elsewhere)).1.map Prod.fst).map fun u =>
      (u, share site galaxy weigh wanted (.mirror u)) := by
  rw [List.map_map]
  refine (List.map_id _).symm.trans (List.map_congr_left fun group member => ?_)
  rw [Function.comp_apply, share_mirror, ← groupedByMirror_spec.1.whole group member]
  rfl

theorem share_mirror_some {u : String} (turn : Place.mirror u ∈ turns site galaxy weigh wanted) :
    share site galaxy weigh wanted (.mirror u) ≠ [] := by
  simp only [turns, List.mem_cons, reduceCtorEq, List.mem_map, Place.mirror.injEq, false_or] at turn
  obtain ⟨group, member, rfl⟩ := turn
  rw [share_mirror, ← groupedByMirror_spec.1.whole group member]
  exact groupedByMirror_spec.1.some_ group member

end Shares

/-! ## What a mirror answers -/

/-- Names as an export request leaves them. -/
def Tidy (name : String) : Prop := trimSlashes (trim name) = name ∧ name ≠ ""

theorem wanted_tidy {names : List String} (apart : names.Nodup) (tidy : ∀ name ∈ names, Tidy name) :
    ExportRequest.wanted ⟨names, none, false⟩ = names := by
  have step (front rest : List String) (apart : (front ++ rest).Nodup) (tidy : ∀ name ∈ rest, Tidy name) :
      rest.foldl (fun wanted raw =>
        let name := trimSlashes (trim raw)
        if name ≠ "" ∧ name ∉ wanted then wanted ++ [name] else wanted) front = front ++ rest := by
    induction rest generalizing front with
    | nil => simp
    | cons name rest ih =>
        obtain ⟨trimmed, some_⟩ := tidy name List.mem_cons_self
        have fresh : name ∉ front := fun before =>
          (List.nodup_append.mp apart).2.2 name before name List.mem_cons_self rfl
        rw [List.foldl_cons]
        simp only [trimmed]
        rw [if_pos ⟨some_, fresh⟩, ih (front ++ [name]) (by simpa using apart) fun other member =>
          tidy other (List.mem_cons_of_mem _ member), List.append_assoc, List.singleton_append]
  exact step [] names apart tidy

instance : DecidablePred Tidy := fun _ => inferInstanceAs (Decidable (_ ∧ _))

/-- The missing names as they arrive in a header. -/
def carried (missing : List String) : List String :=
  if missing = [] then []
  else if headerReadable (joinWith ',' missing) then splitOnChar ',' (joinWith ',' missing) else []

section Mirror

variable {crates : Crates} {settings : StixSettings} {untyped : Untyped} {get : String → Option (List AttributeView)}
  {limit : Nat} {names : List String} {c : Contents} {now : DateTime} {filter : String}

variable (crates settings untyped get limit names) in
/-- The part that comes of a mirror's answer. -/
def answered : Export × List String :=
  let missing := (Budget.reached get limit names).filter fun name => (get name).isNone
  if names.all fun name => (get name).isNone then (unreachablePart names, [])
  else if headerValid (joinWith ',' missing) then
    ({ exportOf crates settings untyped (Budget.spend get limit names) with skipped := [], missing := carried missing }, [])
  else (unreachablePart names, names)

theorem all_missed (positive : limit ≠ 0) :
    ((Budget.reached get limit names).filter fun name => (get name).isNone).length = names.length ↔
      (names.all fun name => (get name).isNone) = true := by
  constructor
  · intro same
    have reached : (Budget.reached get limit names).length = names.length :=
      le_antisymm Budget.reached_prefix.length_le (same ▸ List.length_filter_le _ _)
    rw [Budget.reached_prefix.eq_of_length reached, List.length_filter_eq_length_iff] at same
    exact List.all_eq_true.mpr same
  · intro missing
    have none_ : ∀ name ∈ names, get name = none := fun name member => by simpa using List.all_eq_true.mp missing name member
    rw [Budget.reached_of_missing positive none_, List.length_filter_eq_length_iff]
    exact List.all_eq_true.mp missing

theorem mirrorPart_eq (positive : limit ≠ 0) (bounded : limit ≤ 100000) (some_ : names ≠ []) (apart : names.Nodup)
    (tidy : ∀ name ∈ names, Tidy name) (external : ∀ name ∈ names, startsWith name configPrefix = false)
    (same : ∀ name ∈ names, c.shownUnder now filter name = get name) :
    mirrorPart names ((some (exportStixApi crates settings c now ⟨⟨names, none, false⟩, filter, some limit, untyped⟩)).map
      Reply.received) = answered crates settings untyped get limit names := by
  have whole : ExportBody.maxValues ⟨⟨names, none, false⟩, filter, some limit, untyped⟩ = limit := by
    simp only [ExportBody.maxValues, Option.getD_some]
    omega
  have open_ : (names.any fun name => startsWith name configPrefix) = false := by
    simpa using external
  have export_ : exportNamespaces crates settings c now names filter limit untyped =
      exportOf crates settings untyped (Budget.spend get limit names) := by
    rw [exportNamespaces_eq, Budget.spend_congr same]
  have missing : (exportOf crates settings untyped (Budget.spend get limit names)).missing =
      (Budget.reached get limit names).filter fun name => (get name).isNone := Budget.missing_spent
  rw [exportStixApi, wanted_tidy apart tidy, if_neg some_, open_, if_neg Bool.false_ne_true, whole]
  simp only [export_, missing, all_missed positive, answered]
  split
  · rfl
  · rw [stixResponse, missing]
    split
    · rename_i none_
      rw [none_]
      rfl
    · rename_i named
      by_cases valid : headerValid
          (joinWith ',' ((Budget.reached get limit names).filter fun name => (get name).isNone)) = true
      · rw [if_pos valid, if_pos valid, carried, if_neg named]
        simp only [Option.map_some, Reply.received, Option.filter_some, mirrorPart, exportedFrom]
        by_cases readable : headerReadable
            (joinWith ',' ((Budget.reached get limit names).filter fun name => (get name).isNone)) = true
        · simp only [readable, if_true]
          rfl
        · simp only [readable, Bool.false_eq_true, if_false]
          rfl
      · rw [if_neg valid, if_neg valid]
        rfl

end Mirror

/-! ## One export through a galaxy -/

/-- An export of some names, wherever each is held: here, at the mirror that serves it, or nowhere.
One server that holds them all has what the holders have. The names are apart and the limit is in
range, as the routes leave them. -/
structure Gathering where
  crates : Crates
  settings : StixSettings
  site : Site
  galaxy : Galaxy
  weigh : String → String → Nat
  now : DateTime
  one : Contents
  here : Contents
  mirrors : String → Contents
  wanted : List String
  filter : String
  limit : Nat
  untyped : Untyped
  wired : site.galaxy = some galaxy
  held_here : ∀ name ∈ wanted, placeOf site galaxy weigh name = .here → here name = one name
  held_there : ∀ name ∈ wanted, ∀ url, placeOf site galaxy weigh name = .mirror url → mirrors url name = one name
  held_nowhere : ∀ name ∈ wanted, placeOf site galaxy weigh name = .nowhere → one name = none
  apart : wanted.Nodup
  some_ : wanted ≠ []
  positive : 1 ≤ limit
  bounded : limit ≤ 100000

namespace Gathering

variable (g : Gathering)

/-- What the server exports from its own store. -/
def own (names : List String) : Export := exportNamespaces g.crates g.settings g.here g.now names g.filter g.limit g.untyped

/-- What the server answers, its mirrors being reachable and willing. -/
def answer : Gathered :=
  exportAnswer g.crates g.site g.weigh g.own
    (fun url body => some (exportStixApi g.crates g.settings (g.mirrors url) g.now body)) g.wanted g.filter g.limit g.untyped

/-- What one server holding everything exports, -/
def whole : Export := exportNamespaces g.crates g.settings g.one g.now g.wanted g.filter g.limit g.untyped

/-- and answers. -/
def single : Gathered :=
  ownAnswer (fun names => exportNamespaces g.crates g.settings g.one g.now names g.filter g.limit g.untyped) g.wanted

def get : String → Option (List AttributeView) := g.one.shownUnder g.now g.filter

def place (name : String) : Place := placeOf g.site g.galaxy g.weigh name

def share (place : Place) : List String := Stix.share g.site g.galaxy g.weigh g.wanted place

def turns : List Place := Stix.turns g.site g.galaxy g.weigh g.wanted

def goesOut : String × AttributeView → Option Shown := Stix.goesOut g.crates g.settings g.untyped

/-- The values that one server reads, -/
def readWhole : List (String × AttributeView) := (Budget.entries g.get g.wanted).take g.limit

/-- those of them that a reader holds, -/
def readFirst (place : Place) : List (String × AttributeView) := g.readWhole.filter fun e => g.place e.1 = place

/-- and those that the reader reads within the same limit. -/
def readAt (place : Place) : List (String × AttributeView) := (Budget.entries g.get (g.share place)).take g.limit

/-- The names that one server comes to, -/
def cameWhole : List String := Budget.reached g.get g.limit g.wanted

def cameFirst (place : Place) : List String := g.cameWhole.filter fun name => g.place name = place

def cameAt (place : Place) : List String := Budget.reached g.get g.limit (g.share place)

def furtherValues : List (String × AttributeView) := Budget.further g.readFirst g.readAt g.turns

def furtherNames : List String := Budget.further g.cameFirst g.cameAt g.turns

/-- Whether the limit leaves something out. -/
def cutWhole : Bool := (Budget.spend g.get g.limit g.wanted).cut

def cutAt (place : Place) : Bool := (Budget.spend g.get g.limit (g.share place)).cut

/-- The names a reader misses, -/
def missedAt (place : Place) : List String := (g.cameAt place).filter fun name => (g.get name).isNone

def missesAll (place : Place) : Bool := (g.share place).all fun name => (g.get name).isNone

/-- and those it is heard to miss. -/
def told (place : Place) : List String := match place with
  | .mirror _ => if g.missesAll place then g.share place else carried (g.missedAt place)
  | _ => g.missedAt place

/-- The limit leaves nothing out that matters. -/
structure Seamless : Prop where
  /-- What the holders read further does not go out, -/
  values : ∀ e ∈ g.furtherValues, g.goesOut e = none
  /-- they come to no further namespace that is there, -/
  names : ∀ name ∈ g.furtherNames, g.get name = none
  /-- and where one server is cut short, so is a holder. -/
  cut : g.cutWhole = true → ∃ place ∈ g.turns, g.cutAt place = true
  /-- As many values that stay out are at mirrors as are read further here. -/
  skipped : (g.readWhole.countP fun e => (g.goesOut e).isNone && decide (g.place e.1 ≠ .here)) =
    ((g.readAt .here).drop (g.readFirst .here).length).countP fun e => (g.goesOut e).isNone
  /-- The missing names of a mirror that answers make a header, -/
  headers : ∀ place ∈ g.turns, g.missesAll place = false → (∃ url, place = .mirror url) →
    headerValid (joinWith ',' (g.missedAt place)) = true
  /-- and the names heard are the names missed. -/
  missing : ∀ name, name ∈ g.turns.flatMap g.told ↔ name ∈ g.cameWhole.filter fun name => (g.get name).isNone
  /-- In the order of the holders the first value of each id gives the same objects. -/
  firsts : SameFirsts g.crates g.settings.exportAs (g.readWhole.filterMap g.goesOut)
    (g.turns.flatMap fun place => (g.readAt place).filterMap g.goesOut)

end Gathering

/-- The same objects, and the same figures. -/
structure Same (e e' : Export) : Prop where
  objects : ∀ o, o ∈ objectsOf e.bundle ↔ o ∈ objectsOf e'.bundle
  exported : e.exported = e'.exported
  skipped : e.skipped.length = e'.skipped.length
  untyped : e.untyped = e'.untyped
  namespaces : e.namespaces = e'.namespaces
  truncated : e.truncated = e'.truncated
  missing : e.missing.Perm e'.missing

def Alike : Gathered → Gathered → Prop
  | .bundle e, .bundle e' => Same e e'
  | .notFound, .notFound => True
  | _, _ => False

/-! ### What the readers read -/

/-- How many values an answer says it exports. -/
def Gathered.exported : Gathered → Option Nat
  | .bundle e => some e.exported
  | _ => none

theorem Alike.exported {a b : Gathered} (alike : Alike a b) : a.exported = b.exported := by
  cases a <;> cases b <;> simp only [Alike] at alike
  · exact congrArg some alike.exported
  · rfl

namespace Gathering

variable {g : Gathering} {place : Place}

theorem place_mem {name : String} (asked : name ∈ g.wanted) : g.place name ∈ g.turns := placeOf_mem asked

theorem share_eq : g.share place = g.wanted.filter fun name => g.place name = place := rfl

theorem share_apart : (g.share place).Nodup := g.apart.filter _

theorem mem_entries {names : List String} {e : String × AttributeView} (member : e ∈ Budget.entries g.get names) :
    e.1 ∈ names ∧ g.get e.1 ≠ none := by
  obtain ⟨name, there, entry⟩ := List.mem_flatMap.mp member
  obtain ⟨view, held, rfl⟩ := List.mem_map.mp entry
  refine ⟨there, fun none_ => ?_⟩
  rw [none_] at held
  cases held

theorem readFirst_starts (place : Place) : g.readFirst place <+: g.readAt place := by
  rw [readAt, share_eq, Budget.entries_filter]
  exact Budget.filter_take_prefix

theorem cameFirst_starts (place : Place) : g.cameFirst place <+: g.cameAt place := Budget.reached_filter le_rfl

/-- The holders together read what one server reads, and what they read further. -/
theorem perm_values : (g.turns.flatMap g.readAt).Perm (g.readWhole ++ g.furtherValues) :=
  (Budget.perm_further fun place _ => readFirst_starts place).trans
    ((Budget.perm_shares turns_nodup fun _ member =>
      place_mem (mem_entries (List.mem_of_mem_take member)).1).append_right _)

theorem perm_names : (g.turns.flatMap g.cameAt).Perm (g.cameWhole ++ g.furtherNames) :=
  (Budget.perm_further fun place _ => cameFirst_starts place).trans
    ((Budget.perm_shares turns_nodup fun _ member => place_mem (Budget.reached_prefix.mem member)).append_right _)

theorem perm_share : (g.turns.flatMap g.share).Perm g.wanted :=
  Budget.perm_shares turns_nodup fun _ asked => place_mem asked

theorem missesAll_iff : g.missesAll place = true ↔ ∀ name ∈ g.share place, g.get name = none := by
  simp [missesAll]

theorem positive_ne : g.limit ≠ 0 := by
  have := g.positive
  omega

theorem cameAt_of_missesAll (missing : g.missesAll place = true) : g.cameAt place = g.share place :=
  Budget.reached_of_missing positive_ne (missesAll_iff.mp missing)

theorem readAt_of_missesAll (missing : g.missesAll place = true) : g.readAt place = [] := by
  rw [readAt, List.take_eq_nil_iff, List.eq_nil_iff_forall_not_mem]
  exact .inr fun _ member => (mem_entries member).2 (missesAll_iff.mp missing _ (mem_entries member).1)

theorem cutAt_of_missesAll (missing : g.missesAll place = true) : g.cutAt place = false := by
  have read := readAt_of_missesAll missing
  rw [Bool.eq_false_iff, cutAt, Ne, Budget.cut_spent, not_or, not_not, not_lt]
  refine ⟨cameAt_of_missesAll missing, ?_⟩
  rw [readAt, List.take_eq_nil_iff] at read
  rcases read with none_ | none_
  · exact absurd none_ positive_ne
  · rw [none_]
    exact Nat.zero_le _

theorem nowhere_missesAll : g.missesAll .nowhere = true := by
  rw [missesAll_iff]
  intro name member
  obtain ⟨asked, away⟩ := List.mem_filter.mp member
  have none_ := g.held_nowhere name asked (of_decide_eq_true away)
  simp [get, Contents.shownUnder, none_]

/-! ### The parts -/

/-- What comes of a reader. -/
def partAt (g : Gathering) (place : Place) : List Export := match place with
  | .here => if g.share .here = [] then []
      else [exportOf g.crates g.settings g.untyped (Budget.spend g.get g.limit (g.share .here))]
  | .nowhere => if g.share .nowhere = [] then [] else [unreachablePart (g.share .nowhere)]
  | .mirror url => [(answered g.crates g.settings g.untyped g.get g.limit (g.share (.mirror url))).1]

/-- What a reader could not be asked about. -/
def unaskedAt (g : Gathering) (place : Place) : List String := match place with
  | .mirror url => (answered g.crates g.settings g.untyped g.get g.limit (g.share (.mirror url))).2
  | _ => []

def merged (g : Gathering) : Export := mergeExports g.crates g.wanted (g.turns.flatMap g.partAt)

/-- The answer, if something is elsewhere. -/
def gathered (g : Gathering) : Gathered :=
  foldParts g.crates g.wanted (g.turns.flatMap g.partAt) (g.turns.flatMap g.unaskedAt)

theorem shownUnder_same {c : Contents} {name : String} (same : c name = g.one name) :
    c.shownUnder g.now g.filter name = g.get name := by
  rw [get, Contents.shownUnder, Contents.shownUnder, same]

theorem mirrorPart_at {url : String} (tidy : ∀ name ∈ g.wanted, g.site.elsewhere name = true → Tidy name)
    (turn : Place.mirror url ∈ g.turns) :
    mirrorPart (g.share (.mirror url)) ((some (exportStixApi g.crates g.settings (g.mirrors url) g.now
      ⟨⟨g.share (.mirror url), none, false⟩, g.filter, some g.limit, g.untyped⟩)).map Reply.received) =
      answered g.crates g.settings g.untyped g.get g.limit (g.share (.mirror url)) := by
  have at_ (name : String) (member : name ∈ g.share (.mirror url)) : name ∈ g.wanted ∧ g.place name = .mirror url := by
    obtain ⟨asked, away⟩ := List.mem_filter.mp member
    exact ⟨asked, of_decide_eq_true away⟩
  refine mirrorPart_eq positive_ne g.bounded (share_mirror_some turn) share_apart ?_ ?_ ?_
  · intro name member
    obtain ⟨asked, away⟩ := at_ name member
    exact tidy name asked (placeOf_mirror.mp away).1
  · intro name member
    obtain ⟨-, away⟩ := at_ name member
    have elsewhere := (placeOf_mirror.mp away).1
    by_contra config
    have internal := isInternal_of_config ((Bool.not_eq_false _).mp config)
    simp [Site.elsewhere, internal] at elsewhere
  · intro name member
    obtain ⟨asked, away⟩ := at_ name member
    exact shownUnder_same (g.held_there name asked url away)

theorem own_here : g.own (g.share .here) =
    exportOf g.crates g.settings g.untyped (Budget.spend g.get g.limit (g.share .here)) := by
  rw [own, exportNamespaces_eq]
  refine congrArg _ (Budget.spend_congr fun name member => ?_)
  obtain ⟨asked, home⟩ := List.mem_filter.mp member
  exact shownUnder_same (g.held_here name asked (of_decide_eq_true home))

theorem gatheredExport_eq (tidy : ∀ name ∈ g.wanted, g.site.elsewhere name = true → Tidy name)
    (away : g.wanted.filter g.site.elsewhere ≠ []) :
    gatheredExport g.crates g.site g.weigh g.own
      (fun url body => some (exportStixApi g.crates g.settings (g.mirrors url) g.now body)) g.wanted g.filter g.limit
      g.untyped = some g.gathered := by
  have asked : (groupedByMirror g.galaxy g.weigh (g.wanted.filter g.site.elsewhere)).1.map (fun group =>
      mirrorPart group.2 ((some (exportStixApi g.crates g.settings (g.mirrors group.1) g.now
        ⟨⟨group.2, none, false⟩, g.filter, some g.limit, g.untyped⟩)).map Reply.received)) =
      ((groupedByMirror g.galaxy g.weigh (g.wanted.filter g.site.elsewhere)).1.map Prod.fst).map fun url =>
        answered g.crates g.settings g.untyped g.get g.limit (g.share (.mirror url)) := by
    rw [groupedByMirror_eq, List.map_map, ← groupedByMirror_eq]
    refine List.map_congr_left fun url member => ?_
    refine mirrorPart_at tidy ?_
    obtain ⟨group, there, rfl⟩ := List.mem_map.mp member
    exact List.mem_cons_of_mem _ (List.mem_cons_of_mem _ (List.mem_map.mpr ⟨group, there, rfl⟩))
  have parts : (if g.share .here = [] then []
        else [g.own (g.share .here)]) ++
      (if g.share .nowhere = [] then [] else [unreachablePart (g.share .nowhere)]) ++
      ((groupedByMirror g.galaxy g.weigh (g.wanted.filter g.site.elsewhere)).1.map Prod.fst).map (fun url =>
        (answered g.crates g.settings g.untyped g.get g.limit (g.share (.mirror url))).1) = g.turns.flatMap g.partAt := by
    rw [own_here, turns, Stix.turns, List.flatMap_cons, List.flatMap_cons, List.flatMap_map, List.append_assoc]
    simp only [partAt, List.map_map, Function.comp_def, ← List.map_eq_flatMap]
  have unasked : ((groupedByMirror g.galaxy g.weigh (g.wanted.filter g.site.elsewhere)).1.map Prod.fst).flatMap (fun url =>
      (answered g.crates g.settings g.untyped g.get g.limit (g.share (.mirror url))).2) = g.turns.flatMap g.unaskedAt := by
    rw [turns, Stix.turns, List.flatMap_cons, List.flatMap_cons, List.flatMap_map, List.flatMap_map]
    rfl
  have here_ : g.wanted.filter g.site.stores.holds = g.share .here := share_here.symm
  have nowhere_ : (groupedByMirror g.galaxy g.weigh (g.wanted.filter g.site.elsewhere)).2 = g.share .nowhere :=
    share_nowhere.symm
  simp only [gatheredExport, if_neg away, g.wired, Option.map_some] at asked ⊢
  rw [asked, here_, nowhere_, List.map_map, List.flatMap_map, gathered, ← parts, ← unasked, List.flatMap_map]
  rfl

/-- The bundles of a reader. -/
def groupsAt (g : Gathering) (place : Place) : List Group :=
  if g.share place = [] ∨ place ≠ .here ∧ g.missesAll place = true then []
  else [groupOf g.settings g.untyped (Budget.spend g.get g.limit (g.share place))]

/-- The headers of the mirrors that answer can be written. -/
def Heard (g : Gathering) : Prop := ∀ place ∈ g.turns, g.missesAll place = false → (∃ url, place = .mirror url) →
  headerValid (joinWith ',' (g.missedAt place)) = true

/-- What the parts of a reader say. -/
structure PartSpec (g : Gathering) (place : Place) (parts : List Export) : Prop where
  exported : (parts.map (·.exported)).sum = (g.readAt place).countP fun e => (g.goesOut e).isSome
  untyped : (parts.map (·.untyped)).sum = (g.readAt place).countP fun e => (g.goesOut e).any (·.fallback)
  namespaces : (parts.map (·.namespaces)).sum = (g.cameAt place).countP fun name => (g.get name).isSome
  truncated : parts.any (·.truncated) = g.cutAt place
  missing : parts.flatMap (·.missing) = g.told place
  skipped : (parts.flatMap (·.skipped)).length =
    if place = .here then (g.readAt .here).countP fun e => (g.goesOut e).isNone else 0
  objects : (parts.flatMap fun part => objectsOf part.bundle) =
    (g.groupsAt place).flatMap fun group => FirstOfEach.keep idOf (group.objects g.crates)

theorem length_goesOut (l : List (String × AttributeView)) :
    (l.filterMap g.goesOut).length = l.countP fun e => (g.goesOut e).isSome := by
  rw [List.length_filterMap_eq_countP]

theorem fallback_goesOut (l : List (String × AttributeView)) :
    (l.filterMap g.goesOut).countP (·.fallback) = l.countP fun e => (g.goesOut e).any (·.fallback) := by
  rw [List.countP_filterMap]
  refine congrArg (List.countP · l) (funext fun e => ?_)
  cases g.goesOut e <;> rfl

/-- A part that says what an export of a reader's share says, but for what is skipped and missing. -/
theorem partSpec_export {part : Export} (some_ : g.groupsAt place ≠ [])
    (like : part = { exportOf g.crates g.settings g.untyped (Budget.spend g.get g.limit (g.share place)) with
      skipped := part.skipped, missing := part.missing })
    (missing : part.missing = g.told place)
    (skipped : part.skipped.length = if place = .here then (g.readAt .here).countP fun e => (g.goesOut e).isNone else 0) :
    PartSpec g place [part] := by
  have there : g.groupsAt place = [groupOf g.settings g.untyped (Budget.spend g.get g.limit (g.share place))] := by
    by_cases none_ : g.share place = [] ∨ place ≠ .here ∧ g.missesAll place = true
    · rw [groupsAt, if_pos none_] at some_
      exact absurd rfl some_
    · rw [groupsAt, if_neg none_]
  rw [exportOf_spend] at like
  refine ⟨?_, ?_, ?_, ?_, by simpa using missing, by simpa using skipped, ?_⟩ <;> rw [like]
  · rw [List.map_singleton, List.sum_singleton]
    exact length_goesOut (g.readAt place)
  · rw [List.map_singleton, List.sum_singleton]
    exact fallback_goesOut (g.readAt place)
  · simp [cameAt]
  · simp [cutAt]
  · simp [there]

theorem told_of_missesAll (missing : g.missesAll place = true) : g.told place = g.share place := by
  have whole : g.missedAt place = g.share place := by
    rw [missedAt, cameAt_of_missesAll missing]
    exact List.filter_eq_self.mpr fun name member => by simp [missesAll_iff.mp missing name member]
  cases place <;> simp [told, missing, whole]

/-- A part that has nothing. -/
theorem partSpec_unreachable (missing : g.missesAll place = true) (away : place ≠ .here) :
    PartSpec g place [unreachablePart (g.share place)] where
  exported := by simp [unreachablePart, readAt_of_missesAll missing]
  untyped := by simp [unreachablePart, readAt_of_missesAll missing]
  namespaces := by
    have none_ := missesAll_iff.mp missing
    rw [cameAt_of_missesAll missing, List.countP_eq_zero.mpr fun name member => by simp [none_ name member]]
    rfl
  truncated := by simp [unreachablePart, cutAt_of_missesAll missing]
  missing := by simp [unreachablePart, told_of_missesAll missing]
  skipped := by simp [unreachablePart, away]
  objects := by simp [unreachablePart, groupsAt, missing, away, objectsOf]

theorem partSpec_nothing (none_ : g.share place = []) (shape : ¬ ∃ url, place = .mirror url) : PartSpec g place [] := by
  have missing : g.missesAll place = true := by simp [missesAll, none_]
  have came : g.cameAt place = [] := (cameAt_of_missesAll missing).trans none_
  refine ⟨?_, ?_, ?_, ?_, ?_, ?_, ?_⟩
  · simp [readAt_of_missesAll missing]
  · simp [readAt_of_missesAll missing]
  · simp [came]
  · simp [cutAt_of_missesAll missing]
  · cases place with
    | mirror url => exact absurd ⟨url, rfl⟩ shape
    | here | nowhere => simp [told, missedAt, came]
  · cases place <;> simp_all [readAt_of_missesAll missing]
  · simp [groupsAt, none_]

theorem answered_at (url : String) :
    answered g.crates g.settings g.untyped g.get g.limit (g.share (.mirror url)) =
      if g.missesAll (.mirror url) then (unreachablePart (g.share (.mirror url)), [])
      else if headerValid (joinWith ',' (g.missedAt (.mirror url))) then
        ({ exportOf g.crates g.settings g.untyped (Budget.spend g.get g.limit (g.share (.mirror url))) with
          skipped := [], missing := carried (g.missedAt (.mirror url)) }, [])
      else (unreachablePart (g.share (.mirror url)), g.share (.mirror url)) := rfl

theorem partSpec (heard : g.Heard) (turn : place ∈ g.turns) : PartSpec g place (g.partAt place) := by
  cases place with
  | here =>
      by_cases none_ : g.share .here = []
      · rw [partAt, if_pos none_]
        exact partSpec_nothing none_ (by simp)
      · rw [partAt, if_neg none_]
        refine partSpec_export (by simp [groupsAt, none_]) rfl ?_ ?_
        · rw [exportOf_spend]
          rfl
        · rw [exportOf_spend]
          rw [if_pos rfl]
          exact skipped_spend
  | nowhere =>
      by_cases none_ : g.share .nowhere = []
      · rw [partAt, if_pos none_]
        exact partSpec_nothing none_ (by simp)
      · rw [partAt, if_neg none_]
        exact partSpec_unreachable nowhere_missesAll (by simp)
  | mirror url =>
      have some_ : g.share (.mirror url) ≠ [] := share_mirror_some turn
      rw [partAt, answered_at]
      by_cases missing : g.missesAll (.mirror url) = true
      · rw [if_pos missing]
        exact partSpec_unreachable missing (by simp)
      · have valid := heard _ turn (by simpa using missing) ⟨url, rfl⟩
        rw [if_neg missing, if_pos valid]
        exact partSpec_export (by simp [groupsAt, some_, missing]) rfl (by simp [told, missing]) (by simp)

/-! ### The parts together -/

theorem sum_parts {α : Type} (f : Export → Nat) (q : α → Bool) (parts : Place → List Export) (read : Place → List α)
    (places : List Place) (each : ∀ place ∈ places, ((parts place).map f).sum = (read place).countP q) :
    ((places.flatMap parts).map f).sum = (places.flatMap read).countP q := by
  induction places with
  | nil => rfl
  | cons place rest ih =>
      rw [List.flatMap_cons, List.flatMap_cons, List.map_append, List.sum_append, List.countP_append,
        each place List.mem_cons_self, ih fun other member => each other (List.mem_cons_of_mem _ member)]

theorem merged_exported (heard : g.Heard) : g.merged.exported =
    (g.readWhole.countP fun e => (g.goesOut e).isSome) + g.furtherValues.countP fun e => (g.goesOut e).isSome := by
  rw [← List.countP_append, ← perm_values.countP_eq]
  exact sum_parts _ _ _ _ _ fun _ turn => (partSpec heard turn).exported

theorem merged_untyped (heard : g.Heard) : g.merged.untyped =
    (g.readWhole.countP fun e => (g.goesOut e).any (·.fallback)) +
      g.furtherValues.countP fun e => (g.goesOut e).any (·.fallback) := by
  rw [← List.countP_append, ← perm_values.countP_eq]
  exact sum_parts _ _ _ _ _ fun _ turn => (partSpec heard turn).untyped

theorem merged_namespaces (heard : g.Heard) : g.merged.namespaces =
    (g.cameWhole.countP fun name => (g.get name).isSome) + g.furtherNames.countP fun name => (g.get name).isSome := by
  rw [← List.countP_append, ← perm_names.countP_eq]
  exact sum_parts _ _ _ _ _ fun _ turn => (partSpec heard turn).namespaces

theorem merged_truncated (heard : g.Heard) : g.merged.truncated = g.turns.any g.cutAt := by
  have each (places : List Place) (turns : ∀ place ∈ places, place ∈ g.turns) :
      ((places.flatMap g.partAt).any (·.truncated)) = places.any g.cutAt := by
    induction places with
    | nil => rfl
    | cons place rest ih =>
        rw [List.flatMap_cons, List.any_append, List.any_cons, (partSpec heard (turns place List.mem_cons_self)).truncated,
          ih fun other member => turns other (List.mem_cons_of_mem _ member)]
  exact each g.turns fun _ turn => turn

theorem merged_missing (heard : g.Heard) : g.merged.missing = (g.turns.flatMap g.told).foldl pushNew [] := by
  have said : (g.turns.flatMap g.partAt).flatMap (·.missing) = g.turns.flatMap g.told := by
    rw [List.flatMap_assoc]
    exact List.flatMap_congr fun _ turn => (partSpec heard turn).missing
  rw [← said]
  rfl

theorem merged_skipped (heard : g.Heard) : g.merged.skipped.length =
    (g.readAt .here).countP fun e => (g.goesOut e).isNone := by
  have said : ((g.turns.flatMap g.partAt).flatMap (·.skipped)).length = (g.turns.map fun place =>
      if place = .here then (g.readAt .here).countP fun e => (g.goesOut e).isNone else 0).sum := by
    rw [List.flatMap_assoc, List.length_flatMap]
    exact congrArg _ (List.map_congr_left fun _ turn => (partSpec heard turn).skipped)
  refine said.trans ?_
  rw [turns, Stix.turns, List.map_cons, List.map_cons, List.map_map]
  simp [Function.comp_def]

theorem merged_objects (heard : g.Heard) :
    objectsOf g.merged.bundle = allObjects g.crates (g.turns.flatMap g.groupsAt) := by
  rw [merged, mergeExports, objectsOf_bundleJson, List.flatMap_assoc,
    List.flatMap_congr fun _ turn => (partSpec heard turn).objects, ← List.flatMap_assoc]
  have each : (g.turns.flatMap g.groupsAt).flatMap (fun group => FirstOfEach.keep idOf (group.objects g.crates)) =
      ((g.turns.flatMap g.groupsAt).map (Group.objects g.crates)).flatMap (FirstOfEach.keep idOf) := by
    rw [List.flatMap_map]
  rw [each, FirstOfEach.keep_flatMap_keep, ← List.flatMap_def, allObjects]

theorem allShown_groups : allShown g.crates (g.turns.flatMap g.groupsAt) =
    g.turns.flatMap fun place => (g.readAt place).filterMap g.goesOut := by
  rw [allShown, List.flatMap_assoc]
  refine List.flatMap_congr fun place _ => ?_
  rw [groupsAt]
  split
  · rename_i none_
    have missing : g.missesAll place = true := by
      rcases none_ with empty | ⟨-, missing⟩
      · simp [missesAll, empty]
      · exact missing
    rw [readAt_of_missesAll missing]
    rfl
  · rw [List.flatMap_singleton]
    exact shown_spend

theorem whole_eq : g.whole = exportOf g.crates g.settings g.untyped (Budget.spend g.get g.limit g.wanted) := exportNamespaces_eq ..

theorem whole_objects : objectsOf g.whole.bundle =
    allObjects g.crates [groupOf g.settings g.untyped (Budget.spend g.get g.limit g.wanted)] := by
  rw [whole_eq, exportOf_spend, objectsOf_bundleJson, allObjects, List.flatMap_singleton]

theorem whole_missing : g.whole.missing = g.cameWhole.filter fun name => (g.get name).isNone := by
  rw [whole_eq, exportOf_spend]
  rfl

/-- Where a holder is cut short, so is one server. -/
theorem cutWhole_of_cutAt (cut : g.cutAt place = true) : g.cutWhole = true := by
  by_contra uncut
  rw [cutWhole, Budget.cut_spent, not_or, not_not, not_lt] at uncut
  obtain ⟨came, fits⟩ := uncut
  rw [cutAt, Budget.cut_spent] at cut
  rcases cut with short | long
  · refine short (Budget.reached_prefix.eq_of_length (le_antisymm Budget.reached_prefix.length_le ?_))
    have first := (cameFirst_starts (g := g) place).length_le
    rwa [cameFirst, cameWhole, came] at first
  · rw [share_eq, Budget.entries_filter] at long
    have fewer := List.length_filter_le (fun e => decide (g.place e.1 = place)) (Budget.entries g.get g.wanted)
    omega

theorem groups_some (there : ∃ name ∈ g.wanted, g.get name ≠ none) : g.turns.flatMap g.groupsAt ≠ [] := by
  obtain ⟨name, asked, held⟩ := there
  have member : name ∈ g.share (g.place name) := List.mem_filter.mpr ⟨asked, decide_eq_true rfl⟩
  have some_ : g.groupsAt (g.place name) ≠ [] := by
    rw [groupsAt, if_neg]
    · exact List.cons_ne_nil _ _
    · rintro (empty | ⟨-, missing⟩)
      · rw [empty] at member
        cases member
      · exact held (missesAll_iff.mp missing name member)
  obtain ⟨group, rest, same⟩ := List.exists_cons_of_ne_nil some_
  exact List.ne_nil_of_mem (List.mem_flatMap.mpr ⟨_, place_mem asked, same ▸ List.mem_cons_self⟩)

/-! ### When the answer is that of one server -/

theorem nodup_foldl_pushNew {known texts : List String} (apart : known.Nodup) : (texts.foldl pushNew known).Nodup := by
  induction texts generalizing known with
  | nil => exact apart
  | cons text rest ih =>
      refine ih ?_
      rw [pushNew]
      split
      · exact apart
      · rename_i fresh
        exact List.nodup_append.mpr ⟨apart, List.nodup_singleton _, fun a member b last => by
          rw [List.mem_singleton.mp last]
          rintro rfl
          exact fresh member⟩

theorem exported_iff (heard : g.Heard) :
    g.merged.exported = g.whole.exported ↔ ∀ e ∈ g.furtherValues, g.goesOut e = none := by
  have whole : g.whole.exported = g.readWhole.countP fun e => (g.goesOut e).isSome := by
    rw [whole_eq, exportOf_spend]
    exact length_goesOut _
  rw [merged_exported heard, whole, Nat.add_eq_left, List.countP_eq_zero]
  simp

theorem untyped_same (heard : g.Heard) (values : ∀ e ∈ g.furtherValues, g.goesOut e = none) :
    g.merged.untyped = g.whole.untyped := by
  have whole : g.whole.untyped = g.readWhole.countP fun e => (g.goesOut e).any (·.fallback) := by
    rw [whole_eq, exportOf_spend]
    exact fallback_goesOut _
  rw [merged_untyped heard, whole, Nat.add_eq_left, List.countP_eq_zero]
  exact fun e member => by simp [values e member]

theorem namespaces_iff (heard : g.Heard) :
    g.merged.namespaces = g.whole.namespaces ↔ ∀ name ∈ g.furtherNames, g.get name = none := by
  have whole : g.whole.namespaces = g.cameWhole.countP fun name => (g.get name).isSome := by
    rw [whole_eq, exportOf_spend]
    rfl
  rw [merged_namespaces heard, whole, Nat.add_eq_left, List.countP_eq_zero]
  simp

theorem truncated_iff (heard : g.Heard) : g.merged.truncated = g.whole.truncated ↔
    (g.cutWhole = true → ∃ place ∈ g.turns, g.cutAt place = true) := by
  have whole : g.whole.truncated = g.cutWhole := by
    rw [whole_eq]
    rfl
  rw [merged_truncated heard, whole, Bool.eq_iff_iff, List.any_eq_true]
  exact ⟨fun same => same.mpr, fun cut => ⟨fun ⟨_, _, cut⟩ => cutWhole_of_cutAt cut, cut⟩⟩

theorem skipped_iff (heard : g.Heard) : g.merged.skipped.length = g.whole.skipped.length ↔
    (g.readWhole.countP fun e => (g.goesOut e).isNone && decide (g.place e.1 ≠ .here)) =
      ((g.readAt .here).drop (g.readFirst .here).length).countP fun e => (g.goesOut e).isNone := by
  have whole : g.whole.skipped.length = g.readWhole.countP fun e => (g.goesOut e).isNone := by
    rw [whole_eq, exportOf_spend]
    exact skipped_spend
  obtain ⟨more, same⟩ := readFirst_starts (g := g) .here
  have parted : (g.readWhole.countP fun e => (g.goesOut e).isNone) =
      ((g.readFirst .here).countP fun e => (g.goesOut e).isNone) +
        g.readWhole.countP fun e => (g.goesOut e).isNone && decide (g.place e.1 ≠ .here) := by
    rw [List.countP_eq_countP_filter_add _ _ fun e => decide (g.place e.1 = .here), List.countP_filter, List.countP_filter,
      readFirst, List.countP_filter]
    simp
  rw [merged_skipped heard, whole, parted, ← same, List.countP_append, List.drop_left, Nat.add_left_cancel_iff, eq_comm]

theorem missing_iff (heard : g.Heard) : g.merged.missing.Perm g.whole.missing ↔
    ∀ name, name ∈ g.turns.flatMap g.told ↔ name ∈ g.cameWhole.filter fun name => (g.get name).isNone := by
  have apart : (g.cameWhole.filter fun name => (g.get name).isNone).Nodup :=
    (g.apart.sublist Budget.reached_prefix.sublist).filter _
  rw [merged_missing heard, whole_missing, List.perm_ext_iff_of_nodup (nodup_foldl_pushNew List.nodup_nil) apart]
  simp [mem_foldl_pushNew]

theorem objects_iff (heard : g.Heard) (there : ∃ name ∈ g.wanted, g.get name ≠ none)
    (values : ∀ e ∈ g.furtherValues, g.goesOut e = none) :
    (∀ o, o ∈ objectsOf g.merged.bundle ↔ o ∈ objectsOf g.whole.bundle) ↔
      SameFirsts g.crates g.settings.exportAs (g.readWhole.filterMap g.goesOut)
        (g.turns.flatMap fun place => (g.readAt place).filterMap g.goesOut) := by
  have shown : allShown g.crates [groupOf g.settings g.untyped (Budget.spend g.get g.limit g.wanted)] =
      g.readWhole.filterMap g.goesOut := (allShown_one _).trans shown_spend
  have settings (group : Group) (member : group ∈ g.turns.flatMap g.groupsAt) : group.settings = g.settings.exportAs := by
    obtain ⟨place, -, member⟩ := List.mem_flatMap.mp member
    rw [groupsAt] at member
    split at member
    · cases member
    · rw [List.mem_singleton.mp member]
      rfl
  have order : (g.turns.flatMap fun place => (g.readAt place).filterMap g.goesOut).Perm (g.readWhole.filterMap g.goesOut) := by
    have out : g.furtherValues.filterMap g.goesOut = [] := List.filterMap_eq_nil_iff.mpr values
    have all := (perm_values (g := g)).filterMap g.goesOut
    rwa [List.filterMap_flatMap, List.filterMap_append, out, List.append_nil] at all
  rw [merged_objects heard, whole_objects, same_objects_iff settings (by simp [groupOf]) (groups_some there) (by simp), shown,
    allShown_groups]
  · exact ⟨SameFirsts.symm, SameFirsts.symm⟩
  · rw [shown, allShown_groups]
    exact fun m => ⟨fun ⟨e, member, asked⟩ => ⟨e, order.mem_iff.mp member, asked⟩,
      fun ⟨e, member, asked⟩ => ⟨e, order.mem_iff.mpr member, asked⟩⟩

theorem same_iff (heard : g.Heard) (there : ∃ name ∈ g.wanted, g.get name ≠ none) : Same g.merged g.whole ↔ g.Seamless := by
  constructor
  · intro same
    have values := (exported_iff heard).mp same.exported
    exact ⟨values, (namespaces_iff heard).mp same.namespaces, (truncated_iff heard).mp same.truncated,
      (skipped_iff heard).mp same.skipped, heard, (missing_iff heard).mp same.missing,
      (objects_iff heard there values).mp same.objects⟩
  · intro seamless
    exact ⟨(objects_iff heard there seamless.values).mpr seamless.firsts, (exported_iff heard).mpr seamless.values,
      (skipped_iff heard).mpr seamless.skipped, untyped_same heard seamless.values,
      (namespaces_iff heard).mpr seamless.names, (truncated_iff heard).mpr seamless.cut,
      (missing_iff heard).mpr seamless.missing⟩

theorem missesWhole (none_ : ∀ name ∈ g.wanted, g.get name = none) : g.cameWhole = g.wanted ∧ g.readWhole = [] ∧
    g.cutWhole = false ∧ ∀ place, g.missesAll place = true := by
  have came : g.cameWhole = g.wanted := Budget.reached_of_missing positive_ne none_
  have entries : Budget.entries g.get g.wanted = [] := List.eq_nil_iff_forall_not_mem.mpr fun _ member =>
    (mem_entries member).2 (none_ _ (mem_entries member).1)
  refine ⟨came, by rw [readWhole, entries, List.take_nil], ?_, fun place => ?_⟩
  · rw [Bool.eq_false_iff, cutWhole, Ne, Budget.cut_spent, not_or, not_not, not_lt, entries]
    exact ⟨came, Nat.zero_le _⟩
  · exact missesAll_iff.mpr fun name member => none_ name (List.mem_filter.mp member).1

/-- Where nothing asked for is there, no holder shows. -/
theorem seamless_of_missing (none_ : ∀ name ∈ g.wanted, g.get name = none) : g.Seamless := by
  obtain ⟨came, read, cut, missing⟩ := missesWhole none_
  have at_ (place : Place) : g.readAt place = [] := readAt_of_missesAll (missing place)
  have values : g.furtherValues = [] := by
    simp [furtherValues, Budget.further, at_]
  have told : g.turns.flatMap g.told = g.turns.flatMap g.share :=
    List.flatMap_congr fun place _ => told_of_missesAll (missing place)
  refine ⟨by simp [values], ?_, by simp [cut], by simp [read, at_], by simp [missing], ?_, ?_⟩
  · intro name member
    obtain ⟨place, -, further⟩ := List.mem_flatMap.mp member
    have there := List.mem_of_mem_drop further
    rw [cameAt_of_missesAll (missing place)] at there
    exact none_ name (List.mem_filter.mp there).1
  · intro name
    rw [told, came, perm_share.mem_iff]
    simpa using none_ name
  · have nothing : (g.turns.flatMap fun place => (g.readAt place).filterMap g.goesOut) = [] := by simp [at_]
    rw [nothing, read]
    exact .refl []

/-- Where everything is here, there is no other holder. -/
theorem seamless_of_home (home : g.wanted.filter g.site.elsewhere = []) : g.Seamless := by
  have here_ (name : String) (asked : name ∈ g.wanted) : g.place name = .here := by
    have held := List.filter_eq_nil_iff.mp home name asked
    rw [elsewhere_eq, Bool.not_eq_true, Bool.not_eq_false'] at held
    exact placeOf_here.mpr held
  have turns : g.turns = [.here, .nowhere] := by
    rw [Gathering.turns, Stix.turns, home]
    rfl
  have whole : g.share .here = g.wanted := List.filter_eq_self.mpr fun name asked => decide_eq_true (here_ name asked)
  have none_ : g.share .nowhere = [] := List.filter_eq_nil_iff.mpr fun name asked => by
    change ¬ decide (g.place name = .nowhere) = true
    simp [here_ name asked]
  have missing : g.missesAll .nowhere = true := nowhere_missesAll
  have came : g.cameAt .nowhere = [] := (cameAt_of_missesAll missing).trans none_
  have read : g.readAt .here = g.readWhole := by rw [readAt, whole, readWhole]
  have first : g.readFirst .here = g.readWhole := List.filter_eq_self.mpr fun e member =>
    decide_eq_true (here_ e.1 (mem_entries (List.mem_of_mem_take member)).1)
  have names : g.cameAt .here = g.cameWhole := by rw [cameAt, whole, cameWhole]
  have names' : g.cameFirst .here = g.cameWhole := List.filter_eq_self.mpr fun name member =>
    decide_eq_true (here_ name (Budget.reached_prefix.mem member))
  refine ⟨?_, ?_, ?_, ?_, ?_, ?_, ?_⟩
  · simp [furtherValues, Budget.further, turns, read, first, readAt_of_missesAll missing]
  · simp [furtherNames, Budget.further, turns, names, names', came]
  · exact fun cut => ⟨.here, by simp [turns], by rwa [cutAt, whole]⟩
  · have away : (g.readWhole.countP fun e => (g.goesOut e).isNone && decide (g.place e.1 ≠ .here)) = 0 :=
      List.countP_eq_zero.mpr fun e member => by simp [here_ e.1 (mem_entries (List.mem_of_mem_take member)).1]
    rw [away, read, first, List.drop_length, List.countP_nil]
  · simp [turns]
  · simp [turns, told, missedAt, names, came]
  · have same : (g.turns.flatMap fun place => (g.readAt place).filterMap g.goesOut) = g.readWhole.filterMap g.goesOut := by
      simp [turns, read, readAt_of_missesAll missing]
    rw [same]
    exact .refl _

theorem whole_missing_all : g.whole.missing.length = g.wanted.length ↔ ∀ name ∈ g.wanted, g.get name = none := by
  rw [whole_missing]
  exact (all_missed positive_ne).trans (by simp)

theorem single_eq : g.single = if g.whole.missing.length = g.wanted.length then .notFound else .bundle g.whole := rfl

theorem gathered_eq : g.gathered = if g.merged.exported = 0 && g.merged.missing.length = g.wanted.length then
    if g.turns.flatMap g.unaskedAt = [] then .notFound else .badGateway (g.turns.flatMap g.unaskedAt)
  else .bundle g.merged := rfl

/-- Among names some of which are there, only the same bundle is alike. -/
theorem alike_iff_same (there : ∃ name ∈ g.wanted, g.get name ≠ none) :
    Alike g.gathered g.single ↔ Same g.merged g.whole := by
  have some_ : g.whole.missing.length ≠ g.wanted.length := by
    rw [Ne, whole_missing_all]
    push Not
    exact there
  rw [single_eq, if_neg some_, gathered_eq]
  split
  · rename_i nothing
    rw [Bool.and_eq_true, decide_eq_true_iff, decide_eq_true_iff] at nothing
    have other : ¬ Same g.merged g.whole := fun same => some_ (same.missing.length_eq.symm.trans nothing.2)
    split <;> simp [Alike, other]
  · exact Iff.rfl

/-- A mirror whose header cannot be written leaves a trace. -/
theorem heard_of_same (same : Same g.merged g.whole) : g.Heard := by
  rintro place turn missing ⟨url, rfl⟩
  by_contra invalid
  obtain ⟨name, member, held⟩ : ∃ name ∈ g.share (.mirror url), g.get name ≠ none := by
    by_contra none_
    push Not at none_
    rw [missesAll_iff.mpr none_] at missing
    cases missing
  have part : g.partAt (.mirror url) = [unreachablePart (g.share (.mirror url))] := by
    rw [partAt, answered_at, missing, if_neg invalid]
    rfl
  have reported : name ∈ g.merged.missing := by
    refine mem_foldl_pushNew.mpr (.inr ?_)
    rw [List.flatMap_assoc]
    exact List.mem_flatMap.mpr ⟨_, turn, by simpa [part, unreachablePart] using member⟩
  have missed := same.missing.mem_iff.mp reported
  rw [whole_missing] at missed
  exact held (by simpa using (List.mem_filter.mp missed).2)

/-- Of names none of which is there, both say so. -/
theorem alike_of_missing (none_ : ∀ name ∈ g.wanted, g.get name = none) : Alike g.gathered g.single := by
  have seamless := seamless_of_missing none_
  obtain ⟨-, read, -, missing⟩ := missesWhole none_
  have all : g.whole.missing.length = g.wanted.length := whole_missing_all.mpr none_
  have exported : g.merged.exported = 0 := by
    rw [(exported_iff seamless.headers).mpr seamless.values, whole_eq, exportOf_spend]
    exact (length_goesOut g.readWhole).trans (by simp [read])
  have missed : g.merged.missing.length = g.wanted.length :=
    ((missing_iff seamless.headers).mpr seamless.missing).length_eq.trans all
  have asked : g.turns.flatMap g.unaskedAt = [] := List.flatMap_eq_nil_iff.mpr fun place _ => by
    cases place <;> simp [unaskedAt, answered_at, missing]
  have found : (g.merged.exported = 0 && g.merged.missing.length = g.wanted.length : Bool) = true := by
    simp [exported, missed]
  rw [single_eq, if_pos all, gathered_eq, if_pos found, if_pos asked]
  trivial

end Gathering

/-- One address in each of two feeds, each feed at a mirror of its own. -/
def feedMirrors : Galaxy where
  peers := [⟨"https://a", "key-a", ⟨["feeds/a"], false⟩, true⟩, ⟨"https://b", "key-b", ⟨["feeds/b"], false⟩, true⟩]
  maxHops := defaultMaxHops
  down _ := false
  catchingUp _ := false
  apart := by decide
  positive := defaultMaxHops_pos

def address (value : String) : Values :=
  OrderedMap.empty.insert value { Attribute.new value with
    counts := OrderedMap.empty.insert "a" 1, tags := "stix-type:ipv4-addr" }

def feeds : Contents := fun name =>
  if name = "feeds/a" then some (address "1.2.3.4") else if name = "feeds/b" then some (address "5.6.7.8") else none

/-- A router that is asked for one value of the two. -/
def oneOfTwo : Gathering where
  crates := Crates.sample
  settings := ⟨⟨[], none⟩, .default⟩
  site := ⟨⟨[], false⟩, "router", false, ⟨∅⟩, some feedMirrors⟩
  galaxy := feedMirrors
  weigh _ _ := 0
  now := .unixEpoch
  one := feeds
  here _ := none
  mirrors _ := feeds
  wanted := ["feeds/a", "feeds/b"]
  filter := ""
  limit := 1
  untyped := .skip
  wired := rfl
  held_here := by decide
  held_there := fun _ _ _ _ => rfl
  held_nowhere := by decide
  apart := by decide
  some_ := by decide
  positive := by decide
  bounded := by decide

/-- Each mirror exports its one value, and one server would export one of the two. -/
theorem oneOfTwo_exported : oneOfTwo.answer.exported = some 2 ∧ oneOfTwo.single.exported = some 1 :=
  ⟨by decide +kernel, by decide +kernel⟩

theorem oneOfTwo_unlike : ¬ Alike oneOfTwo.answer oneOfTwo.single := by
  intro alike
  have same := alike.exported
  rw [oneOfTwo_exported.1, oneOfTwo_exported.2] at same
  cases same

end Stix

end SightingDB
