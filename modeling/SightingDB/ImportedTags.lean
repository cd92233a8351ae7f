import SightingDB.Misp
import SightingDB.StoredTags
import SightingDB.RequestPaths

/-!
The tags that the importers give to a sighting, once they are stored. Most texts of a feed are made
safe before they become part of a tag; the type and the event id of an attribute, the id of an
indicator, the level of a marking that a bundle defines and the type of an observable are not.
-/
namespace SightingDB

/-- What is stored of a sighting's tags is these tags and no others. -/
def Stix.Sighting.Whole (s : Stix.Sighting) : Prop := tagSet (storedTags s.tags) = Recording.tagsMeant s.tags

theorem Stix.Sighting.whole_iff {s : Stix.Sighting} : s.Whole ↔ ∀ tag ∈ s.tags, ',' ∉ tag.toList := by
  rw [Whole, storedTags_eq, Recording.tagSet_stored_iff]

theorem whole_append {front rest : String} (whole : ',' ∉ front.toList) :
    ',' ∉ (front ++ rest).toList ↔ ',' ∉ rest.toList := by
  simp [whole]

theorem sanitizeTag_whole (tag : String) : ',' ∉ (Stix.sanitizeTag tag).toList := by
  rw [Stix.sanitizeTag, replaceChar, String.toList_ofList, List.mem_flatMap]
  rintro ⟨c, -, inside⟩
  split at inside
  · simp at inside
  · rename_i other
    exact other (List.mem_singleton.mp inside).symm

/-! ## MISP -/

namespace Misp

theorem tagNames_whole {node : Json} {tag : String} (member : tag ∈ tagNames node) : ',' ∉ tag.toList := by
  rw [tagNames] at member
  split at member
  · obtain ⟨name, -, rfl⟩ := List.mem_map.mp member
    exact sanitizeTag_whole name
  · cases member

theorem contextOf_whole {message : Json} {tag : String} (member : tag ∈ (contextOf message).tags) : ',' ∉ tag.toList := by
  rw [contextOf] at member
  cases event : message.get "Event" with
  | none =>
      rw [event] at member
      cases member
  | some node =>
      rw [event] at member
      exact @tagNames_whole node _ member

theorem stixTypeForMisp_whole {mispType stixType : String} (known : stixTypeForMisp mispType = some stixType) :
    ',' ∉ stixType.toList := by
  obtain ⟨arm, found, rfl⟩ := Option.map_eq_some_iff.mp known
  have table : ∀ arm ∈ stixTypes, ',' ∉ arm.2.toList := by decide
  exact table arm (List.mem_of_find?_eq_some found)

variable {attr : Json} {mispType : String} {context : EventContext}

/-- What is said of an attribute holds no comma exactly when its type and its event id hold none. -/
theorem tagsOf_whole (inherited : ∀ tag ∈ context.tags, ',' ∉ tag.toList) :
    (∀ tag ∈ tagsOf attr mispType context, ',' ∉ tag.toList) ↔
      ',' ∉ mispType.toList ∧ ∀ event, eventOf attr context = some event → ',' ∉ event.toList := by
  constructor
  · intro whole
    refine ⟨?_, fun event known => ?_⟩
    · have typed := whole _ (mem_tagsOf.mpr (.inl (mem_described.mpr (.inl rfl))))
      exact (whole_append (by decide)).mp typed
    · have named := whole _ (mem_tagsOf.mpr (.inl (mem_described.mpr (.inr (.inr (.inr (.inl ⟨event, known, rfl⟩)))))))
      exact (whole_append (by decide)).mp named
  · rintro ⟨typed, named⟩ tag member
    rcases mem_tagsOf.mp member with said | own | passed
    · rcases mem_described.mp said with rfl | ⟨_, known, rfl⟩ | ⟨_, _, rfl⟩ | ⟨_, known, rfl⟩ | ⟨_, _, rfl⟩
      · exact (whole_append (by decide)).mpr typed
      · exact (whole_append (by decide)).mpr (stixTypeForMisp_whole known)
      · exact (whole_append (by decide)).mpr (sanitizeTag_whole _)
      · exact (whole_append (by decide)).mpr (named _ known)
      · exact (whole_append (by decide)).mpr (sanitizeTag_whole _)
    · exact tagNames_whole own
    · exact inherited tag (FirstOfEach.pass_sublist.mem passed)

/-- On a digest the event id is left out. -/
theorem hashedTags_whole (inherited : ∀ tag ∈ context.tags, ',' ∉ tag.toList) :
    (∀ tag ∈ hashedTags (tagsOf attr mispType context), ',' ∉ tag.toList) ↔ ',' ∉ mispType.toList := by
  constructor
  · intro whole
    have typed := whole ("misp-type:" ++ mispType) (mem_hashedTags.mpr
      ⟨mem_tagsOf.mpr (.inl (mem_described.mpr (.inl rfl))), revealing_append (by decide)⟩)
    exact (whole_append (by decide)).mp typed
  · intro typed tag member
    obtain ⟨there, hidden⟩ := mem_hashedTags.mp member
    rcases mem_tagsOf.mp there with said | own | passed
    · rcases mem_described.mp said with rfl | ⟨_, known, rfl⟩ | ⟨_, _, rfl⟩ | ⟨_, known, rfl⟩ | ⟨_, _, rfl⟩
      · exact (whole_append (by decide)).mpr typed
      · exact (whole_append (by decide)).mpr (stixTypeForMisp_whole known)
      · exact (whole_append (by decide)).mpr (sanitizeTag_whole _)
      · exact absurd ((@revealing_family "misp-event:" (by decide) _).symm.trans hidden) (by decide)
      · exact (whole_append (by decide)).mpr (sanitizeTag_whole _)
    · exact tagNames_whole own
    · exact inherited tag (FirstOfEach.pass_sublist.mem passed)

theorem attribute_whole {sha256Hex : String → String} {mapping : Mapping}
    (inherited : ∀ tag ∈ context.tags, ',' ∉ tag.toList) :
    (∀ s ∈ attributeToSightings sha256Hex mapping context attr, s.Whole) ↔
      ∀ mispType value, worth mapping attr = some (mispType, value) →
        ((mapping.plain mispType).isSome ∨ mapping.hashedNamespace.isSome → ',' ∉ mispType.toList) ∧
        ((mapping.plain mispType).isSome → ∀ event, eventOf attr context = some event → ',' ∉ event.toList) := by
  simp only [mem_attributeToSightings, or_imp, forall_and, plainSighting_eq_some, digestSighting_eq_some,
    Option.isSome_iff_exists, Stix.Sighting.whole_iff]
  constructor
  · rintro ⟨plain, digest⟩
    refine ⟨⟨?_, ?_⟩, ?_⟩
    · rintro mispType value known ⟨name, there⟩
      exact ((tagsOf_whole inherited).mp (plain _ ⟨mispType, value, name, known, there, rfl⟩)).1
    · rintro mispType value known ⟨name, there⟩
      exact (hashedTags_whole inherited).mp (digest _ ⟨mispType, value, name, known, there, rfl⟩)
    · rintro mispType value known ⟨name, there⟩
      exact ((tagsOf_whole inherited).mp (plain _ ⟨mispType, value, name, known, there, rfl⟩)).2
  · rintro ⟨⟨typed, typed'⟩, named⟩
    constructor
    · rintro s ⟨mispType, value, name, known, there, rfl⟩
      exact (tagsOf_whole inherited).mpr ⟨typed mispType value known ⟨name, there⟩, named mispType value known ⟨name, there⟩⟩
    · rintro s ⟨mispType, value, name, known, there, rfl⟩
      exact (hashedTags_whole inherited).mpr (typed' mispType value known ⟨name, there⟩)

end Misp

/-! ## STIX -/

namespace Stix

section

variable (objects : List Json)

/-- The level in a marking that the bundle defines itself, as it is written there. -/
def ownLevel (ref : String) : Option String :=
  if (tlpOfId ref).isSome then none
  else (byId objects ref).bind fun marking =>
    if marking.getStr "definition_type" = some "tlp" then ((marking.get "definition").bind (·.get "tlp")).bind Json.asStr
    else none

/-- The indicator that a sighting refers to. -/
def indicatorOf (sighting : Json) : Option Json :=
  ((sighting.getStr "sighting_of_ref").bind (byId objects)).filter fun target => target.getStr "type" = some "indicator"

/-- The values that an object is read for. -/
def valuesOf (object : Json) : List Observable :=
  if object.getStr "type" = some "sighting" then (target objects object).2 ++
    ((textsOf object "observed_data_refs").filterMap (byId objects)).flatMap (observablesOf objects)
  else if object.getStr "type" = some "observed-data" then observablesOf objects object
  else if object.getStr "type" = some "indicator" ∧ (object.getStr "id").getD "" ∉ sighted objects then
    ((object.getStr "pattern").map fromPattern).getD []
  else []

/-- The indicators that say something about the values of an object. -/
def indicatorsOf (object : Json) : List Json :=
  if object.getStr "type" = some "sighting" then (indicatorOf objects object).toList
  else if object.getStr "type" = some "indicator" then [object] else []

/-- No text that is copied as it is into what is said about an object's values holds a comma. -/
structure Plainly (object : Json) : Prop where
  levels : ∀ source ∈ object :: indicatorsOf objects object, ∀ ref ∈ textsOf source "object_marking_refs",
    ∀ level, ownLevel objects ref = some level → ',' ∉ level.toList
  ids : ∀ indicator ∈ indicatorsOf objects object, ∀ id, indicator.getStr "id" = some id → ',' ∉ id.toList

end

variable {objects : List Json}

theorem tlpOfId_whole {ref level : String} (known : tlpOfId ref = some level) : ',' ∉ level.toList := by
  obtain ⟨entry, found, rfl⟩ := Option.map_eq_some_iff.mp known
  have table : ∀ entry ∈ tlp, ',' ∉ entry.1.toList := by decide
  exact table entry (List.mem_of_find?_eq_some found)

theorem toLower_comma {c : Char} : c.toLower = ',' ↔ c = ',' := by
  unfold Char.toLower
  split
  · rename_i upper
    constructor
    · intro same
      have low := UInt32.le_iff_toNat_le.mp upper.1
      have high := UInt32.le_iff_toNat_le.mp upper.2
      have code := congrArg (fun d : Char => d.val.toNat) same
      simp only [UInt32.toNat_add] at code
      simp at *
      omega
    · rintro rfl
      exact absurd upper (by decide)
  · rfl

theorem asciiLowercase_whole {text : String} : ',' ∉ (asciiLowercase text).toList ↔ ',' ∉ text.toList := by
  simp [asciiLowercase, toLower_comma]

theorem tlpLevel_whole {ref : String} : (∀ level, tlpLevel objects ref = some level → ',' ∉ level.toList) ↔
    ∀ level, ownLevel objects ref = some level → ',' ∉ level.toList := by
  rw [tlpLevel, ownLevel]
  cases known : tlpOfId ref with
  | some level =>
      simp only [Option.some_or, Option.some.injEq, Option.isSome_some, if_true, reduceCtorEq, false_implies, implies_true,
        iff_true]
      rintro _ rfl
      exact tlpOfId_whole known
  | none =>
      rw [Option.none_or, if_neg (by simp)]
      cases byId objects ref with
      | none => simp
      | some marking =>
          simp only [Option.bind_some]
          split
          · simp only [Option.map_eq_some_iff]
            constructor
            · intro whole level there
              exact asciiLowercase_whole.mp (whole _ ⟨level, there, rfl⟩)
            · rintro whole _ ⟨level, there, rfl⟩
              exact asciiLowercase_whole.mpr (whole level there)
          · simp

theorem digits_whole (n : Nat) : ',' ∉ (toString n).toList := fun comma => by
  have := digits_toString n ',' comma
  cases this

theorem identityName_whole {maker : Json} {name : String} (named : identityName maker = some name) : ',' ∉ name.toList := by
  rw [identityName] at named
  split at named
  · obtain ⟨text, -, rfl⟩ := Option.map_eq_some_iff.mp named
    exact sanitizeTag_whole text
  · cases named

/-- What any object says about itself. -/
theorem describe_whole {object : Json} : (∀ tag ∈ describe objects object, ',' ∉ tag.toList) ↔
    ∀ ref ∈ textsOf object "object_marking_refs", ∀ level, ownLevel objects ref = some level → ',' ∉ level.toList := by
  constructor
  · intro whole ref member
    refine tlpLevel_whole.mp fun level known => ?_
    have inside := whole ("tlp:" ++ level) (List.mem_append_right _ (List.mem_map_of_mem
      (List.mem_filterMap.mpr ⟨ref, member, known⟩)))
    exact (whole_append (by decide)).mp inside
  · intro whole tag member
    simp only [describe, List.mem_append, List.mem_map, Option.mem_toList] at member
    rcases member with (⟨name, named, rfl⟩ | ⟨n, -, rfl⟩) | ⟨level, known, rfl⟩
    · obtain ⟨maker, -, named⟩ := Option.bind_eq_some_iff.mp named
      exact (whole_append (by decide)).mpr (identityName_whole named)
    · exact (whole_append (by decide)).mpr (digits_whole n)
    · obtain ⟨ref, member, known⟩ := List.mem_filterMap.mp known
      exact (whole_append (by decide)).mpr (tlpLevel_whole.mpr (whole ref member) level known)

/-- What an indicator says about the values in its pattern. -/
theorem describeIndicator_whole {indicator : Json} : (∀ tag ∈ describeIndicator objects indicator, ',' ∉ tag.toList) ↔
    (∀ ref ∈ textsOf indicator "object_marking_refs", ∀ level, ownLevel objects ref = some level → ',' ∉ level.toList) ∧
      ∀ id, indicator.getStr "id" = some id → ',' ∉ id.toList := by
  rw [← describe_whole]
  simp only [describeIndicator, List.mem_append, List.mem_map, Option.mem_toList]
  constructor
  · intro whole
    refine ⟨fun tag member => whole tag (.inl (.inl (.inl (.inl member)))), fun id known => ?_⟩
    have inside := whole ("stix-id:" ++ id) (.inl (.inl (.inl (.inr ⟨id, known, rfl⟩))))
    exact (whole_append (by decide)).mp inside
  · rintro ⟨described, ids⟩ tag ((((member | ⟨id, known, rfl⟩) | ⟨_, -, rfl⟩) | ⟨_, -, rfl⟩) | ⟨_, -, rfl⟩)
    · exact described tag member
    · exact (whole_append (by decide)).mpr (ids id known)
    · exact (whole_append (by decide)).mpr (sanitizeTag_whole _)
    · exact (whole_append (by decide)).mpr (sanitizeTag_whole _)
    · exact (whole_append (by decide)).mpr (sanitizeTag_whole _)

/-- The tags that go with every value of an object. -/
def saidOf (objects : List Json) (object : Json) : List String :=
  if object.getStr "type" = some "sighting" then
    dedupe (describe objects object ++ (((textsOf object "where_sighted_refs").filterMap fun id =>
      (byId objects id).bind identityName).map fun name => "identity:" ++ name) ++ (target objects object).1)
  else if object.getStr "type" = some "indicator" then
    dedupe (describe objects object ++ describeIndicator objects object)
  else dedupe (describe objects object)

theorem fromObject_eq (crates : Crates) (mapping : Mapping) (object : Json) : ∃ first last count,
    fromObject crates objects mapping object =
      emit mapping first last count (saidOf objects object) (valuesOf objects object) := by
  rw [fromObject]
  split
  · rename_i sighting
    rw [saidOf, valuesOf, if_pos sighting, if_pos sighting]
    exact ⟨_, _, _, rfl⟩
  · rename_i observed
    simp only [saidOf, valuesOf, observed, Option.some.injEq, String.reduceEq, if_false, if_true]
    exact ⟨_, _, _, rfl⟩
  · rename_i indicator
    simp only [saidOf, valuesOf, indicator, Option.some.injEq, String.reduceEq, if_false, if_true, true_and]
    rw [ite_not]
    split
    · exact ⟨none, none, 0, rfl⟩
    · rw [fromIndicator]
      cases object.getStr "pattern" with
      | none => exact ⟨none, none, 0, rfl⟩
      | some pattern => exact ⟨_, _, _, rfl⟩
  · rename_i sighting observed indicator
    rw [valuesOf, if_neg sighting, if_neg observed, if_neg fun both => indicator both.1]
    exact ⟨none, none, 0, rfl⟩

theorem target_tags (object : Json) :
    (target objects object).1 = (indicatorOf objects object).toList.flatMap (describeIndicator objects) := by
  rw [target, indicatorOf]
  cases (object.getStr "sighting_of_ref").bind (byId objects) with
  | none => rfl
  | some found =>
      by_cases indicator : found.getStr "type" = some "indicator" <;> simp [Option.filter, indicator]

theorem mem_dedupe {tags : List String} {tag : String} : tag ∈ dedupe tags ↔ tag ∈ tags := by
  simp [dedupe, mem_foldl_pushNew]

/-- What is said of an object's values is what it says itself, what indicators say, and names. -/
theorem saidOf_parts {object : Json} : (∀ tag ∈ saidOf objects object, ',' ∉ tag.toList) ↔
    (∀ tag ∈ describe objects object, ',' ∉ tag.toList) ∧
      ∀ indicator ∈ indicatorsOf objects object, ∀ tag ∈ describeIndicator objects indicator, ',' ∉ tag.toList := by
  rw [saidOf, indicatorsOf]
  split
  · simp only [mem_dedupe, List.mem_append, target_tags, List.mem_flatMap]
    constructor
    · exact fun whole => ⟨fun tag member => whole tag (.inl (.inl member)),
        fun indicator there tag member => whole tag (.inr ⟨indicator, there, member⟩)⟩
    · rintro ⟨self, indicators⟩ tag ((member | named) | ⟨indicator, there, member⟩)
      · exact self tag member
      · obtain ⟨name, known, rfl⟩ := List.mem_map.mp named
        obtain ⟨id, -, known⟩ := List.mem_filterMap.mp known
        obtain ⟨maker, -, known⟩ := Option.bind_eq_some_iff.mp known
        exact (whole_append (by decide)).mpr (identityName_whole known)
      · exact indicators indicator there tag member
  · split
    · simp only [mem_dedupe, List.mem_append, List.mem_singleton, forall_eq, or_imp, forall_and]
    · simp [mem_dedupe]

/-- The tags of an object's values hold no comma exactly when what is copied into them holds none. -/
theorem saidOf_whole {object : Json} : (∀ tag ∈ saidOf objects object, ',' ∉ tag.toList) ↔ Plainly objects object := by
  rw [saidOf_parts, describe_whole]
  constructor
  · rintro ⟨self, indicators⟩
    refine ⟨fun source member => ?_, fun indicator member => (describeIndicator_whole.mp (indicators indicator member)).2⟩
    rcases List.mem_cons.mp member with rfl | indicator
    · exact self
    · exact (describeIndicator_whole.mp (indicators source indicator)).1
  · rintro ⟨levels, ids⟩
    refine ⟨levels object List.mem_cons_self, fun indicator member => describeIndicator_whole.mpr ?_⟩
    exact ⟨levels indicator (List.mem_cons_of_mem _ member), ids indicator member⟩

theorem emit_whole {mapping : Mapping} {first last : Option Int} {count : Nat} {tags : List String}
    {observables : List Observable} : (∀ s ∈ emit mapping first last count tags observables, s.Whole) ↔
      ∀ o ∈ observables, (mapping.namespaceFor o.stixType).isSome →
        ',' ∉ o.stixType.toList ∧ ∀ tag ∈ tags, ',' ∉ tag.toList := by
  simp only [emit, List.mem_filterMap, Option.map_eq_some_iff, Sighting.whole_iff]
  constructor
  · intro whole o member mapped
    obtain ⟨name, known⟩ := Option.isSome_iff_exists.mp mapped
    have inside := whole _ ⟨o, member, name, known, rfl⟩
    exact ⟨(whole_append (by decide)).mp (inside _ List.mem_cons_self),
      fun tag there => inside tag (List.mem_cons_of_mem _ there)⟩
  · rintro whole _ ⟨o, member, name, known, rfl⟩ tag there
    obtain ⟨typed, others⟩ := whole o member (known ▸ rfl)
    rcases List.mem_cons.mp there with rfl | inside
    · exact (whole_append (by decide)).mpr typed
    · exact others tag inside

end Stix

/-! ## Both importers -/

/-- Everything read out of a MISP message is stored with its own tags exactly when no attribute that is
recorded has a comma in its type, nor, where its value is, in its event id. Everything read out of a
STIX bundle is exactly when no object that a mapped value is read for, or indicator that speaks of it,
has one in a text that is copied as it is: the type of the value, the id of the indicator, the level of
a marking the bundle defines. -/
theorem imported_whole (sha256Hex : String → String) (mapping : Misp.Mapping) (message : Json) (crates : Crates)
    (stixMapping : Stix.Mapping) (bundle : Json) :
    ((∀ s ∈ Misp.parse sha256Hex mapping message, s.Whole) ↔
      ∀ attr ∈ Misp.attributes message, ∀ mispType value, Misp.worth mapping attr = some (mispType, value) →
        ((mapping.plain mispType).isSome ∨ mapping.hashedNamespace.isSome → ',' ∉ mispType.toList) ∧
        ((mapping.plain mispType).isSome →
          ∀ event, Misp.eventOf attr (Misp.contextOf message) = some event → ',' ∉ event.toList)) ∧
    ((∀ s ∈ Stix.parseBundle crates stixMapping bundle, s.Whole) ↔
      ∀ object ∈ Stix.rootObjects bundle, ∀ o ∈ Stix.valuesOf (Stix.rootObjects bundle) object,
        (stixMapping.namespaceFor o.stixType).isSome →
          ',' ∉ o.stixType.toList ∧ Stix.Plainly (Stix.rootObjects bundle) object) := by
  constructor
  · have pointwise : (∀ s ∈ Misp.parse sha256Hex mapping message, s.Whole) ↔ ∀ attr ∈ Misp.attributes message,
        ∀ s ∈ Misp.attributeToSightings sha256Hex mapping (Misp.contextOf message) attr, s.Whole := by
      simp only [Misp.parse, List.mem_flatMap]
      exact ⟨fun whole attr there s member => whole s ⟨attr, there, member⟩,
        fun whole s ⟨attr, there, member⟩ => whole attr there s member⟩
    rw [pointwise]
    exact forall₂_congr fun attr _ => Misp.attribute_whole fun tag member => Misp.contextOf_whole member
  · simp only [Stix.parseBundle, List.mem_flatMap]
    constructor
    · intro whole object there
      obtain ⟨first, last, count, read⟩ := @Stix.fromObject_eq (Stix.rootObjects bundle) crates stixMapping object
      have emitted := fun s member => whole s ⟨object, there, member⟩
      rw [read, Stix.emit_whole] at emitted
      exact fun o member mapped => (emitted o member mapped).imp_right Stix.saidOf_whole.mp
    · rintro plain s ⟨object, there, member⟩
      obtain ⟨first, last, count, read⟩ := @Stix.fromObject_eq (Stix.rootObjects bundle) crates stixMapping object
      rw [read] at member
      refine Stix.emit_whole.mpr (fun o inside mapped => ?_) s member
      exact (plain object there o inside mapped).imp_right Stix.saidOf_whole.mpr

/-- A message whose one attribute is of a type with a marking in it. -/
def markedType : Json := .obj [("Attribute", .obj [("type", .str "x,tlp:white"), ("value", .str "v")])]

/-- Everything goes to one namespace. -/
def unsorted : Misp.Mapping := ⟨.empty, some "/misp", false, none, true⟩

/-- The type of an attribute adds a marking that the importer did not produce. -/
theorem type_adds_marking : ∃ s ∈ Misp.parse id unsorted markedType,
    s.tags = ["misp-type:x,tlp:white"] ∧ "tlp:white" ∈ splitTags (storedTags s.tags) ∧ ¬ s.Whole := by
  refine ⟨⟨"/misp", "v", none, none, 1, ["misp-type:x,tlp:white"]⟩, by decide, rfl, by decide, ?_⟩
  rw [Stix.Sighting.whole_iff]
  decide

end SightingDB
