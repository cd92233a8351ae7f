import SightingDB.Markings

/-!
What a digest's sighting says about the value. Tags that would tell are left out by how they start, letter
for letter; read again they are split at commas, trimmed and compared without regard to case. What is not
a tag, the value and the comment, is not given away.
-/
namespace SightingDB

namespace Misp

/-- The keys under which a digest is meant to say nothing. -/
def revealingKeys : List String := ["description", "misp-event", "stix-type"]

/-- Nothing is said under those keys. -/
def Discreet (tags : List String) : Prop := ∀ key ∈ revealingKeys, saidUnder tags key = ∅

theorem discreet_iff {tags : List String} : Discreet tags ↔ ∀ tag ∈ tags, Discreet [tag] := by
  simp only [Discreet, Finset.eq_empty_iff_forall_notMem, mem_saidUnder, List.mem_singleton]
  constructor
  · rintro silent tag member key known text ⟨_, same, said⟩
    exact silent key known text ⟨tag, member, same ▸ said⟩
  · rintro silent key known text ⟨tag, member, said⟩
    exact silent tag member key known text ⟨tag, rfl, said⟩

theorem discreet_other {front rest : String} (plain : isPlainKey front = true) (whole : ',' ∉ rest.toList)
    (other : ∀ key ∈ revealingKeys, asciiLowercase front ≠ asciiLowercase key) : Discreet [front ++ ":" ++ rest] := by
  intro key known
  refine Finset.eq_empty_of_forall_notMem fun text member => ?_
  obtain ⟨tag, there, said⟩ := mem_saidUnder.mp member
  obtain rfl := List.mem_singleton.mp there
  rw [tagValues_other plain whole (other key known)] at said
  cases said

/-- A tag that says something under one of those keys is not of a single-valued taxonomy. -/
theorem taxonomyOf_telling {tag : String} (whole : ',' ∉ tag.toList) (telling : ¬ Discreet [tag]) : taxonomyOf tag = none := by
  refine (taxonomyOf_cases tag).resolve_right fun tlp => telling ?_
  obtain ⟨⟨front, rest⟩, parted, same⟩ := Option.map_eq_some_iff.mp (Option.filter_eq_some_iff.mp tlp).1
  obtain rfl : front = "tlp" := same
  have spelled : tag = "tlp" ++ ":" ++ rest := by
    rw [← String.toList_inj, toList_of_splitOnce parted]
    simp
  rw [spelled] at whole ⊢
  exact discreet_other (by decide) (fun comma => whole (by simp [comma])) (by decide)

variable {attr : Json} {mispType : String} {context : EventContext}

/-- A digest is discreet when no tag is dropped or kept for its spelling alone. -/
theorem hashedTags_discreet (inherited : ∀ tag ∈ context.tags, ',' ∉ tag.toList) :
    Discreet (hashedTags (tagsOf attr mispType context)) ↔ Discreet ["misp-type:" ++ mispType] ∧
      ∀ tag ∈ tagNames attr ++ context.tags, Discreet [tag] ∨ revealing tag = true := by
  rw [discreet_iff]
  constructor
  · intro silent
    refine ⟨silent _ (mem_hashedTags.mpr ⟨mem_tagsOf_iff.mpr (.inl (mem_described.mpr (.inl rfl))),
      revealing_append (by decide)⟩), fun tag member => ?_⟩
    by_cases discreet : Discreet [tag]
    · exact .inl discreet
    · refine .inr (Bool.not_eq_false _ ▸ fun hidden => discreet (silent tag (mem_hashedTags.mpr ⟨mem_tagsOf_iff.mpr ?_, hidden⟩)))
      rcases List.mem_append.mp member with own | event
      · exact .inr (.inl own)
      · exact .inr (.inr ⟨event, .inl (taxonomyOf_telling (inherited tag event) discreet)⟩)
  · rintro ⟨typed, spelled⟩ tag member
    obtain ⟨there, hidden⟩ := mem_hashedTags.mp member
    have given (inside : tag ∈ tagNames attr ++ context.tags) : Discreet [tag] := by
      refine (spelled tag inside).resolve_right fun reveals => ?_
      rw [hidden] at reveals
      cases reveals
    rcases mem_tagsOf_iff.mp there with said | own | letBy
    · rcases described_cases said with rfl | ⟨event, -, rfl⟩ | ⟨front, family, rest, rfl, whole⟩
      · exact typed
      · exact absurd ((@revealing_family "misp-event:" (by decide) event).symm.trans hidden) (by decide)
      · simp only [List.mem_cons, List.not_mem_nil, or_false] at family
        rcases family with rfl | rfl | rfl
        · exact absurd ((@revealing_family "stix-type:" (by decide) rest).symm.trans hidden) (by decide)
        · exact discreet_other (by decide) whole (by decide)
        · exact absurd ((@revealing_family "description:" (by decide) rest).symm.trans hidden) (by decide)
    · exact given (List.mem_append_left _ own)
    · exact given (List.mem_append_right _ letBy.1)

/-! ## The value and the comment -/

/-- Two attributes that differ in their value and comment only, the values being of one digest. -/
structure SameBut (sha256Hex : String → String) (a b : Json) : Prop where
  fields : ∀ field ∉ ["value", "value1", "comment"], a.get field = b.get field
  digest : (valueOf a).map sha256Hex = (valueOf b).map sha256Hex

theorem getStr_congr {a b : Json} {field : String} (same : a.get field = b.get field) : a.getStr field = b.getStr field :=
  congrArg (Option.bind · Json.asStr) same

theorem hashedTags_append (tags more : List String) : hashedTags (tags ++ more) = hashedTags tags ++ hashedTags more :=
  List.filter_append ..

/-- The comment is the only thing said of an attribute that is not said of one that differs in it. -/
theorem described_hidden {sha256Hex : String → String} {a b : Json} (same : SameBut sha256Hex a b) :
    hashedTags (described a mispType context) = hashedTags (described b mispType context) := by
  have comments (attr : Json) : hashedTags (((attr.getStr "comment").filter fun comment => trim comment ≠ "").toList.map
      fun comment => "description:" ++ Stix.sanitizeTag comment) = [] := by
    rw [hashedTags, List.filter_eq_nil_iff]
    intro tag member
    obtain ⟨comment, -, rfl⟩ := List.mem_map.mp member
    rw [@revealing_family "description:" (by decide) _]
    decide
  have category : a.getStr "category" = b.getStr "category" := getStr_congr (same.fields "category" (by decide))
  have event : eventOf a context = eventOf b context := by rw [eventOf, eventOf, same.fields "event_id" (by decide)]
  simp only [described, hashedTags_append, comments, category, event]

theorem hashedTags_eq (attr : Json) (mispType : String) (context : EventContext) :
    hashedTags (tagsOf attr mispType context) = FirstOfEach.keep some (hashedTags (described attr mispType context) ++
      hashedTags (tagNames attr ++ FirstOfEach.pass taxonomyOf ((tagNames attr).filterMap taxonomyOf) context.tags)) := by
  have unmarked : (described attr mispType context).filterMap taxonomyOf = [] :=
    List.filterMap_eq_nil_iff.mpr fun tag member => taxonomyOf_described member
  rw [hashedTags, tagsOf, dedupe_eq, FirstOfEach.keep_filter, inherit_eq, List.filterMap_append, unmarked, List.nil_append,
    List.append_assoc, List.filter_append]
  · rfl
  · intro tag _ tag' _ key same same'
    rw [Option.some.inj (same.trans same'.symm)]

variable {sha256Hex : String → String} {mapping : Mapping} {a b : Json}

theorem worth_same (same : SameBut sha256Hex a b) : (worth mapping a).map (fun known => (known.1, sha256Hex known.2)) =
    (worth mapping b).map fun known => (known.1, sha256Hex known.2) := by
  rw [worth, worth, same.fields "to_ids" (by decide), getStr_congr (same.fields "type" (by decide))]
  split
  · rfl
  · cases b.getStr "type" with
    | none => rfl
    | some mispType =>
        have typed := congrArg (Option.map fun digest => (mispType, digest)) same.digest
        rw [Option.map_map, Option.map_map] at typed
        rw [Option.bind_some, Option.bind_some, Option.map_map, Option.map_map]
        exact typed

theorem hashedTags_same (same : SameBut sha256Hex a b) (mispType : String) :
    hashedTags (tagsOf a mispType context) = hashedTags (tagsOf b mispType context) := by
  have names : tagNames a = tagNames b := by rw [tagNames, tagNames, same.fields "Tag" (by decide)]
  rw [hashedTags_eq, hashedTags_eq, described_hidden same, names]

theorem plainSighting_none (hidden : mapping.storeValues = false) (attr : Json) : plainSighting mapping context attr = none := by
  refine Option.eq_none_iff_forall_ne_some.mpr fun s plain => ?_
  obtain ⟨mispType, -, name, -, stored, -⟩ := plainSighting_eq_some.mp plain
  simp [Mapping.plain, hidden] at stored

/-- With only digests stored, attributes that differ in their value and comment give one sighting. -/
theorem digest_same (hidden : mapping.storeValues = false) (same : SameBut sha256Hex a b) :
    attributeToSightings sha256Hex mapping context a = attributeToSightings sha256Hex mapping context b := by
  have digests (attr : Json) : digestSighting sha256Hex mapping context attr =
      ((worth mapping attr).map fun known => (known.1, sha256Hex known.2)).bind fun known =>
        mapping.hashedNamespace.map fun name => { once name known.2 (timestampOf attr) with
          tags := hashedTags (tagsOf attr known.1 context) } := by
    rw [digestSighting]
    cases worth mapping attr <;> rfl
  have times : timestampOf a = timestampOf b := by rw [timestampOf, timestampOf, same.fields "timestamp" (by decide)]
  rw [attributeToSightings, attributeToSightings, plainSighting_none hidden, plainSighting_none hidden, digests a, digests b,
    worth_same same, times]
  simp only [hashedTags_same same]

/-- A message in which values and comments are others, of the same digests, gives the same sightings. -/
theorem parse_same {message other : Json} (hidden : mapping.storeValues = false) (context : contextOf other = contextOf message)
    (same : List.Forall₂ (SameBut sha256Hex) (attributes message) (attributes other)) :
    parse sha256Hex mapping other = parse sha256Hex mapping message := by
  rw [parse, parse, context]
  generalize contextOf message = context
  generalize attributes message = first, attributes other = second at same
  induction same with
  | nil => rfl
  | cons first _ ih => rw [List.flatMap_cons, List.flatMap_cons, ih, digest_same hidden first]

theorem parse_digests {message : Json} {s : Stix.Sighting} (hidden : mapping.storeValues = false)
    (member : s ∈ parse sha256Hex mapping message) :
    ∃ attr ∈ attributes message, ∃ value, valueOf attr = some value ∧ s.value = sha256Hex value := by
  obtain ⟨attr, there, inside⟩ := List.mem_flatMap.mp member
  rcases mem_attributeToSightings.mp inside with plain | digest
  · rw [plainSighting_none hidden] at plain
    cases plain
  · obtain ⟨mispType, value, name, known, -, rfl⟩ := digestSighting_eq_some.mp digest
    refine ⟨attr, there, value, ?_, rfl⟩
    rw [worth] at known
    split at known
    · cases known
    · obtain ⟨_, -, typed⟩ := Option.bind_eq_some_iff.mp known
      obtain ⟨found, valued, same⟩ := Option.map_eq_some_iff.mp typed
      rw [valued, (Prod.mk.inj same).2]

/-- With only digests stored a message's sightings are of digests, and say nothing of the values beyond
them, and nothing of the comments. Besides, no digest says anything under the keys that would tell exactly
when no tag of an attribute it is of, or of the event, that says something under one is spelled otherwise
than with the key in small letters and a colon, and the attribute's type has no such tag after a comma. -/
theorem digests_discreet (sha256Hex : String → String) (mapping : Mapping) (message : Json) :
    ((∀ attr ∈ attributes message, ∀ s, digestSighting sha256Hex mapping (contextOf message) attr = some s →
        Discreet s.tags) ∧
      (mapping.storeValues = false →
        (∀ s ∈ parse sha256Hex mapping message,
          ∃ attr ∈ attributes message, ∃ value, valueOf attr = some value ∧ s.value = sha256Hex value) ∧
        ∀ other, contextOf other = contextOf message →
          List.Forall₂ (SameBut sha256Hex) (attributes message) (attributes other) →
          parse sha256Hex mapping other = parse sha256Hex mapping message)) ↔
    ∀ attr ∈ attributes message, ∀ mispType value, worth mapping attr = some (mispType, value) →
      mapping.hashedNamespace.isSome → Discreet ["misp-type:" ++ mispType] ∧
        ∀ tag ∈ tagNames attr ++ (contextOf message).tags, Discreet [tag] ∨ revealing tag = true := by
  have inherited : ∀ tag ∈ (contextOf message).tags, ',' ∉ tag.toList := fun _ member => contextOf_whole member
  constructor
  · rintro ⟨silent, -⟩ attr there mispType value known hashed
    obtain ⟨name, mapped⟩ := Option.isSome_iff_exists.mp hashed
    have quiet := silent attr there _ (digestSighting_eq_some.mpr ⟨mispType, value, name, known, mapped, rfl⟩)
    exact (hashedTags_discreet inherited).mp quiet
  · refine fun spelled => ⟨fun attr there s digest => ?_, fun hidden =>
      ⟨fun s member => parse_digests hidden member, fun other context same => parse_same hidden context same⟩⟩
    obtain ⟨mispType, value, name, known, mapped, rfl⟩ := digestSighting_eq_some.mp digest
    have hashed : mapping.hashedNamespace.isSome := Option.isSome_iff_exists.mpr ⟨name, mapped⟩
    exact (hashedTags_discreet inherited).mpr (spelled attr there mispType value known hashed)

/-- An attribute tagged with a description of its value, the key in a capital. -/
def described_ : Json := .obj [("Attribute", .obj [("type", .str "md5"), ("value", .str "v"),
  ("Tag", .arr [.obj [("name", .str "Description:the letter v")]])])]

/-- Digests only. -/
def digestsOnly : Mapping := ⟨.empty, none, false, some "/digests", false⟩

/-- The digest is stored with the description. -/
theorem capital_describes : ∃ s ∈ parse (fun _ => "4c94485e") digestsOnly described_,
    s.value = "4c94485e" ∧ saidUnder s.tags "description" = {"the letter v"} ∧ ¬ Discreet s.tags := by
  have said : saidUnder ["misp-type:md5", "Description:the letter v"] "description" = {"the letter v"} := by decide
  refine ⟨⟨"/digests", "4c94485e", none, none, 1, ["misp-type:md5", "Description:the letter v"]⟩, by decide, rfl, said,
    fun discreet => ?_⟩
  have silent := discreet "description" (by decide)
  rw [said] at silent
  exact Finset.singleton_ne_empty _ silent

end Misp

end SightingDB
