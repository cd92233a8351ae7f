import SightingDB.ImportedTags

/-!
Markings that an attribute inherits from its event. Whether the attribute has one of its own is asked
of the exact text before the first colon; a marking is read from a tag without regard to case or blanks.
-/
namespace SightingDB

namespace Misp

/-- The traffic-light markings in some tags, as they are read once stored. -/
def marks (tags : List String) : Finset String := saidUnder tags "tlp"

/-- With markings of its own the attribute keeps these and takes none of the event's; with none it takes
all the event's. -/
structure Inherited (tags own event : List String) : Prop where
  keeps : (marks own).Nonempty → marks own ⊆ marks tags ∧ marks tags ∩ marks event ⊆ marks own
  takes : marks own = ∅ → marks event ⊆ marks tags

/-- An event's tag is let by that is not spelled `tlp:`, and the first that is if none of the attribute's
own is. -/
def LetBy (own event : List String) (tag : String) : Prop :=
  tag ∈ event ∧ (taxonomyOf tag = none ∨
    (∀ mine ∈ own, taxonomyOf mine = none) ∧ event.find? (fun tag => taxonomyOf tag = some "tlp") = some tag)

/-- Beside an attribute's markings nothing of the event's is let by or comes with what is copied; without,
everything is. -/
structure WellSpelled (copied own event : List String) : Prop where
  marked : (marks own).Nonempty →
    (∀ tag, LetBy own event tag → marks [tag] ⊆ marks own) ∧ marks copied ∩ marks event ⊆ marks own
  unmarked : marks own = ∅ → ∀ mark ∈ marks event, mark ∈ marks copied ∨ ∃ tag, LetBy own event tag ∧ mark ∈ marks [tag]

theorem mem_marks {tags : List String} {mark : String} : mark ∈ marks tags ↔ ∃ tag ∈ tags, mark ∈ marks [tag] := by
  simp [marks, mem_saidUnder]

/-- Whether a sighting's tags inherit as they should is a question of how the tags are spelled. -/
theorem inherited_iff {tags copied own event : List String} (sum : ∀ mark, mark ∈ marks tags ↔
    mark ∈ marks copied ∨ mark ∈ marks own ∨ ∃ tag, LetBy own event tag ∧ mark ∈ marks [tag]) :
    Inherited tags own event ↔ WellSpelled copied own event := by
  constructor
  · rintro ⟨keeps, takes⟩
    refine ⟨fun some_ => ⟨fun tag letBy mark member => ?_, fun mark member => ?_⟩, fun none_ mark member => ?_⟩
    · refine (keeps some_).2 (Finset.mem_inter.mpr ⟨(sum mark).mpr (.inr (.inr ⟨tag, letBy, member⟩)), ?_⟩)
      exact mem_marks.mpr ⟨tag, letBy.1, member⟩
    · obtain ⟨inCopied, inEvent⟩ := Finset.mem_inter.mp member
      exact (keeps some_).2 (Finset.mem_inter.mpr ⟨(sum mark).mpr (.inl inCopied), inEvent⟩)
    · rcases (sum mark).mp (takes none_ member) with inCopied | inOwn | letBy
      · exact .inl inCopied
      · rw [none_] at inOwn
        exact absurd inOwn (Finset.notMem_empty mark)
      · exact .inr letBy
  · rintro ⟨marked, unmarked⟩
    refine ⟨fun some_ => ⟨fun mark member => (sum mark).mpr (.inr (.inl member)), fun mark member => ?_⟩,
      fun none_ mark member => (sum mark).mpr ((unmarked none_ mark member).imp_right .inr)⟩
    obtain ⟨inTags, inEvent⟩ := Finset.mem_inter.mp member
    obtain ⟨tags_, copied_⟩ := marked some_
    rcases (sum mark).mp inTags with inCopied | inOwn | ⟨tag, letBy, inside⟩
    · exact copied_ (Finset.mem_inter.mpr ⟨inCopied, inEvent⟩)
    · exact inOwn
    · exact tags_ tag letBy inside

/-! ## Which tags a sighting gets -/

section

variable {attr : Json} {mispType tag : String} {context : EventContext}

theorem taxonomyOf_cases (tag : String) : taxonomyOf tag = none ∨ taxonomyOf tag = some "tlp" := by
  cases known : taxonomyOf tag with
  | none => exact .inl rfl
  | some name =>
      have single := (Option.filter_eq_some_iff.mp known).2
      exact .inr (congrArg some (by simpa [singleValued] using single))

theorem taxonomyOf_named {front : String} (plain : isPlainKey front = true) (other : front ∉ singleValued) (rest : String) :
    taxonomyOf (front ++ ":" ++ rest) = none := by
  have parted : splitOnce ':' (front ++ ":" ++ rest) = some (front, rest) :=
    splitOnce_append (isPlainKey_iff.mp plain).2.1 rest
  rw [taxonomyOf, parted]
  simp [Option.filter, other]

/-- What is said of an attribute is its type, its event's id, and texts made safe. -/
theorem described_cases (member : tag ∈ described attr mispType context) : tag = "misp-type" ++ ":" ++ mispType ∨
    (∃ event, eventOf attr context = some event ∧ tag = "misp-event" ++ ":" ++ event) ∨
    ∃ front ∈ ["stix-type", "misp-category", "description"], ∃ rest, tag = front ++ ":" ++ rest ∧ ',' ∉ rest.toList := by
  rcases mem_described.mp member with rfl | ⟨stixType, known, rfl⟩ | ⟨category, -, rfl⟩ | ⟨event, known, rfl⟩ |
    ⟨comment, -, rfl⟩
  · exact .inl rfl
  · exact .inr (.inr ⟨"stix-type", by decide, stixType, rfl, stixTypeForMisp_whole known⟩)
  · exact .inr (.inr ⟨"misp-category", by decide, _, rfl, sanitizeTag_whole category⟩)
  · exact .inr (.inl ⟨event, known, rfl⟩)
  · exact .inr (.inr ⟨"description", by decide, _, rfl, sanitizeTag_whole comment⟩)

theorem taxonomyOf_described (member : tag ∈ described attr mispType context) : taxonomyOf tag = none := by
  rcases described_cases member with rfl | ⟨event, -, rfl⟩ | ⟨front, family, rest, rfl, -⟩
  · exact taxonomyOf_named (by decide) (by decide) _
  · exact taxonomyOf_named (by decide) (by decide) _
  · have plain : ∀ front ∈ ["stix-type", "misp-category", "description"],
        isPlainKey front = true ∧ front ∉ singleValued := by decide
    exact taxonomyOf_named (plain front family).1 (plain front family).2 rest

theorem mem_tagsOf_iff : tag ∈ tagsOf attr mispType context ↔
    tag ∈ described attr mispType context ∨ tag ∈ tagNames attr ∨ LetBy (tagNames attr) context.tags tag := by
  rw [mem_tagsOf]
  refine or_congr_right (or_congr_right ?_)
  rcases taxonomyOf_cases tag with none_ | tlp
  · rw [FirstOfEach.mem_pass_none none_]
    exact ⟨fun member => ⟨member, .inl none_⟩, And.left⟩
  · have before : "tlp" ∉ (described attr mispType context ++ tagNames attr).filterMap taxonomyOf ↔
        ∀ mine ∈ tagNames attr, taxonomyOf mine = none := by
      simp only [List.mem_filterMap, List.mem_append, not_exists, not_and]
      constructor
      · exact fun other mine member => (taxonomyOf_cases mine).resolve_right (other mine (.inr member))
      · rintro other mine (said | own) known
        · rw [taxonomyOf_described said] at known
          cases known
        · rw [other mine own] at known
          cases known
    rw [FirstOfEach.mem_pass tlp, before]
    constructor
    · exact fun ⟨alone, first⟩ => ⟨List.mem_of_find?_eq_some first, .inr ⟨alone, first⟩⟩
    · rintro ⟨-, none_ | first⟩
      · rw [none_] at tlp
        cases tlp
      · exact first

/-! ## Their markings -/

/-- What is copied as it is into the tags of a value. -/
def plainCopied (attr : Json) (mispType : String) (context : EventContext) : List String :=
  ("misp-type:" ++ mispType) :: (eventOf attr context).toList.map fun event => "misp-event:" ++ event

/-- What is copied as it is into the tags of a digest. -/
def digestCopied (mispType : String) : List String := ["misp-type:" ++ mispType]

theorem marks_family {front rest : String} (family : front ∈ ["stix-type", "misp-category", "description"])
    (whole : ',' ∉ rest.toList) : marks [front ++ ":" ++ rest] = ∅ := by
  have plain : ∀ front ∈ ["stix-type", "misp-category", "description"],
      isPlainKey front = true ∧ asciiLowercase front ≠ asciiLowercase "tlp" := by decide
  refine Finset.eq_empty_of_forall_notMem fun mark member => ?_
  obtain ⟨tag, there, said⟩ := mem_saidUnder.mp member
  obtain rfl := List.mem_singleton.mp there
  rw [tagValues_other (plain front family).1 whole (plain front family).2] at said
  cases said

theorem marks_tagsOf (mark : String) : mark ∈ marks (tagsOf attr mispType context) ↔
    mark ∈ marks (plainCopied attr mispType context) ∨ mark ∈ marks (tagNames attr) ∨
      ∃ tag, LetBy (tagNames attr) context.tags tag ∧ mark ∈ marks [tag] := by
  rw [mem_marks]
  constructor
  · rintro ⟨tag, member, said⟩
    rcases mem_tagsOf_iff.mp member with described_ | own | letBy
    · rcases described_cases described_ with rfl | ⟨event, known, rfl⟩ | ⟨front, family, rest, rfl, whole⟩
      · exact .inl (mem_marks.mpr ⟨_, List.mem_cons_self, said⟩)
      · exact .inl (mem_marks.mpr ⟨_, List.mem_cons_of_mem _ (List.mem_map.mpr ⟨event, by simpa using known, rfl⟩), said⟩)
      · rw [marks_family family whole] at said
        exact absurd said (Finset.notMem_empty mark)
    · exact .inr (.inl (mem_marks.mpr ⟨tag, own, said⟩))
    · exact .inr (.inr ⟨tag, letBy, said⟩)
  · rintro (copied | own | ⟨tag, letBy, said⟩)
    · obtain ⟨tag, member, said⟩ := mem_marks.mp copied
      refine ⟨tag, mem_tagsOf_iff.mpr (.inl (mem_described.mpr ?_)), said⟩
      rcases List.mem_cons.mp member with rfl | named
      · exact .inl rfl
      · obtain ⟨event, known, rfl⟩ := List.mem_map.mp named
        exact .inr (.inr (.inr (.inl ⟨event, by simpa using known, rfl⟩)))
    · obtain ⟨tag, member, said⟩ := mem_marks.mp own
      exact ⟨tag, mem_tagsOf_iff.mpr (.inr (.inl member)), said⟩
    · exact ⟨tag, mem_tagsOf_iff.mpr (.inr (.inr letBy)), said⟩

theorem marks_revealing {tag : String} (reveals : revealing tag = true) (whole : ',' ∉ tag.toList) : marks [tag] = ∅ := by
  refine Finset.eq_empty_of_forall_notMem fun mark member => ?_
  obtain ⟨same, there, said⟩ := mem_saidUnder.mp member
  obtain rfl := List.mem_singleton.mp there
  obtain ⟨family, known, starts⟩ := List.any_eq_true.mp reveals
  obtain ⟨rest, rfl⟩ := eq_append_of_startsWith starts
  have safe : ',' ∉ rest.toList := fun comma => whole (by simp [comma])
  have fronts : ∃ front, family = front ++ ":" ∧ isPlainKey front = true ∧ asciiLowercase front ≠ asciiLowercase "tlp" := by
    simp only [valueRevealingTags, List.mem_cons, List.not_mem_nil, or_false] at known
    rcases known with rfl | rfl | rfl
    · exact ⟨"description", by decide, by decide, by decide⟩
    · exact ⟨"misp-event", by decide, by decide, by decide⟩
    · exact ⟨"stix-type", by decide, by decide, by decide⟩
  obtain ⟨front, rfl, plain, other⟩ := fronts
  rw [tagValues_other plain safe other] at said
  cases said

/-- A digest has its value's markings, but for those in the event's id. -/
theorem marks_hashedTags (inherited : ∀ tag ∈ context.tags, ',' ∉ tag.toList) (mark : String) :
    mark ∈ marks (hashedTags (tagsOf attr mispType context)) ↔ mark ∈ marks (digestCopied mispType) ∨
      mark ∈ marks (tagNames attr) ∨ ∃ tag, LetBy (tagNames attr) context.tags tag ∧ mark ∈ marks [tag] := by
  have open_ {tag : String} (whole : ',' ∉ tag.toList) (said : mark ∈ marks [tag]) : revealing tag = false := by
    refine Bool.eq_false_iff.mpr fun reveals => ?_
    rw [marks_revealing reveals whole] at said
    exact Finset.notMem_empty mark said
  rw [mem_marks]
  constructor
  · rintro ⟨tag, member, said⟩
    obtain ⟨there, hidden⟩ := mem_hashedTags.mp member
    rcases mem_tagsOf_iff.mp there with described_ | own | letBy
    · rcases described_cases described_ with rfl | ⟨event, -, rfl⟩ | ⟨front, family, rest, rfl, whole⟩
      · exact .inl (mem_marks.mpr ⟨_, List.mem_cons_self, said⟩)
      · exact absurd ((@revealing_family "misp-event:" (by decide) event).symm.trans hidden) (by decide)
      · rw [marks_family family whole] at said
        exact absurd said (Finset.notMem_empty mark)
    · exact .inr (.inl (mem_marks.mpr ⟨tag, own, said⟩))
    · exact .inr (.inr ⟨tag, letBy, said⟩)
  · rintro (copied | own | ⟨tag, letBy, said⟩)
    · obtain ⟨tag, member, said⟩ := mem_marks.mp copied
      obtain rfl := List.mem_singleton.mp member
      exact ⟨_, mem_hashedTags.mpr ⟨mem_tagsOf_iff.mpr (.inl (mem_described.mpr (.inl rfl))), revealing_append (by decide)⟩, said⟩
    · obtain ⟨tag, member, said⟩ := mem_marks.mp own
      exact ⟨tag, mem_hashedTags.mpr ⟨mem_tagsOf_iff.mpr (.inr (.inl member)), open_ (tagNames_whole member) said⟩, said⟩
    · exact ⟨tag, mem_hashedTags.mpr ⟨mem_tagsOf_iff.mpr (.inr (.inr letBy)), open_ (inherited tag letBy.1) said⟩, said⟩

/-- The two carry the same markings when what the event's id says in passing is said elsewhere. -/
theorem same_marks_iff (inherited : ∀ tag ∈ context.tags, ',' ∉ tag.toList) :
    marks (hashedTags (tagsOf attr mispType context)) = marks (tagsOf attr mispType context) ↔
      ∀ event, eventOf attr context = some event → ∀ mark ∈ marks ["misp-event:" ++ event],
        mark ∈ marks (digestCopied mispType) ∨ mark ∈ marks (tagNames attr) ∨
          ∃ tag, LetBy (tagNames attr) context.tags tag ∧ mark ∈ marks [tag] := by
  have copied (mark : String) : mark ∈ marks (plainCopied attr mispType context) ↔ mark ∈ marks (digestCopied mispType) ∨
      ∃ event, eventOf attr context = some event ∧ mark ∈ marks ["misp-event:" ++ event] := by
    rw [mem_marks]
    simp [plainCopied, digestCopied]
  rw [Finset.ext_iff]
  simp only [marks_tagsOf, marks_hashedTags inherited, copied]
  constructor
  · exact fun same event known mark said => (same mark).mpr (.inl (.inr ⟨event, known, said⟩))
  · intro elsewhere mark
    constructor
    · rintro (copied | said)
      · exact .inl (.inl copied)
      · exact .inr said
    · rintro ((copied | ⟨event, known, said⟩) | said)
      · exact .inl copied
      · exact elsewhere event known mark said
      · exact .inr said

end

/-- The sightings of an attribute carry its own markings and none of its event's, or all of its event's if
it has none, and the digest carries what the value does, exactly when these hold. Of an attribute with
markings nothing else is let by or copied: each tag of the event with another marking is spelled `tlp:`,
and comes after a tag of the attribute or the event that is. Of an attribute with none all markings of the
event are let by: they are on tags not so spelled, or on the first that is, with none so spelled on the
attribute. And what an event's id says in passing is said elsewhere. -/
theorem markings_inherited (sha256Hex : String → String) (mapping : Mapping) (message attr : Json) :
    ((∀ s ∈ attributeToSightings sha256Hex mapping (contextOf message) attr,
        Inherited s.tags (tagNames attr) (contextOf message).tags) ∧
      ∀ plain digest, plainSighting mapping (contextOf message) attr = some plain →
        digestSighting sha256Hex mapping (contextOf message) attr = some digest → marks digest.tags = marks plain.tags) ↔
    ∀ mispType value, worth mapping attr = some (mispType, value) →
      ((mapping.plain mispType).isSome →
        WellSpelled (plainCopied attr mispType (contextOf message)) (tagNames attr) (contextOf message).tags) ∧
      (mapping.hashedNamespace.isSome →
        WellSpelled (digestCopied mispType) (tagNames attr) (contextOf message).tags) ∧
      ((mapping.plain mispType).isSome → mapping.hashedNamespace.isSome →
        ∀ event, eventOf attr (contextOf message) = some event → ∀ mark ∈ marks ["misp-event:" ++ event],
          mark ∈ marks (digestCopied mispType) ∨ mark ∈ marks (tagNames attr) ∨
            ∃ tag, LetBy (tagNames attr) (contextOf message).tags tag ∧ mark ∈ marks [tag]) := by
  have inherited : ∀ tag ∈ (contextOf message).tags, ',' ∉ tag.toList := fun _ member => contextOf_whole member
  simp only [Option.isSome_iff_exists, mem_attributeToSightings, plainSighting_eq_some, digestSighting_eq_some]
  constructor
  · rintro ⟨each, same⟩ mispType value known
    refine ⟨?_, ?_, ?_⟩
    · rintro ⟨name, there⟩
      exact (inherited_iff marks_tagsOf).mp (each _ (.inl ⟨mispType, value, name, known, there, rfl⟩))
    · rintro ⟨name, there⟩
      exact (inherited_iff (marks_hashedTags inherited)).mp (each _ (.inr ⟨mispType, value, name, known, there, rfl⟩))
    · rintro ⟨name, there⟩ ⟨name', there'⟩
      have equal := same _ _ ⟨mispType, value, name, known, there, rfl⟩ ⟨mispType, value, name', known, there', rfl⟩
      exact (same_marks_iff inherited).mp equal
  · intro spelled
    constructor
    · rintro s (⟨mispType, value, name, known, there, rfl⟩ | ⟨mispType, value, name, known, there, rfl⟩)
      · exact (inherited_iff marks_tagsOf).mpr ((spelled mispType value known).1 ⟨name, there⟩)
      · exact (inherited_iff (marks_hashedTags inherited)).mpr ((spelled mispType value known).2.1 ⟨name, there⟩)
    · rintro plain digest ⟨mispType, value, name, known, there, rfl⟩ ⟨mispType', value', name', known', there', rfl⟩
      obtain ⟨rfl, rfl⟩ := Prod.mk.inj (Option.some.inj (known.symm.trans known'))
      exact (same_marks_iff inherited).mpr ((spelled mispType value known).2.2 ⟨name, there⟩ ⟨name', there'⟩)

/-- An attribute marked `TLP:red`, in an event marked `tlp:white`. -/
def loud : Json :=
  .obj [("type", .str "md5"), ("value", .str "v"), ("Tag", .arr [.obj [("name", .str "TLP:red")]])]

def loudMessage : Json := .obj [("Event", .obj [("Tag", .arr [.obj [("name", .str "tlp:white")]]), ("Attribute", loud)])]

/-- Two markings are stored where the attribute says what holds of its value. -/
theorem capital_is_no_marking : loud ∈ attributes loudMessage ∧
    ∃ s ∈ attributeToSightings id unsorted (contextOf loudMessage) loud,
      marks (tagNames loud) = {"red"} ∧ marks s.tags = {"red", "white"} ∧
        ¬ Inherited s.tags (tagNames loud) (contextOf loudMessage).tags := by
  have own : marks (tagNames loud) = {"red"} := by decide
  have event : marks (contextOf loudMessage).tags = {"white"} := by decide
  have both : marks ["misp-type:md5", "stix-type:file.MD5", "TLP:red", "tlp:white"] = {"red", "white"} := by decide
  refine ⟨by simp [attributes, loudMessage, collect, loud, Json.get, attributesIn], ⟨"/misp", "v", none, none, 1,
    ["misp-type:md5", "stix-type:file.MD5", "TLP:red", "tlp:white"]⟩, by decide, own, both, ?_⟩
  rintro ⟨keeps, -⟩
  rw [own, event, both] at keeps
  revert keeps
  decide

end Misp

end SightingDB
