import SightingDB.History

/-!
A replacement of tags against copies taken before it. The later replacement wins whole
and a tie is a union, so what decides is how the copies' clocks stand to the one the
replacement was stamped with, which is never earlier than the value's own.
-/
namespace SightingDB

/-- When the tags set at `replacedAt` outlast these copies: each is stamped earlier, or at the
same time with no tag of its own; or some are later, and the latest carry just these tags. -/
def TagsStay (replacedAt : Int) (wanted : Finset String) (payloads : List Merge) : Prop :=
  (∀ p ∈ payloads, p.tagsAt < replacedAt ∨ p.tagsAt = replacedAt ∧ tagSet p.tags ⊆ wanted) ∨
    ∃ q ∈ payloads, replacedAt < q.tagsAt ∧ (∀ p ∈ payloads, p.tagsAt ≤ q.tagsAt) ∧
      ∀ tag, tag ∈ wanted ↔ ∃ p ∈ payloads, p.tagsAt = q.tagsAt ∧ tag ∈ tagSet p.tags

namespace Attribute

@[simp] theorem setTags_tagState (a : Attribute) (tags : String) (at_ : Int) :
    (a.setTags tags at_).tagState = ⟨max a.tagsAt at_, tagSet tags⟩ := by
  simp only [tagState, setTags, tagSet_joinTags_cleanTags]

/-- After any history, tags that are replaced stay as they were set, through any number of
copies in any order with plain sightings between, exactly when the copies' clocks allow. -/
theorem replaced_tags_stay (value : String) (before : List Operation) (tags : String) (at_ : Int)
    {after : List Operation} (plain : ∀ op ∈ after, op.plain = true) :
    tagSet ((new value).applyAll (before ++ .retag tags at_ :: after)).tags = tagSet tags ↔
      TagsStay (max ((new value).applyAll before).tagsAt at_) (tagSet tags)
        (after.filterMap Operation.payload) := by
  have replaced : (((new value).applyAll before).apply (.retag tags at_)).tagState =
      ⟨max ((new value).applyAll before).tagsAt at_, tagSet tags⟩ := setTags_tagState _ tags at_
  have final := applyAll_tagState plain (((new value).applyAll before).apply (.retag tags at_))
  have kept := Stamped.content_foldl_sup_eq_iff
    (((new value).applyAll before).apply (.retag tags at_)).tagState
    ((after.filterMap Operation.payload).map Merge.tagState)
  rw [← final, replaced] at kept
  rw [applyAll_append, applyAll_cons]
  refine Iff.trans ?_ (kept.trans ?_)
  · exact Iff.rfl
  · simp only [TagsStay, List.mem_map, forall_exists_index, and_imp, forall_apply_eq_imp_iff₂,
      exists_exists_and_eq_and, Stamped.le_iff, Merge.tagState]

/-- The peer's copy is from before the value was ever retagged. -/
theorem replaced_tags_stay_removed :
    tagSet ((new "v").applyAll ([.sight "here" .unixEpoch none 0 "tlp:green,wrong-tag"] ++
      .retag "tlp:green" 1000 ::
        [.merge ((new "v").addTags "tlp:green,wrong-tag").asMerge "here"])).tags = tagSet "tlp:green" := by
  refine (replaced_tags_stay "v" [.sight "here" .unixEpoch none 0 "tlp:green,wrong-tag"] "tlp:green" 1000
    (by decide)).mpr (.inl ?_)
  decide

/-- Two replacements in one millisecond, and a copy taken between them: the tie is a union
and the removed tag is back. -/
theorem removed_tag_returns :
    let once := (new "v").applyAll [.retag "wrong-tag" 1000]
    tagSet ((new "v").applyAll ([.retag "wrong-tag" 1000] ++ .retag "tlp:green" 1000 ::
      [.merge once.asMerge "here"])).tags ≠ tagSet "tlp:green" := by
  decide

end Attribute
end SightingDB
