import SightingDB.Text
import Mathlib.Data.Finset.Basic

/-!
Tags are a comma-separated set held as one string. What matters of a tag string is the
set of tags it splits into; the string itself records the order they arrived in.
-/
namespace SightingDB

/-- Blanks around a tag and empty tags do not count. -/
def splitTags (tags : String) : List String := ((splitOnChar ',' tags).map trim).filter (· ≠ "")

def joinTags (tags : List String) : String := joinWith ',' tags

/-- Add a tag unless it is already there, noting that something was added. -/
def pushTag (acc : List String × Bool) (tag : String) : List String × Bool :=
  if tag ∈ acc.1 then acc else (acc.1 ++ [tag], true)

/-- Our tags with theirs added; the text is only rewritten when a tag is new. -/
def unionTags (ours theirs : String) : String :=
  let (merged, changed) := (splitTags theirs).foldl pushTag (splitTags ours, false)
  if changed then joinTags merged else ours

/-- The tags of a string, first occurrences only. -/
def cleanTags (tags : String) : List String :=
  (splitTags tags).foldl (fun seen tag => if tag ∈ seen then seen else seen ++ [tag]) []

/-- The set a tag string stands for. -/
def tagSet (tags : String) : Finset String := (splitTags tags).toFinset

/-- What every tag that comes out of a split satisfies. -/
structure CleanTag (tag : String) : Prop where
  noComma : ',' ∉ tag.toList
  trimmed : trim tag = tag
  nonempty : tag ≠ ""

theorem cleanTag_of_mem_splitTags {tags tag : String} (member : tag ∈ splitTags tags) :
    CleanTag tag := by
  simp only [splitTags, splitOnChar, List.mem_filter, List.mem_map, decide_eq_true_eq] at member
  obtain ⟨⟨_, ⟨part, inSplit, rfl⟩, rfl⟩, nonempty⟩ := member
  refine ⟨?_, ?_, nonempty⟩
  · intro comma
    simp only [trim, String.toList_ofList] at comma
    exact sep_not_mem_splitOn inSplit (mem_of_mem_trimWhere comma)
  · simp only [trim, String.toList_ofList, trimWhere_idem]

theorem filter_trim_clean {tags : List String} (clean : ∀ t ∈ tags, CleanTag t) :
    (tags.map trim).filter (· ≠ "") = tags := by
  induction tags with
  | nil => rfl
  | cons t rest ih =>
      have ht := clean t (by simp)
      have rest' := ih fun t' member => clean t' (List.mem_cons_of_mem _ member)
      simp only [List.map_cons, ht.trimmed]
      rw [List.filter_cons_of_pos (by simpa using ht.nonempty), rest']

/-- Clean tags survive being joined into one string and split again. -/
theorem splitTags_joinTags {tags : List String} (clean : ∀ t ∈ tags, CleanTag t) :
    splitTags (joinTags tags) = tags := by
  cases tags with
  | nil => decide
  | cons t rest =>
      have free : ∀ p ∈ (t :: rest).map String.toList, ',' ∉ p := by
        intro p member
        obtain ⟨tag, inTags, rfl⟩ := List.mem_map.mp member
        exact (clean tag inTags).noComma
      simp only [splitTags, joinTags, joinWith, splitOnChar, String.toList_ofList]
      have back : ((t :: rest).map String.toList).map String.ofList = t :: rest := by
        simp [Function.comp_def]
      rw [List.splitOn_intercalate ',' free (by simp), back]
      exact filter_trim_clean clean

theorem mem_foldl_pushTag (l : List String) (acc : List String × Bool) (tag : String) :
    tag ∈ (l.foldl pushTag acc).1 ↔ tag ∈ acc.1 ∨ tag ∈ l := by
  induction l generalizing acc with
  | nil => simp
  | cons t rest ih =>
      simp only [List.foldl_cons, ih, List.mem_cons]
      by_cases held : t ∈ acc.1
      · simp only [pushTag, if_pos held]
        constructor
        · rintro (h | h) <;> simp [h]
        · rintro (h | rfl | h)
          · exact .inl h
          · exact .inl held
          · exact .inr h
      · simp only [pushTag, if_neg held, List.mem_append, List.mem_singleton, or_assoc]

theorem foldl_pushTag_changed (l : List String) (acc : List String × Bool) :
    (l.foldl pushTag acc).2 = true ↔ acc.2 = true ∨ ∃ t ∈ l, t ∉ acc.1 := by
  induction l generalizing acc with
  | nil => simp
  | cons t rest ih =>
      simp only [List.foldl_cons, ih, List.exists_mem_cons_iff]
      by_cases held : t ∈ acc.1
      · simp [pushTag, held]
      · simp [pushTag, held]

theorem tagSet_unionTags (ours theirs : String) :
    tagSet (unionTags ours theirs) = tagSet ours ∪ tagSet theirs := by
  have held := mem_foldl_pushTag (splitTags theirs) (splitTags ours, false)
  have changed := foldl_pushTag_changed (splitTags theirs) (splitTags ours, false)
  simp only [unionTags]
  cases flag : ((splitTags theirs).foldl pushTag (splitTags ours, false)).2 with
  | true =>
      have clean : ∀ t ∈ ((splitTags theirs).foldl pushTag (splitTags ours, false)).1, CleanTag t := by
        intro t member
        rcases (held t).mp member with inOurs | inTheirs
        · exact cleanTag_of_mem_splitTags inOurs
        · exact cleanTag_of_mem_splitTags inTheirs
      ext t
      simp [tagSet, splitTags_joinTags clean, held]
  | false =>
      have inside : ∀ t ∈ splitTags theirs, t ∈ splitTags ours := by
        simpa [flag] using changed
      have subset : tagSet theirs ⊆ tagSet ours := by
        intro t member
        simp only [tagSet, List.mem_toFinset] at member ⊢
        exact inside t member
      simp [Finset.union_eq_left.mpr subset]

/-- Tags already held leave the stored text as it is, order included. -/
theorem unionTags_of_subset {ours theirs : String} (inside : tagSet theirs ⊆ tagSet ours) :
    unionTags ours theirs = ours := by
  have changed := foldl_pushTag_changed (splitTags theirs) (splitTags ours, false)
  have quiet : ((splitTags theirs).foldl pushTag (splitTags ours, false)).2 = false := by
    rw [Bool.eq_false_iff, ne_eq, changed]
    rintro (impossible | ⟨t, member, fresh⟩)
    · cases impossible
    · have := inside (List.mem_toFinset.mpr member)
      exact fresh (List.mem_toFinset.mp this)
  simp [unionTags, quiet]

theorem mem_cleanTags {tags tag : String} : tag ∈ cleanTags tags ↔ tag ∈ splitTags tags := by
  have fold : ∀ (l seen : List String),
      tag ∈ l.foldl (fun seen t => if t ∈ seen then seen else seen ++ [t]) seen ↔
        tag ∈ seen ∨ tag ∈ l := by
    intro l
    induction l with
    | nil => simp
    | cons t rest ih =>
        intro seen
        simp only [List.foldl_cons, ih, List.mem_cons]
        by_cases held : t ∈ seen
        · simp only [if_pos held]
          constructor
          · rintro (h | h) <;> simp [h]
          · rintro (h | rfl | h)
            · exact .inl h
            · exact .inl held
            · exact .inr h
        · simp only [if_neg held, List.mem_append, List.mem_singleton, or_assoc]
  simpa [cleanTags] using fold (splitTags tags) []

theorem tagSet_joinTags_cleanTags (tags : String) : tagSet (joinTags (cleanTags tags)) = tagSet tags := by
  have clean : ∀ t ∈ cleanTags tags, CleanTag t := fun t member =>
    cleanTag_of_mem_splitTags (mem_cleanTags.mp member)
  ext tag
  simp only [tagSet, List.mem_toFinset, splitTags_joinTags clean, mem_cleanTags]

@[simp] theorem tagSet_empty : tagSet "" = ∅ := by decide

end SightingDB
