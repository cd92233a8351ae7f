import SightingDB.Lib.Segments
import SightingDB.Recording

/-!
Tags as they are stored and read again. A list of tags is joined with commas into one text; what is
read out of that text is what each tag on its own reads as, commas inside a tag included.
-/
namespace SightingDB

/-- The text that a new value is stored with when it arrives with some tags. -/
def storedTags (tags : List String) : String := ((Attribute.new "").addTags (joinTags tags)).tags

/-- What is said about a value under a key, once its tags are stored. -/
def saidUnder (tags : List String) (key : String) : Finset String := (tagValues (storedTags tags) key).toFinset

theorem storedTags_eq (tags : List String) : storedTags tags = unionTags "" (joinTags tags) := by
  simp only [storedTags, Attribute.addTags, Attribute.new]

theorem splitTags_joined (tags : List String) : splitTags (joinTags tags) = tags.flatMap splitTags := by
  cases tags with
  | nil => decide
  | cons tag rest =>
      have split : ([','].intercalate ((tag :: rest).map String.toList)).splitOn ',' =
          ((tag :: rest).map String.toList).flatMap (List.splitOn ',') := Segments.splitOn_joined (by simp)
      simp only [splitTags, joinTags, joinWith, splitOnChar, String.toList_ofList, split, List.flatMap_map,
        List.map_flatMap, List.filter_flatMap]
      rfl

theorem mem_splitTags_storedTags {tags : List String} {part : String} :
    part ∈ splitTags (storedTags tags) ↔ ∃ tag ∈ tags, part ∈ splitTags tag := by
  have same : tagSet (storedTags tags) = tagSet (joinTags tags) := by
    rw [storedTags_eq, tagSet_unionTags]
    exact Finset.empty_union _
  have parts : part ∈ splitTags (storedTags tags) ↔ part ∈ splitTags (joinTags tags) := by
    simpa [tagSet] using congrArg (part ∈ ·) same
  rw [parts, splitTags_joined, List.mem_flatMap]

theorem mem_saidUnder {tags : List String} {key text : String} :
    text ∈ saidUnder tags key ↔ ∃ tag ∈ tags, text ∈ tagValues tag key := by
  simp only [saidUnder, List.mem_toFinset, tagValues, List.mem_filterMap, mem_splitTags_storedTags]
  constructor
  · rintro ⟨part, ⟨tag, member, inside⟩, reads⟩
    exact ⟨tag, member, part, inside, reads⟩
  · rintro ⟨tag, member, part, inside, reads⟩
    exact ⟨part, ⟨tag, member, inside⟩, reads⟩

/-! ## One tag -/

/-- A tag without commas is one tag, or none if it is blank. -/
theorem splitTags_whole {tag : String} (whole : ',' ∉ tag.toList) : splitTags tag = [trim tag].filter (· ≠ "") := by
  simp [splitTags, splitOnChar, List.splitOn_eq_singleton whole]

theorem trimWhere_marked {p : Char → Bool} {front rest : List Char} {mark : Char} (solid : ∀ c ∈ front, p c = false)
    (kept : p mark = false) : trimWhere p (front ++ mark :: rest) = front ++ mark :: rest.rdropWhile p := by
  have starts : (front ++ mark :: rest).dropWhile p = front ++ mark :: rest := by
    cases front with
    | nil => simp [kept]
    | cons c others => simp [solid c List.mem_cons_self]
  have ends : (rest.reverse ++ mark :: front.reverse).dropWhile p = rest.reverse.dropWhile p ++ mark :: front.reverse := by
    rw [List.dropWhile_append]
    split
    · rename_i none_
      simp [kept, List.isEmpty_iff.mp none_]
    · rfl
  rw [trimWhere, starts, List.rdropWhile, List.reverse_append, List.reverse_cons, List.append_assoc, List.singleton_append,
    ends]
  simp [List.rdropWhile]

/-- The key of a tag is what stands before its first colon. -/
theorem splitOnce_trim {front rest : String} (solid : ∀ c ∈ front.toList, isWhitespace c = false)
    (noColon : ':' ∉ front.toList) :
    splitOnce ':' (trim (front ++ ":" ++ rest)) = some (front, String.ofList (rest.toList.rdropWhile isWhitespace)) := by
  have trimmed : trim (front ++ ":" ++ rest) =
      front ++ String.singleton ':' ++ String.ofList (rest.toList.rdropWhile isWhitespace) := by
    apply String.toList_inj.mp
    have text : (front ++ ":" ++ rest).toList = front.toList ++ ':' :: rest.toList := by simp
    rw [trim, String.toList_ofList, text, trimWhere_marked solid (by decide)]
    simp
  rw [trimmed, splitOnce_append noColon]

/-- A key as a program writes it: no blanks, no colon and no comma. -/
def isPlainKey (key : String) : Bool := key.toList.all fun c => !isWhitespace c && c ≠ ':' && c ≠ ','

theorem isPlainKey_iff {key : String} : isPlainKey key = true ↔
    (∀ c ∈ key.toList, isWhitespace c = false) ∧ ':' ∉ key.toList ∧ ',' ∉ key.toList := by
  simp only [isPlainKey, List.all_eq_true, Bool.and_eq_true, Bool.not_eq_true', decide_eq_true_eq]
  constructor
  · exact fun each => ⟨fun c member => (each c member).1.1, fun member => (each _ member).1.2 rfl,
      fun member => (each _ member).2 rfl⟩
  · rintro ⟨solid, noColon, whole⟩ c member
    refine ⟨⟨solid c member, ?_⟩, ?_⟩
    · rintro rfl
      exact noColon member
    · rintro rfl
      exact whole member

/-- A tag under one key says nothing under another. -/
theorem tagValues_other {front rest key : String} (plain : isPlainKey front = true) (whole : ',' ∉ rest.toList)
    (other : asciiLowercase front ≠ asciiLowercase key) : tagValues (front ++ ":" ++ rest) key = [] := by
  obtain ⟨solid, noColon, noComma⟩ := isPlainKey_iff.mp plain
  have whole : ',' ∉ (front ++ ":" ++ rest).toList := by simp [noComma, whole]
  rw [tagValues, splitTags_whole whole, List.filterMap_eq_nil_iff]
  intro part member
  obtain rfl := List.mem_singleton.mp (List.mem_of_mem_filter member)
  rw [splitOnce_trim solid noColon]
  simp [trim_of_solid solid, other]

end SightingDB
