import SightingDB.Text
import SightingDB.Lib.Widths

/-!
The character-strings of a TXT record: a text cut into pieces of at most 255 bytes, never inside
a character.
-/
namespace SightingDB
namespace Dns

/-- `MAX`. -/
def maxStringLength : Nat := 255

/-- `str::is_char_boundary`. -/
def isCharBoundary (text : List Char) (i : Nat) : Bool := Widths.isBoundary Char.utf8Size text i

/-- `text[start..end]`, which panics unless both lie between characters. -/
def slice (text : List Char) (start end_ : Nat) : Option (List Char) := Widths.slice Char.utf8Size text start end_

/-- The inner loop: step back to a character boundary. -/
def stepBack (text : List Char) (start : Nat) : Nat → Nat
  | 0 => 0
  | end_ + 1 => if start < end_ + 1 && !isCharBoundary text (end_ + 1) then stepBack text start end_ else end_ + 1

/-- The outer loop, so many rounds at most. -/
def splitFrom (text : List Char) : (rounds start : Nat) → Option (List (List Char))
  | 0, _ => none
  | rounds + 1, start =>
      let length := Widths.total Char.utf8Size text
      if start < length then
        let end_ := stepBack text start (min (start + maxStringLength) length)
        (slice text start end_).bind fun part => (splitFrom text rounds end_).map (part :: ·)
      else some []

/-- Split into DNS character-strings; nothing, if a slice panics or the rounds do not suffice. -/
def characterStrings (rounds : Nat) (text : String) : Option (List String) :=
  if text.utf8ByteSize ≤ maxStringLength then some [text]
  else (splitFrom text.toList rounds 0).map fun parts => parts.map String.ofList

theorem total_utf8Size (text : List Char) : Widths.total Char.utf8Size text = String.utf8Len text := by
  induction text with
  | nil => rfl
  | cons c cs ih => rw [Widths.total_cons, ih, String.utf8Len_cons, Nat.add_comm]

/-- The inner loop stops at a boundary, if there is one to step back to. -/
theorem stepBack_boundary {text : List Char} {start end_ found : Nat} (behind : start < found) (before : found ≤ end_)
    (inside : isCharBoundary text found = true) :
    start < stepBack text start end_ ∧ stepBack text start end_ ≤ end_ ∧ isCharBoundary text (stepBack text start end_) = true := by
  induction end_ with
  | zero => omega
  | succ end_ ih =>
      unfold stepBack
      by_cases here : isCharBoundary text (end_ + 1) = true
      · rw [here, Bool.not_true, Bool.and_false, if_neg Bool.false_ne_true]
        exact ⟨by omega, le_rfl, here⟩
      · have earlier : found ≤ end_ := by
          by_contra last
          exact here (by rwa [show end_ + 1 = found by omega])
        rw [Bool.not_eq_true] at here
        rw [here, Bool.not_false, Bool.and_true, if_pos (decide_eq_true (by omega))]
        obtain ⟨low, high, boundary⟩ := ih earlier
        exact ⟨low, by omega, boundary⟩

/-- One round takes a piece that is not empty, and short enough. -/
theorem splitFrom_step (rounds : Nat) (done : List Char) {rest : List Char} (more : rest ≠ []) :
    ∃ part later, rest = part ++ later ∧ part ≠ [] ∧ String.utf8Len part ≤ maxStringLength ∧
      splitFrom (done ++ rest) (rounds + 1) (Widths.total Char.utf8Size done) =
        (splitFrom (done ++ rest) rounds (Widths.total Char.utf8Size (done ++ part))).map (part :: ·) := by
  have positive : ∀ c : Char, 0 < c.utf8Size := Char.utf8Size_pos
  have whole : Widths.total Char.utf8Size (done ++ rest) = Widths.total Char.utf8Size done + Widths.total Char.utf8Size rest :=
    Widths.total_append done rest
  have inside := Widths.total_pos positive more
  -- The first character ends within reach, so there is a boundary to step back to.
  obtain ⟨c, cs, rfl⟩ := List.exists_cons_of_ne_nil more
  have narrow := Char.utf8Size_le_four c
  have wide := positive c
  have rest_ : Widths.total Char.utf8Size (c :: cs) = c.utf8Size + Widths.total Char.utf8Size cs := Widths.total_cons c cs
  have boundary : isCharBoundary (done ++ c :: cs) (Widths.total Char.utf8Size (done ++ [c])) = true :=
    Widths.isBoundary_iff.mpr ⟨done ++ [c], cs, by simp, rfl⟩
  have first : Widths.total Char.utf8Size (done ++ [c]) = Widths.total Char.utf8Size done + c.utf8Size := by
    rw [Widths.total_append]
    rfl
  have reach : Widths.total Char.utf8Size (done ++ [c]) ≤
      min (Widths.total Char.utf8Size done + maxStringLength) (Widths.total Char.utf8Size (done ++ c :: cs)) := by
    unfold maxStringLength
    omega
  have ahead : Widths.total Char.utf8Size done < Widths.total Char.utf8Size (done ++ [c]) := by omega
  obtain ⟨low, high, stops⟩ := stepBack_boundary ahead reach boundary
  obtain ⟨part, later, split, some_, size⟩ := Widths.part_of_boundary stops low
  have ends : Widths.total Char.utf8Size (done ++ part) = _ := (Widths.total_append done part).trans size
  refine ⟨part, later, split, some_, ?_, ?_⟩
  · rw [← total_utf8Size]
    omega
  · have taken : slice (done ++ c :: cs) (Widths.total Char.utf8Size done) (Widths.total Char.utf8Size (done ++ part)) = some part := by
      rw [split, Widths.total_append]
      exact Widths.slice_append positive done part later
    rw [splitFrom]
    dsimp only
    rw [if_pos (by omega), ← ends, taken, Option.bind_some]

/-- With a round for every byte the loop comes to the end, and its pieces make up the text. -/
theorem splitFrom_all (rounds : Nat) (done rest : List Char) (enough : Widths.total Char.utf8Size rest < rounds) :
    ∃ parts, splitFrom (done ++ rest) rounds (Widths.total Char.utf8Size done) = some parts ∧ parts.flatten = rest ∧
      ∀ part ∈ parts, part ≠ [] ∧ String.utf8Len part ≤ maxStringLength := by
  induction rounds generalizing done rest with
  | zero => omega
  | succ rounds ih =>
      by_cases more : rest = []
      · subst more
        refine ⟨[], ?_, rfl, nofun⟩
        rw [splitFrom, List.append_nil]
        exact if_neg (lt_irrefl _)
      · obtain ⟨part, later, rfl, some_, short, step⟩ := splitFrom_step rounds done more
        rw [Widths.total_append] at enough
        have positive := Widths.total_pos Char.utf8Size_pos some_
        obtain ⟨parts, rounds_, whole, each⟩ := ih (done ++ part) later (by omega)
        rw [List.append_assoc] at rounds_
        refine ⟨part :: parts, ?_, by rw [List.flatten_cons, whole], ?_⟩
        · rw [step, rounds_]
          rfl
        · intro piece member
          rcases List.mem_cons.mp member with rfl | other
          · exact ⟨some_, short⟩
          · exact each piece other

/-- More rounds change nothing. -/
theorem splitFrom_more {text : List Char} {rounds more start : Nat} {parts : List (List Char)} (enough : rounds ≤ more)
    (ends : splitFrom text rounds start = some parts) : splitFrom text more start = some parts := by
  induction rounds generalizing more start parts with
  | zero => cases ends
  | succ rounds ih =>
      obtain ⟨more, rfl⟩ : ∃ n, more = n + 1 := ⟨more - 1, by omega⟩
      rw [splitFrom] at ends ⊢
      dsimp only at ends ⊢
      split at ends
      · rename_i inside
        obtain ⟨part, taken, rest⟩ := Option.bind_eq_some_iff.mp ends
        obtain ⟨later, ends_, rfl⟩ := Option.map_eq_some_iff.mp rest
        rw [if_pos inside, taken, Option.bind_some, ih (by omega) ends_]
        rfl
      · rename_i outside
        rw [if_neg outside]
        exact ends

/-- Pieces that make up a text are cut at character boundaries. -/
theorem boundary_of_flatten {text : List Char} {before after : List (List Char)} (whole : (before ++ after).flatten = text) :
    isCharBoundary text (Widths.total Char.utf8Size before.flatten) = true := by
  rw [List.flatten_append] at whole
  exact Widths.isBoundary_iff.mpr ⟨before.flatten, after.flatten, whole.symm, rfl⟩

/-- The pieces a text is cut into make it up again. Each has at most 255 bytes, none is empty unless the text is, and no cut is
inside a character; no more than a round for every byte is needed. -/
theorem characterStrings_lossless (text : String) : ∃ parts,
    (∀ rounds, text.utf8ByteSize < rounds → characterStrings rounds text = some parts) ∧
    (parts.map String.toList).flatten = text.toList ∧
    (∀ part ∈ parts, part.utf8ByteSize ≤ maxStringLength ∧ (part = "" → text = "")) ∧
    ∀ before after, parts = before ++ after →
      isCharBoundary text.toList (Widths.total Char.utf8Size (before.map String.toList).flatten) = true := by
  have cuts : ∀ parts : List String, (parts.map String.toList).flatten = text.toList → ∀ before after, parts = before ++ after →
      isCharBoundary text.toList (Widths.total Char.utf8Size (before.map String.toList).flatten) = true := by
    intro parts whole before after split
    rw [split, List.map_append] at whole
    exact boundary_of_flatten whole
  by_cases short : text.utf8ByteSize ≤ maxStringLength
  · have whole : ([text].map String.toList).flatten = text.toList := List.append_nil _
    refine ⟨[text], fun rounds _ => if_pos short, whole, ?_, cuts _ whole⟩
    intro part member
    rw [List.mem_singleton.mp member]
    exact ⟨short, id⟩
  · have length : Widths.total Char.utf8Size text.toList = text.utf8ByteSize := by
      rw [total_utf8Size, String.utf8Len_toList]
    obtain ⟨parts, ends, whole, each⟩ := splitFrom_all (text.utf8ByteSize + 1) [] text.toList (by omega)
    have same : ((parts.map String.ofList).map String.toList).flatten = text.toList := by
      rw [List.map_map, ← whole]
      congr 1
      exact (List.map_congr_left fun part _ => String.toList_ofList).trans (List.map_id parts)
    refine ⟨parts.map String.ofList, ?_, same, ?_, cuts _ same⟩
    · intro rounds enough
      have ends_ : splitFrom text.toList rounds 0 = some parts := splitFrom_more enough ends
      rw [characterStrings, if_neg short, ends_]
      rfl
    · intro part member
      obtain ⟨chars, listed, rfl⟩ := List.mem_map.mp member
      obtain ⟨some_, few⟩ := each chars listed
      refine ⟨(String.utf8ByteSize_ofList chars).trans_le few, fun empty => absurd ?_ some_⟩
      rw [← @String.toList_ofList chars, empty]
      rfl

end Dns

end SightingDB
