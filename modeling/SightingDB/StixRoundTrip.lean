import SightingDB.RequestPaths
import SightingDB.StixIds
import SightingDB.StixImport

/-!
Reading our own bundle back. A pattern of ours has one comparison, and reading it undoes the
writing but for one thing: a backslash is written twice and not taken back.
-/
namespace SightingDB

namespace Stix

/-! ## Patterns -/

/-- A character as it stands in a literal. -/
def escapeChar (c : Char) : List Char :=
  if c = Toml.backslash then [Toml.backslash, Toml.backslash]
  else if c = apostrophe then [Toml.backslash, apostrophe]
  else [c]

theorem escape_toList (value : String) : (escape value).toList = value.toList.flatMap escapeChar := by
  simp only [escape, replaceChar, String.toList_ofList, List.flatMap_assoc]
  refine List.flatMap_congr fun c _ => ?_
  by_cases slash : c = Toml.backslash
  · subst slash
    decide
  · by_cases quote : c = apostrophe
    · subst quote
      decide
    · simp [escapeChar, slash, quote]

/-- What is read back for a character. -/
def readChar (c : Char) : List Char := if c = Toml.backslash then [Toml.backslash, Toml.backslash] else [c]

theorem escape_head (cs : List Char) : (cs.flatMap escapeChar).head? ≠ some apostrophe := by
  cases cs with
  | nil => simp
  | cons c rest =>
      rw [List.flatMap_cons, escapeChar]
      split_ifs with slash quote
      · simp only [List.cons_append, List.head?_cons]
        decide
      · simp only [List.cons_append, List.head?_cons]
        decide
      · simpa using quote

theorem unescape_cons {c : Char} {rest : List Char} (apart : c = Toml.backslash → rest.head? ≠ some apostrophe) :
    unescape (c :: rest) = c :: unescape rest := by
  cases rest with
  | nil => rfl
  | cons d rest =>
      rw [unescape, if_neg]
      rintro ⟨slash, rfl⟩
      exact apart slash rfl

/-- Reading a literal gives the value back with its backslashes doubled. -/
theorem unescape_escape (cs : List Char) : unescape (cs.flatMap escapeChar) = cs.flatMap readChar := by
  induction cs with
  | nil => rfl
  | cons c rest ih =>
      rw [List.flatMap_cons, List.flatMap_cons, escapeChar, readChar]
      split_ifs with slash quote
      · have second : unescape (Toml.backslash :: rest.flatMap escapeChar) = Toml.backslash :: rest.flatMap readChar := by
          rw [unescape_cons fun _ => escape_head rest, ih]
        have other : (Toml.backslash :: rest.flatMap escapeChar).head? ≠ some apostrophe := by
          rw [List.head?_cons]
          decide
        rw [List.cons_append, List.cons_append, List.nil_append, unescape_cons fun _ => other, second]
        rfl
      · have pair : unescape (Toml.backslash :: apostrophe :: rest.flatMap escapeChar) =
            apostrophe :: unescape (rest.flatMap escapeChar) := by
          rw [unescape, if_pos ⟨rfl, rfl⟩]
        rw [List.cons_append, List.cons_append, List.nil_append, pair, ih, quote]
        rfl
      · rw [List.singleton_append, List.singleton_append, unescape_cons fun here => absurd here slash, ih]

theorem readChar_length (cs : List Char) :
    (cs.flatMap readChar).length = cs.length + cs.countP (· = Toml.backslash) := by
  induction cs with
  | nil => rfl
  | cons c rest ih =>
      rw [List.flatMap_cons, List.length_append, ih, readChar]
      by_cases slash : c = Toml.backslash <;> simp [slash] <;> omega

/-- Only a value without backslashes is read back as it is. -/
theorem readChar_same {cs : List Char} : cs.flatMap readChar = cs ↔ Toml.backslash ∉ cs := by
  constructor
  · intro same slash
    have longer := readChar_length cs
    rw [same] at longer
    have some_ : 0 < cs.countP (· = Toml.backslash) := List.countP_pos_iff.mpr ⟨_, slash, by simp⟩
    omega
  · intro none_
    induction cs with
    | nil => rfl
    | cons c rest ih =>
        have other : c ≠ Toml.backslash := fun here => none_ (here ▸ List.mem_cons_self)
        rw [List.flatMap_cons, ih fun there => none_ (List.mem_cons_of_mem _ there), readChar, if_neg other]
        rfl

theorem literalPart_takes (c : Char) : Matcher.Takes literalPart (escapeChar c) := by
  have pair (d : Char) (plain : d ≠ '\n') : Matcher.Takes literalPart [Toml.backslash, d] := by
    refine ⟨by simp, fun rest => ?_⟩
    simp [literalPart, Matcher.orElse, Matcher.one, Matcher.andThen, plain]
  rw [escapeChar]
  split_ifs with slash quote
  · exact pair Toml.backslash (by decide)
  · exact pair apostrophe (by decide)
  · exact ⟨by simp, fun rest => by simp [literalPart, Matcher.orElse, Matcher.one, slash, quote]⟩

/-- One comparison, as it is written. -/
def written (stixType path literal : List Char) : List Char :=
  '[' :: (stixType ++ ':' :: (path ++ ' ' :: '=' :: ' ' :: apostrophe :: (literal ++ [apostrophe, ']'])))

theorem comparison_written {stixType path : List Char} (some_ : stixType ≠ []) (typed : ∀ c ∈ stixType, isTypeChar c = true)
    (some_' : path ≠ []) (pathed : ∀ c ∈ path, isPathChar c = true) (cs : List Char) :
    Matcher.search comparison (written stixType path (cs.flatMap escapeChar)) =
      some ((stixType, path, cs.flatMap escapeChar), [']']) := by
  have skipped : comparison ('[' :: (stixType ++ ':' :: (path ++ ' ' :: '=' :: ' ' :: apostrophe ::
      (cs.flatMap escapeChar ++ [apostrophe, ']'])))) = [] := by
    simp [comparison, Matcher.plus, Matcher.andThen, Matcher.one, isTypeChar]
  have literal : (Matcher.star literalPart (cs.flatMap escapeChar ++ [apostrophe, ']'])).head? =
      some (cs.flatMap escapeChar, [apostrophe, ']']) := by
    have takes : ∀ unit ∈ cs.map escapeChar, Matcher.Takes literalPart unit := fun unit member => by
      obtain ⟨c, -, rfl⟩ := List.mem_map.mp member
      exact literalPart_takes c
    exact Matcher.star_head takes (by decide)
  have space (c : Char) (rest : List Char) (stop : isWhitespace c = false) :
      (Matcher.star (Matcher.one isWhitespace) ([' '] ++ c :: rest)).head? = some ([' '], c :: rest) :=
    Matcher.star_one_head (by decide) (by simpa using stop)
  rw [written, Matcher.search_skip skipped]
  refine Matcher.search_here ?_
  refine Matcher.andThen_head (Matcher.plus_one_head some_ typed (by simp [isTypeChar])) ?_
  refine Matcher.andThen_head (Matcher.one_head (by decide)) ?_
  refine Matcher.andThen_head (Matcher.plus_one_head some_' pathed (by simp [isPathChar]; decide)) ?_
  refine Matcher.andThen_head (space _ _ (by decide)) ?_
  refine Matcher.andThen_head (Matcher.one_head (by decide)) ?_
  refine Matcher.andThen_head (space _ _ (by decide)) ?_
  refine Matcher.andThen_head (Matcher.one_head (by decide)) ?_
  refine Matcher.andThen_head literal ?_
  exact Matcher.andThen_head (Matcher.one_head (by decide)) rfl

/-- The types a pattern can be read back as: letters, digits and dashes, or `file.` and an
algorithm that neither begins nor ends with a mark of the path. -/
def Typable (stixType : String) : Prop :=
  (stixType ≠ "" ∧ ∀ c ∈ stixType.toList, isTypeChar c = true) ∨
    ∃ algorithm, stixType = "file." ++ algorithm ∧ (∀ c ∈ algorithm.toList, isPathChar c = true) ∧
      trimWhere isPathMark algorithm.toList = algorithm.toList

theorem mem_strip {start : String} {turns : Nat} {cs : List Char} {c : Char}
    (member : c ∈ trimStartMatches.strip start turns cs) : c ∈ cs := by
  induction turns generalizing cs with
  | zero => exact member
  | succ turns ih =>
      rw [trimStartMatches.strip] at member
      split_ifs at member
      · exact List.mem_of_mem_drop (ih member)
      · exact member

/-- Whatever a pattern is read back as is such a type. -/
theorem fromPattern_typable {pattern : String} {o : Observable} (member : o ∈ fromPattern pattern) :
    Typable o.stixType := by
  obtain ⟨⟨stixType, path, literal⟩, found, read⟩ := List.mem_filterMap.mp member
  obtain ⟨text, rest, matched⟩ := Matcher.mem_of_searchAll found
  obtain ⟨ty, rest, typed, matched⟩ := Matcher.mem_andThen.mp matched
  obtain ⟨_, rest, -, matched⟩ := Matcher.mem_andThen.mp matched
  obtain ⟨pa, rest, pathed, matched⟩ := Matcher.mem_andThen.mp matched
  obtain ⟨_, rest, -, matched⟩ := Matcher.mem_andThen.mp matched
  obtain ⟨_, rest, -, matched⟩ := Matcher.mem_andThen.mp matched
  obtain ⟨_, rest, -, matched⟩ := Matcher.mem_andThen.mp matched
  obtain ⟨_, rest, -, matched⟩ := Matcher.mem_andThen.mp matched
  obtain ⟨_, rest, -, matched⟩ := Matcher.mem_andThen.mp matched
  obtain ⟨_, rest, -, matched⟩ := Matcher.mem_andThen.mp matched
  obtain ⟨⟨rfl, rfl, rfl⟩, -⟩ : (stixType = ty ∧ path = pa ∧ literal = _) ∧ _ := by
    simpa [Prod.ext_iff] using List.mem_singleton.mp matched
  obtain ⟨some_, typed⟩ := Matcher.mem_plus_one typed
  obtain ⟨-, pathed⟩ := Matcher.mem_plus_one pathed
  dsimp only at read
  split_ifs at read
  obtain rfl := Option.some.inj read
  dsimp only [typeOf]
  split_ifs
  · refine .inr ⟨_, rfl, fun c among => ?_, ?_⟩
    · rw [String.toList_ofList] at among
      have there := mem_of_mem_trimWhere among
      rw [trimStartMatches, String.toList_ofList] at there
      exact pathed c (by simpa using mem_strip there)
    · rw [String.toList_ofList, trimWhere_idem]
  · refine .inl ⟨fun empty => some_ (by simpa using empty), fun c among => typed c (by simpa using among)⟩

theorem trimStartMatches_once {start rest : String} (some_ : start ≠ "") (stop : startsWith rest start = false) :
    trimStartMatches (start ++ rest) start = rest := by
  have still (turns : Nat) : trimStartMatches.strip start turns rest.toList = rest.toList := by
    have unlike : start.toList.isPrefixOf rest.toList = false := stop
    cases turns <;> simp [trimStartMatches.strip, unlike]
  have once (turns : Nat) : trimStartMatches.strip start (turns + 1) (start ++ rest).toList = rest.toList := by
    have front : start.toList.isPrefixOf (start ++ rest).toList = true := startsWith_append start rest
    rw [trimStartMatches.strip, if_pos front, String.toList_append, List.drop_left, still]
  have long : 0 < (start ++ rest).toList.length := by
    have front : 0 < start.toList.length := List.length_pos_of_ne_nil (by simpa using some_)
    rw [String.toList_append, List.length_append]
    omega
  rw [trimStartMatches, ← Nat.sub_add_cancel long, once, String.ofList_toList]

/-- Marks around a text are trimmed away with its own. -/
theorem trimWhere_marked {p : Char → Bool} {front : List Char} {mark : Char} (cs : List Char)
    (front_ : ∀ c ∈ front, p c = true) (mark_ : p mark = true) :
    trimWhere p (front ++ (cs ++ [mark])) = trimWhere p cs := by
  rw [trimWhere, trimWhere, List.dropWhile_append_of_pos front_, List.dropWhile_append]
  split_ifs with empty
  · rw [List.isEmpty_iff.mp empty]
    simp [mark_]
  · rw [List.rdropWhile_concat_pos _ _ _ mark_]

theorem typeOf_hash {algorithm : String} (trimmed : trimWhere isPathMark algorithm.toList = algorithm.toList) :
    typeOf "file".toList ("hashes.".toList ++ apostrophe :: (algorithm.toList ++ [apostrophe])) = "file." ++ algorithm := by
  have path : String.ofList ("hashes.".toList ++ apostrophe :: (algorithm.toList ++ [apostrophe])) =
      "hashes" ++ String.ofList (['.', apostrophe] ++ (algorithm.toList ++ [apostrophe])) := by
    rw [← String.toList_inj]
    simp
  have stop : startsWith (String.ofList (['.', apostrophe] ++ (algorithm.toList ++ [apostrophe]))) "hashes" = false := by
    have text : (String.ofList (['.', apostrophe] ++ (algorithm.toList ++ [apostrophe]))).toList =
        '.' :: apostrophe :: (algorithm.toList ++ [apostrophe]) := String.toList_ofList
    rw [startsWith, text]
    rfl
  have file : String.ofList "file".toList = "file" := String.ofList_toList
  rw [typeOf, path, file, startsWith_append, trimStartMatches_once (by decide) stop, String.toList_ofList,
    trimWhere_marked algorithm.toList (by decide) (by decide), trimmed, String.ofList_toList]
  rfl

/-- A pattern of such a type is one comparison, which is read back as the type. -/
theorem patternFor_written {stixType value pattern : String} (typable : Typable stixType)
    (found : patternFor stixType value = some pattern) :
    ∃ ty path, (ty ≠ [] ∧ ∀ c ∈ ty, isTypeChar c = true) ∧ (path ≠ [] ∧ ∀ c ∈ path, isPathChar c = true) ∧
      typeOf ty path = stixType ∧ pattern.toList = written ty path (value.toList.flatMap escapeChar) := by
  rcases typable with ⟨some_, typed⟩ | ⟨algorithm, rfl, pathed, trimmed⟩
  · have plain : stripStart stixType "file." = none := by
      by_contra hash
      obtain ⟨rest, stripped⟩ := Option.ne_none_iff_exists'.mp hash
      have starts : startsWith stixType "file." = true := by
        by_contra other
        simp [stripStart, other] at stripped
      obtain ⟨tail, rfl⟩ := eq_append_of_startsWith starts
      exact absurd (typed '.' (by simp)) (by decide)
    simp only [patternFor, plain, some_, if_false, Option.some.injEq] at found
    subst found
    have property : propertyOf stixType ∈ ["name", "key", "command_line", "user_id", "number", "value"] := by
      rw [propertyOf]
      split_ifs <;> simp
    have fine : ∀ property ∈ ["name", "key", "command_line", "user_id", "number", "value"],
        (property.toList ≠ [] ∧ ∀ c ∈ property.toList, isPathChar c = true) ∧ startsWith property "hashes" = false := by
      decide +kernel
    obtain ⟨path, unhashed⟩ := fine _ property
    refine ⟨stixType.toList, (propertyOf stixType).toList, ⟨by simpa using some_, typed⟩, path, ?_, ?_⟩
    · rw [typeOf, String.ofList_toList, String.ofList_toList, unhashed, Bool.and_false]
      rfl
    · simp [written, escape_toList, apostrophe]
  · have hash : stripStart ("file." ++ algorithm) "file." = some algorithm := by
      simp [stripStart, startsWith_append]
    simp only [patternFor, hash, Option.some.injEq] at found
    subst found
    refine ⟨"file".toList, "hashes.".toList ++ apostrophe :: (algorithm.toList ++ [apostrophe]),
      by decide, ⟨by simp, fun c member => ?_⟩, ?_, ?_⟩
    · simp only [List.mem_append, List.mem_cons, List.not_mem_nil, or_false] at member
      rcases member with front | rfl | there | rfl
      · revert c
        decide
      · decide
      · exact pathed c there
      · decide
    · exact typeOf_hash trimmed
    · simp [written, escape_toList, apostrophe]

/-- Of such a type a pattern is read back as one observable, if its value is not empty. -/
theorem fromPattern_patternFor {stixType value pattern : String} (typable : Typable stixType)
    (found : patternFor stixType value = some pattern) : fromPattern pattern =
      if value = "" then [] else [⟨stixType, String.ofList (value.toList.flatMap readChar)⟩] := by
  obtain ⟨ty, path, ⟨some_, typed⟩, ⟨some_', pathed⟩, back, text⟩ := patternFor_written typable found
  have once (turns : Nat) : Matcher.searchAll comparison (turns + 1) pattern.toList =
      [(ty, path, value.toList.flatMap escapeChar)] := by
    have rest (turns : Nat) : Matcher.searchAll comparison turns [']'] = [] := by
      cases turns with
      | zero => rfl
      | succ turns =>
          have none_ : Matcher.search comparison [']'] = none := by decide
          rw [Matcher.searchAll, none_]
    rw [Matcher.searchAll, text, comparison_written some_ typed some_' pathed]
    exact congrArg _ (rest turns)
  rw [fromPattern, once, List.filterMap_cons, List.filterMap_nil]
  simp only [unescape_escape, back]
  by_cases empty : value = ""
  · simp [empty]
  · have some_ : value.toList.flatMap readChar ≠ [] := by
      intro none_
      have short := readChar_length value.toList
      rw [none_] at short
      exact empty (String.toList_eq_nil_iff.mp (List.eq_nil_of_length_eq_zero (by simp at short; omega)))
    simp [empty, some_]

/-! ## The bundle -/

section Reading

variable {crates : Crates} {g : Group} {mapping : Mapping} {o : Json} {e c : Shown} {id : String}

def isSighting (object : Json) : Bool := object.getStr "type" = some "sighting"

@[simp] theorem isSighting_identity (name class_ : String) : isSighting (identity crates name class_) = false := by
  simp [isSighting, identity, Json.getStr]

@[simp] theorem isSighting_marking (level id : String) : isSighting (marking level id) = false := by
  simp [isSighting, marking, Json.getStr]

@[simp] theorem isSighting_indicator (e : Shown) : isSighting (e.indicator crates) = false := by simp [isSighting]

@[simp] theorem isSighting_sighting (e : Shown) : isSighting (e.sighting crates) = true := by simp [isSighting]

/-- The id of an object tells whether it is a sighting. -/
theorem isSighting_iff (member : o ∈ g.objects crates) (keyed : idOf o = some id) :
    isSighting o = startsWith id "sighting--" := by
  have other {start : String} (starts : startsWith id start = true)
      (apart : ¬ (startsWith start "sighting--" = true ∨ startsWith "sighting--" start = true)) :
      false = startsWith id "sighting--" := by
    cases both : startsWith id "sighting--" with
    | false => rfl
    | true => exact absurd (starts_alike starts both) apart
  rcases Group.objects_cases member with ⟨name, class_, rfl⟩ | ⟨e, -, rfl⟩ | ⟨e, -, rfl⟩ | ⟨level, known, rfl⟩
  · obtain rfl := Option.some.inj ((idOf_identity name class_).symm.trans keyed)
    rw [isSighting_identity]
    exact other (startsWith_append "identity--" _) (by decide)
  · obtain rfl := Option.some.inj ((Shown.idOf_indicator e).symm.trans keyed)
    rw [isSighting_indicator]
    exact other e.indicatorId_starts (by decide)
  · obtain rfl := Option.some.inj ((Shown.idOf_sighting e).symm.trans keyed)
    rw [isSighting_sighting, e.sightingId_starts]
  · obtain rfl := Option.some.inj ((idOf_marking level.1 level.2).symm.trans keyed)
    rw [isSighting_marking]
    exact other (marking_starts known) (by decide)

theorem filter_objects : (g.objects crates).filter isSighting = (g.shown crates).map (Shown.sighting crates) := by
  have pairs (shown : List Shown) : (shown.flatMap fun e => [e.indicator crates, e.sighting crates]).filter isSighting =
      shown.map (Shown.sighting crates) := by
    induction shown with
    | nil => rfl
    | cons e rest ih => simp [ih]
  have others : ((g.gathered crates (g.shown crates) (g.skipped crates)).identities.map (·.2)).filter isSighting = [] := by
    refine List.filter_eq_nil_iff.mpr fun o member => ?_
    obtain ⟨p, there, rfl⟩ := List.mem_map.mp member
    obtain ⟨name, rfl⟩ := named_shown (g.shown crates) p there
    simp
  have marks (levels : List (String × String)) :
      (levels.map fun level => marking level.1 level.2).filter isSighting = [] := by
    refine List.filter_eq_nil_iff.mpr fun o member => ?_
    obtain ⟨level, -, rfl⟩ := List.mem_map.mp member
    simp
  simp only [Group.objects, List.filter_append, others, marks, List.append_nil]
  simp [Group.gathered, pairs]

/-- The sightings of a bundle: of each id that of the first value. -/
theorem filter_bundle : (allObjects crates [g]).filter isSighting =
    (FirstOfEach.keep (fun e => some (e.sightingId crates)) (g.shown crates)).map (Shown.sighting crates) := by
  have keys : idOf ∘ Shown.sighting crates = fun e => some (e.sightingId crates) := funext Shown.idOf_sighting
  rw [allObjects, List.flatMap_singleton, FirstOfEach.keep_filter, filter_objects, FirstOfEach.keep_map, keys]
  intro a member b member' k keyed keyed'
  rw [isSighting_iff member keyed, isSighting_iff member' keyed']

theorem byId_eq (member : o ∈ allObjects crates [g]) (keyed : idOf o = some id) : byId (allObjects crates [g]) id = some o := by
  have found : (byId (allObjects crates [g]) id).isSome = true :=
    List.find?_isSome.mpr ⟨o, List.mem_reverse.mpr member, by simpa using keyed⟩
  obtain ⟨o', first⟩ := Option.isSome_iff_exists.mp found
  have member' : o' ∈ allObjects crates [g] := List.mem_reverse.mp (List.mem_of_find?_eq_some first)
  have keyed' : idOf o' = some id := by simpa using List.find?_some first
  rw [first, FirstOfEach.eq_of_mem_keep member' member keyed' keyed]

/-- What is read out of a sighting carries the tag of the type, and what the sighting itself shows. -/
theorem mem_emit {first last : Option Int} {count : Nat} {tags : List String} {observables : List Observable}
    {s : Sighting} (member : s ∈ emit mapping first last count tags observables) :
    ∃ o ∈ observables, s.value = o.value ∧ s.tags.head? = some ("stix-type:" ++ o.stixType) ∧
      s.timestamp = first.or last ∧ s.lastTimestamp = last ∧ s.count = count := by
  obtain ⟨o, there, mapped⟩ := List.mem_filterMap.mp member
  obtain ⟨name, -, rfl⟩ := Option.map_eq_some_iff.mp mapped
  exact ⟨o, there, rfl, rfl, rfl, rfl, rfl⟩

theorem fromIndicator_untimed {s : Sighting} {objects : List Json}
    (member : s ∈ fromIndicator crates objects mapping (e.indicator crates)) : s.lastTimestamp = none := by
  rw [fromIndicator, Shown.indicator_pattern] at member
  obtain ⟨_, -, -, -, -, untimed, -⟩ := mem_emit member
  exact untimed

/-- A sighting of ours gives what is in the pattern of its indicator. -/
theorem fromSighting_shown
    (found : (g.shown crates).find? (fun c => c.indicatorId crates = e.indicatorId crates) = some c) : ∃ tags,
    fromSighting crates (allObjects crates [g]) mapping (e.sighting crates) =
      emit mapping (crates.parseRfc3339 (rfc3339 crates e.view.firstSeen))
        (crates.parseRfc3339 (rfc3339 crates e.view.lastSeen)) (countShown e.view) tags (fromPattern c.pattern) := by
  rw [← allShown_one] at found
  have keyed : idOf (c.indicator crates) = some (e.indicatorId crates) := by
    rw [Shown.idOf_indicator]
    simpa using List.find?_some found
  have there := (mem_indicator e.indicatorId_starts keyed).mpr ⟨c, found, rfl⟩
  have refers : (((e.sighting crates).getStr "sighting_of_ref").bind (byId (allObjects crates [g]))) =
      some (c.indicator crates) := by
    rw [Shown.sighting_of_ref, Option.bind_some, byId_eq there keyed]
  have target_ : (target (allObjects crates [g]) (e.sighting crates)).2 = fromPattern c.pattern := by
    rw [target, refers]
    simp
  have observed : textsOf (e.sighting crates) "observed_data_refs" = [] := by
    simp [textsOf, Shown.sighting, Stix.sighting]
  have first : (e.sighting crates).get "first_seen" = some (.str (rfc3339 crates e.view.firstSeen)) := by
    simp [Shown.sighting, Stix.sighting]
  have last : (e.sighting crates).get "last_seen" = some (.str (rfc3339 crates e.view.lastSeen)) := by
    simp [Shown.sighting, Stix.sighting]
  have small : countShown e.view < 2 ^ 64 := by
    rw [countShown]
    omega
  have count : countOf (e.sighting crates) "count" = countShown e.view := by
    have field : (e.sighting crates).get "count" = some (.int (countShown e.view)) := by
      simp [Shown.sighting, Stix.sighting]
    rw [countOf, field, Option.bind_some, Json.asU64_int small, Option.getD_some, countShown]
    omega
  simp only [fromSighting, target_, observed, List.filterMap_nil, List.flatMap_nil, List.append_nil, first, last, count,
    timestamp, Option.bind_some, Json.asStr_str]
  exact ⟨_, rfl⟩

/-! ## Every value once -/

/-- An observation that carries a value as it went out. -/
structure Carries (e : Shown) (s : Sighting) : Prop where
  value : s.value = e.view.value
  count : s.count = max 1 (min e.view.count 999999999)
  timestamp : s.timestamp = some e.view.firstSeen
  lastTimestamp : s.lastTimestamp = some e.view.lastSeen
  tag : s.tags.head? = some ("stix-type:" ++ e.observable)

variable (crates g) in
/-- What it takes for a bundle to be read back as it was written. -/
structure ReadBack : Prop where
  typed : ∀ e ∈ g.shown crates, Typable e.observable
  valued : ∀ e ∈ g.shown crates, e.view.value ≠ "" ∧ Toml.backslash ∉ e.view.value.toList
  apart : ((g.shown crates).map (Shown.sightingId crates)).Nodup
  own : ∀ e ∈ g.shown crates, ∀ c,
    (g.shown crates).find? (fun c => c.indicatorId crates = e.indicatorId crates) = some c →
      c.observable = e.observable ∧ c.view.value = e.view.value

/-- The years 0 to 9999. -/
def Dated (seconds : Int) : Prop := -62167219200 ≤ seconds ∧ seconds ≤ 253402300799

variable (crates) in
/-- Times in the years 0 to 9999 are read as they are written. -/
def ReadsTimes : Prop := ∀ seconds, Dated seconds → crates.parseRfc3339 (rfc3339 crates seconds) = some seconds

variable (crates mapping g) in
/-- What is read out of the sighting of a value. -/
def readOf (e : Shown) : List Sighting := fromObject crates (allObjects crates [g]) mapping (e.sighting crates)

theorem readOf_eq (reads : ReadsTimes crates) (first : Dated e.view.firstSeen) (last : Dated e.view.lastSeen)
    (found : (g.shown crates).find? (fun c => c.indicatorId crates = e.indicatorId crates) = some c) : ∃ tags,
    readOf crates g mapping e = emit mapping (some e.view.firstSeen) (some e.view.lastSeen) (countShown e.view) tags
      (fromPattern c.pattern) := by
  obtain ⟨tags, read⟩ := @fromSighting_shown crates g mapping e c found
  rw [reads _ first, reads _ last] at read
  exact ⟨tags, by simp [readOf, fromObject, read]⟩

theorem flatMap_filter_of_nil {α β : Type} {q : α → Bool} {f : α → List β} {l : List α}
    (nothing : ∀ a ∈ l, q a = false → f a = []) : l.flatMap f = (l.filter q).flatMap f := by
  induction l with
  | nil => rfl
  | cons a rest ih =>
      have next := ih fun b member => nothing b (List.mem_cons_of_mem _ member)
      cases of_kind : q a with
      | true => simp [of_kind, next]
      | false => simp [of_kind, next, nothing a List.mem_cons_self of_kind]

/-- With nothing read out of indicators, a bundle is read by its sightings. -/
theorem parseBundle_eq (silent : ∀ e ∈ g.shown crates, e.indicator crates ∈ allObjects crates [g] →
      fromObject crates (allObjects crates [g]) mapping (e.indicator crates) = []) :
    parseBundle crates mapping (g.bundle crates).bundle =
      (FirstOfEach.keep (fun e => some (e.sightingId crates)) (g.shown crates)).flatMap (readOf crates g mapping) := by
  have root : rootObjects (g.bundle crates).bundle = allObjects crates [g] := by
    rw [← objectsOf_bundle_all, Group.bundle_eq, objectsOf_bundleJson]
    simp [rootObjects, bundleJson]
  rw [parseBundle, root, @flatMap_filter_of_nil _ _ isSighting, filter_bundle, List.flatMap_map]
  · rfl
  · intro o member other
    have raw : o ∈ g.objects crates := by
      rw [allObjects, List.flatMap_singleton] at member
      exact FirstOfEach.keep_sublist.mem member
    rcases Group.objects_cases raw with ⟨name, class_, rfl⟩ | ⟨e, shown, rfl⟩ | ⟨e, -, rfl⟩ | ⟨level, -, rfl⟩
    · simp [fromObject, identity, Json.getStr]
    · exact silent e shown member
    · simp at other
    · simp [fromObject, marking, Json.getStr]

theorem exists_first (member : e ∈ g.shown crates) : ∃ c ∈ g.shown crates,
    (g.shown crates).find? (fun c => c.indicatorId crates = e.indicatorId crates) = some c := by
  have found : ((g.shown crates).find? fun c => c.indicatorId crates = e.indicatorId crates).isSome = true :=
    List.find?_isSome.mpr ⟨e, member, by simp⟩
  obtain ⟨c, first⟩ := Option.isSome_iff_exists.mp found
  exact ⟨c, List.mem_of_find?_eq_some first, first⟩

theorem pattern_of_shown (member : e ∈ g.shown crates) : patternFor e.observable e.view.value = some e.pattern :=
  @pattern_shown crates [g] e (by rwa [allShown_one])

theorem fromObject_indicator (e : Shown) : fromObject crates (allObjects crates [g]) mapping (e.indicator crates) =
    if e.indicatorId crates ∈ sighted (allObjects crates [g]) then []
    else fromIndicator crates (allObjects crates [g]) mapping (e.indicator crates) := by
  have id : (e.indicator crates).getStr "id" = some (e.indicatorId crates) := e.idOf_indicator
  simp [fromObject, id]

/-- A pattern of ours gives one observation at most. -/
theorem readOf_length (reads : ReadsTimes crates) (first : Dated e.view.firstSeen) (last : Dated e.view.lastSeen)
    (typed : ∀ e ∈ g.shown crates, Typable e.observable) (member : e ∈ g.shown crates) :
    (readOf crates g mapping e).length ≤ 1 := by
  obtain ⟨c, there, found⟩ := exists_first member
  obtain ⟨tags, read⟩ := @readOf_eq crates g mapping e c reads first last found
  rw [read, fromPattern_patternFor (typed c there) (pattern_of_shown there)]
  refine (List.length_filterMap_le _ _).trans ?_
  split_ifs <;> simp

theorem exists_of_left {α β : Type} {P : α → β → Prop} {l : List α} {m : List β} (all : List.Forall₂ P l m) :
    ∀ a ∈ l, ∃ b ∈ m, P a b := by
  induction all with
  | nil => simp
  | cons own _ ih =>
      intro a member
      rcases List.mem_cons.mp member with rfl | later
      · exact ⟨_, List.mem_cons_self, own⟩
      · obtain ⟨b, there, holds⟩ := ih a later
        exact ⟨b, List.mem_cons_of_mem _ there, holds⟩

theorem flatMap_length_le {α β : Type} {f : α → List β} {l : List α} (few : ∀ a ∈ l, (f a).length ≤ 1) :
    (l.flatMap f).length ≤ l.length := by
  induction l with
  | nil => simp
  | cons a rest ih =>
      have next := ih fun b member => few b (List.mem_cons_of_mem _ member)
      have here := few a List.mem_cons_self
      simp only [List.flatMap_cons, List.length_append, List.length_cons]
      omega

/-- Where each gives one at most and there is one for each, each gives its own. -/
theorem forall_of_flatMap {α β : Type} {P : α → β → Prop} {f : α → List β} {l : List α}
    (few : ∀ a ∈ l, (f a).length ≤ 1) (all : List.Forall₂ P l (l.flatMap f)) : ∀ a ∈ l, ∃ b, f a = [b] ∧ P a b := by
  induction l with
  | nil => exact fun _ member => nomatch member
  | cons a rest ih =>
      have few' : ∀ b ∈ rest, (f b).length ≤ 1 := fun b member => few b (List.mem_cons_of_mem _ member)
      rw [List.flatMap_cons] at all
      cases given : f a with
      | nil =>
          rw [given, List.nil_append] at all
          have long := all.length_eq
          have most := flatMap_length_le few'
          simp only [List.length_cons] at long
          omega
      | cons b more =>
          have here := few a List.mem_cons_self
          rw [given, List.length_cons] at here
          obtain rfl : more = [] := List.eq_nil_of_length_eq_zero (by omega)
          rw [given, List.singleton_append] at all
          obtain ⟨own, others⟩ := List.forall₂_cons.mp all
          intro a' member
          rcases List.mem_cons.mp member with rfl | later
          · exact ⟨b, given, own⟩
          · exact ih few' others a' later

theorem ReadBack.forall (back : ReadBack crates g) (mapped : ∀ stixType, (mapping.namespaceFor stixType).isSome = true)
    (reads : ReadsTimes crates) (dated : ∀ e ∈ g.shown crates, Dated e.view.firstSeen ∧ Dated e.view.lastSeen) :
    List.Forall₂ Carries (g.shown crates) (parseBundle crates mapping (g.bundle crates).bundle) := by
  have kept : FirstOfEach.keep (fun e => some (e.sightingId crates)) (g.shown crates) = g.shown crates := by
    rw [FirstOfEach.keep_self]
    simpa [List.filterMap_eq_map] using back.apart
  have silent : ∀ e ∈ g.shown crates, e.indicator crates ∈ allObjects crates [g] →
      fromObject crates (allObjects crates [g]) mapping (e.indicator crates) = [] := by
    intro e member _
    rw [fromObject_indicator, if_pos]
    have all : (allObjects crates [g]).filter (fun o => o.getStr "type" = some "sighting") =
        (g.shown crates).map (Shown.sighting crates) := by
      rw [← kept]
      exact filter_bundle
    rw [sighted, all]
    exact List.mem_filterMap.mpr ⟨e.sighting crates, List.mem_map_of_mem member, e.sighting_of_ref⟩
  have each : ∀ e ∈ g.shown crates, ∃ s, readOf crates g mapping e = [s] ∧ Carries e s := by
    intro e member
    obtain ⟨c, there, found⟩ := exists_first member
    obtain ⟨same, same'⟩ := back.own e member c found
    obtain ⟨some_, plain⟩ := back.valued c there
    obtain ⟨tags, read⟩ := @readOf_eq crates g mapping e c reads (dated e member).1 (dated e member).2 found
    obtain ⟨name, known⟩ := Option.isSome_iff_exists.mp (mapped c.observable)
    rw [fromPattern_patternFor (back.typed c there) (pattern_of_shown there), if_neg some_, readChar_same.mpr plain,
      String.ofList_toList] at read
    simp only [emit, List.filterMap_cons, List.filterMap_nil, known, Option.map_some] at read
    exact ⟨_, read, same', rfl, rfl, rfl, by rw [List.head?_cons, same]⟩
  rw [parseBundle_eq silent, kept]
  clear kept silent
  generalize g.shown crates = shown at each ⊢
  induction shown with
  | nil => exact .nil
  | cons e rest ih =>
      obtain ⟨s, read, carries⟩ := each e List.mem_cons_self
      rw [List.flatMap_cons, read, List.singleton_append]
      exact .cons carries (ih fun e' member => each e' (List.mem_cons_of_mem _ member))

/-- Everything read out of an object of ours says what type it was read as. -/
theorem fromObject_typed {s : Sighting} (member : o ∈ allObjects crates [g])
    (read : s ∈ fromObject crates (allObjects crates [g]) mapping o) :
    ∃ stixType, Typable stixType ∧ s.tags.head? = some ("stix-type:" ++ stixType) := by
  have raw : o ∈ g.objects crates := by
    rw [allObjects, List.flatMap_singleton] at member
    exact FirstOfEach.keep_sublist.mem member
  rcases Group.objects_cases raw with ⟨name, class_, rfl⟩ | ⟨e, -, rfl⟩ | ⟨e, shown, rfl⟩ | ⟨level, -, rfl⟩
  · simp [fromObject, identity, Json.getStr] at read
  · rw [fromObject_indicator] at read
    split_ifs at read
    · cases read
    · rw [fromIndicator, Shown.indicator_pattern] at read
      obtain ⟨o, there, -, tag, -⟩ := mem_emit read
      exact ⟨o.stixType, fromPattern_typable there, tag⟩
  · obtain ⟨c, -, found⟩ := exists_first shown
    obtain ⟨tags, given⟩ := @fromSighting_shown crates g mapping e c found
    have same : fromObject crates (allObjects crates [g]) mapping (e.sighting crates) =
        fromSighting crates (allObjects crates [g]) mapping (e.sighting crates) := by simp [fromObject]
    rw [same, given] at read
    obtain ⟨o, there, -, tag, -⟩ := mem_emit read
    exact ⟨o.stixType, fromPattern_typable there, tag⟩
  · simp [fromObject, marking, Json.getStr] at read

theorem readBack_of_forall (reads : ReadsTimes crates)
    (dated : ∀ e ∈ g.shown crates, Dated e.view.firstSeen ∧ Dated e.view.lastSeen)
    (all : List.Forall₂ Carries (g.shown crates) (parseBundle crates mapping (g.bundle crates).bundle)) :
    ReadBack crates g := by
  have root : rootObjects (g.bundle crates).bundle = allObjects crates [g] := by
    rw [← objectsOf_bundle_all, Group.bundle_eq, objectsOf_bundleJson]
    simp [rootObjects, bundleJson]
  -- A type that was read is one that can be, and every type that went out was read.
  have typed : ∀ e ∈ g.shown crates, Typable e.observable := by
    intro e member
    obtain ⟨s, read, carries⟩ := exists_of_left all e member
    rw [parseBundle, root] at read
    obtain ⟨o, there, read⟩ := List.mem_flatMap.mp read
    obtain ⟨stixType, typable, tag⟩ := fromObject_typed there read
    rw [carries.tag, Option.some.injEq, String.append_right_inj] at tag
    rwa [tag]
  -- What an indicator gives on its own has no end, so it gives nothing.
  have silent : ∀ e ∈ g.shown crates, e.indicator crates ∈ allObjects crates [g] →
      fromObject crates (allObjects crates [g]) mapping (e.indicator crates) = [] := by
    intro e member there
    refine List.eq_nil_iff_forall_not_mem.mpr fun s read => ?_
    have among : s ∈ parseBundle crates mapping (g.bundle crates).bundle := by
      rw [parseBundle, root]
      exact List.mem_flatMap.mpr ⟨_, there, read⟩
    obtain ⟨e', -, carries⟩ := exists_of_left all.flip s among
    rw [fromObject_indicator] at read
    split_ifs at read
    · cases read
    · have untimed := fromIndicator_untimed read
      rw [carries.lastTimestamp] at untimed
      cases untimed
  have few : ∀ e ∈ g.shown crates, (readOf crates g mapping e).length ≤ 1 := fun e member =>
    readOf_length reads (dated e member).1 (dated e member).2 typed member
  -- There are as many observations as values, so no sighting was left out.
  have kept : FirstOfEach.keep (fun e => some (e.sightingId crates)) (g.shown crates) = g.shown crates := by
    have long := all.length_eq
    rw [parseBundle_eq silent] at long
    refine FirstOfEach.keep_sublist.eq_of_length_le ?_
    rw [long]
    exact flatMap_length_le fun e member => few e (FirstOfEach.keep_sublist.mem member)
  have apart : ((g.shown crates).map (Shown.sightingId crates)).Nodup := by
    simpa [List.filterMap_eq_map] using FirstOfEach.keep_self.mp kept
  rw [parseBundle_eq silent, kept] at all
  have each := forall_of_flatMap few all
  -- Of its own indicator a value is read with its backslashes doubled.
  have own : ∀ e ∈ g.shown crates, ∀ c,
      (g.shown crates).find? (fun c => c.indicatorId crates = e.indicatorId crates) = some c →
        c.view.value ≠ "" ∧ c.observable = e.observable ∧
          c.view.value.toList.flatMap readChar = e.view.value.toList := by
    intro e member c found
    have there := List.mem_of_find?_eq_some found
    obtain ⟨s, given, carries⟩ := each e member
    obtain ⟨tags, read⟩ := @readOf_eq crates g mapping e c reads (dated e member).1 (dated e member).2 found
    have among : s ∈ readOf crates g mapping e := given ▸ List.mem_singleton_self s
    rw [read, fromPattern_patternFor (typed c there) (pattern_of_shown there)] at among
    obtain ⟨o, here, value, tag, -⟩ := mem_emit among
    split_ifs at here with empty
    · cases here
    · obtain rfl := List.mem_singleton.mp here
      rw [carries.tag, Option.some.injEq, String.append_right_inj] at tag
      rw [carries.value] at value
      exact ⟨empty, tag.symm, by rw [value, String.toList_ofList]⟩
  have plain : ∀ e ∈ g.shown crates, ∀ c,
      (g.shown crates).find? (fun c => c.indicatorId crates = e.indicatorId crates) = some c →
        c.view.value.toList.flatMap readChar = c.view.value.toList := by
    intro e member c found
    have same : c.indicatorId crates = e.indicatorId crates := by simpa using List.find?_some found
    exact (own c (List.mem_of_find?_eq_some found) c (by rw [same]; exact found)).2.2
  refine ⟨typed, fun e member => ?_, apart, fun e member c found => ?_⟩
  · obtain ⟨c, -, found⟩ := exists_first member
    obtain ⟨some_, -, read⟩ := own e member c found
    rw [plain e member c found, String.toList_inj] at read
    rw [← read]
    exact ⟨some_, readChar_same.mp (plain e member c found)⟩
  · obtain ⟨-, same, read⟩ := own e member c found
    rw [plain e member c found, String.toList_inj] at read
    exact ⟨same, read⟩

/-- Reading a bundle of ours gives each value once and as it went out exactly when every type can be
read back, no value is empty or holds a backslash, no two values share a sighting, and those that
share an indicator are one value of one type. -/
theorem read_back_iff (crates : Crates) (g : Group) (mapping : Mapping)
    (mapped : ∀ stixType, (mapping.namespaceFor stixType).isSome = true) (reads : ReadsTimes crates)
    (dated : ∀ e ∈ g.shown crates, Dated e.view.firstSeen ∧ Dated e.view.lastSeen) :
    List.Forall₂ Carries (g.shown crates) (parseBundle crates mapping (g.bundle crates).bundle) ↔ ReadBack crates g :=
  ⟨readBack_of_forall reads dated, fun back => back.forall mapped reads dated⟩

/-- Ids of some keys, one time as it is written, and the others as numbers. -/
def Crates.timed : Crates :=
  { Crates.sample with
    rfc3339 := fun time =>
      if time.timestamp = 1600000000 then "2020-09-13T12:26:40.000Z"
      else toString (time.timestamp + 62167219200).toNat
    parseRfc3339 := fun text =>
      if text = "2020-09-13T12:26:40.000Z" then some 1600000000
      else (parseU64 text).map fun n : Nat => (n : Int) - 62167219200 }

theorem timed_reads : ReadsTimes Crates.timed := by
  rintro seconds ⟨low, high⟩
  obtain ⟨time, shown⟩ : ∃ time, DateTime.fromTimestamp seconds = some time := by
    have inside : minTimestamp ≤ seconds ∧ seconds ≤ maxTimestamp := by
      simp only [minTimestamp, maxTimestamp]
      omega
    simp [DateTime.fromTimestamp, inside]
  have same : time.timestamp = seconds := DateTime.timestamp_fromTimestamp shown
  rw [rfc3339, shown, Option.getD_some]
  simp only [Crates.timed, same]
  by_cases known : seconds = 1600000000
  · simp [known]
  · have fits : (seconds + 62167219200).toNat < 2 ^ 64 := by omega
    have number := parseU64_toString fits
    have other : toString (seconds + 62167219200).toNat ≠ "2020-09-13T12:26:40.000Z" := by
      intro alike
      have none_ : parseU64 "2020-09-13T12:26:40.000Z" = none := by decide
      rw [alike, none_] at number
      cases number
    rw [if_neg known, if_neg other, number, Option.map_some, Option.some.injEq]
    omega

def addresses : Mapping := ⟨[("ipv4-addr", "stix/ips")], some "stix/other"⟩

theorem addresses_total (stixType : String) : (addresses.namespaceFor stixType).isSome = true := by
  rw [Mapping.namespaceFor]
  cases addresses.types.find? (·.1 = stixType) <;> rfl

def oneOf (value tags : String) : Group where
  parts := [⟨"feeds/a", [seen value tags], none⟩]
  settings := .default
  untyped := .skip

theorem read_back_address : List.Forall₂ Carries ((oneOf "1.2.3.4" "stix-type:ipv4-addr").shown Crates.timed)
    (parseBundle Crates.timed addresses ((oneOf "1.2.3.4" "stix-type:ipv4-addr").bundle Crates.timed).bundle) := by
  have shown : (oneOf "1.2.3.4" "stix-type:ipv4-addr").shown Crates.timed = [shownIn "feeds/a" "stix-type:ipv4-addr"] := by
    decide +kernel
  refine (read_back_iff Crates.timed _ addresses addresses_total timed_reads ?_).mpr ⟨?_, ?_, ?_, ?_⟩
  · rw [shown]
    simp [Dated, shownIn, seen]
  · rw [shown]
    simp only [List.mem_singleton, forall_eq]
    exact .inl (by decide)
  · rw [shown]
    decide
  · rw [shown]
    simp
  · rw [shown]
    simp [List.find?_cons]

/-- A key of the registry comes back with its backslash doubled. -/
theorem backslash_doubled : ¬ List.Forall₂ Carries
    ((oneOf "HKLM\\Software" "stix-type:windows-registry-key").shown Crates.timed)
    (parseBundle Crates.timed addresses
      ((oneOf "HKLM\\Software" "stix-type:windows-registry-key").bundle Crates.timed).bundle) := by
  intro all
  have views : ((oneOf "HKLM\\Software" "stix-type:windows-registry-key").shown Crates.timed).map (·.view) =
      [seen "HKLM\\Software" "stix-type:windows-registry-key"] := by decide +kernel
  obtain ⟨e, shown, same⟩ : ∃ e ∈ (oneOf "HKLM\\Software" "stix-type:windows-registry-key").shown Crates.timed,
      e.view = seen "HKLM\\Software" "stix-type:windows-registry-key" := by
    have member : seen "HKLM\\Software" "stix-type:windows-registry-key" ∈
        ((oneOf "HKLM\\Software" "stix-type:windows-registry-key").shown Crates.timed).map (·.view) := by simp [views]
    exact List.mem_map.mp member
  have dated : ∀ e ∈ (oneOf "HKLM\\Software" "stix-type:windows-registry-key").shown Crates.timed,
      Dated e.view.firstSeen ∧ Dated e.view.lastSeen := by
    intro e member
    have there := List.mem_map_of_mem (f := (·.view)) member
    rw [views, List.mem_singleton] at there
    simp [there, Dated, seen]
  have plain := ((readBack_of_forall timed_reads dated all).valued e shown).2
  rw [same] at plain
  exact plain (by decide)

end Reading

end Stix

end SightingDB
