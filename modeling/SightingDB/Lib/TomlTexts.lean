import SightingDB.Lib.Toml
import SightingDB.Lib.Traverse

/-!
Where the texts of a document come from: each stands on a line of its own, between quotes, and
decoding shortens whatever it changes.
-/
namespace Toml

section Scan

variable {m : Mode} {cs t r : List Char}

/-- What a scan has read is what stands in front of the closing quote. -/
theorem scan_content (scanned : scan m cs = some (t, r)) :
    ∃ body, cs = body ++ quoteMark :: r ∧ scan m (body ++ [quoteMark]) = some (t, []) := by
  induction cs generalizing m t with
  | nil => cases m <;> simp [scan] at scanned
  | cons c cs ih =>
      have mapped : ∀ d, (scan .text cs).map (fun r => (d :: r.1, r.2)) = some (t, r) →
          ∃ body, cs = body ++ quoteMark :: r ∧
            (scan .text (body ++ [quoteMark])).map (fun r => (d :: r.1, r.2)) = some (t, []) := by
        intro d found
        obtain ⟨⟨t', r'⟩, inner, same⟩ := Option.map_eq_some_iff.mp found
        obtain ⟨rfl, rfl⟩ : d :: t' = t ∧ r' = r := by simpa using same
        obtain ⟨body, whole, again⟩ := ih inner
        exact ⟨body, whole, by rw [again]; rfl⟩
      cases m with
      | text =>
          simp only [scan] at scanned
          split_ifs at scanned with quote slash control
          · obtain ⟨rfl, rfl⟩ : [] = t ∧ cs = r := by simpa using scanned
            exact ⟨[], by simp [quote], by simp [scan]⟩
          · obtain ⟨body, rfl, again⟩ := ih scanned
            have apart : backslash ≠ quoteMark := by decide
            exact ⟨c :: body, rfl, by simpa [scan, slash, apart] using again⟩
          · obtain ⟨body, rfl, again⟩ := mapped c scanned
            exact ⟨c :: body, rfl, by simpa [scan, quote, slash, control] using again⟩
      | escape =>
          simp only [scan] at scanned
          split at scanned
          · rename_i d short
            obtain ⟨body, rfl, again⟩ := mapped _ scanned
            exact ⟨c :: body, rfl, by simpa [scan, short] using again⟩
          · rename_i digits none_ long
            obtain ⟨body, rfl, again⟩ := ih scanned
            exact ⟨c :: body, rfl, by simpa [scan, none_, long] using again⟩
          · cases scanned
      | hex left v =>
          simp only [scan] at scanned
          split at scanned
          · cases scanned
          · rename_i d digit
            split_ifs at scanned with more
            · obtain ⟨body, rfl, again⟩ := ih scanned
              exact ⟨c :: body, rfl, by simpa [scan, digit, more] using again⟩
            · split at scanned
              · cases scanned
              · rename_i e point
                obtain ⟨body, rfl, again⟩ := mapped _ scanned
                exact ⟨c :: body, rfl, by simpa [scan, digit, more, point] using again⟩

theorem unquote_of_scan (scanned : scan .text cs = some (t, r)) :
    ∃ body, cs = body ++ quoteMark :: r ∧ unquote body = some t := by
  obtain ⟨body, whole, again⟩ := scan_content scanned
  exact ⟨body, whole, unquote_eq_some.mpr again⟩

/-- A character no escape is spelled with is kept. -/
theorem scan_keeps {d : Char} (loose : d ≠ quoteMark ∧ d ≠ backslash ∧ shortEscape d = none ∧ longEscape d = none ∧
    hexDigit d = none) (scanned : scan m cs = some (t, r)) (mem : d ∈ cs) : d ∈ t ∨ d ∈ r := by
  obtain ⟨quote, slash, short_, long_, digit_⟩ := loose
  induction cs generalizing m t with
  | nil => cases mem
  | cons c cs ih =>
      rcases scan_cons scanned with ⟨-, rfl, -, rfl⟩ | ⟨-, rfl, inner⟩ | ⟨e, t', plain, short, digit, rfl, inner⟩ |
        ⟨-, long, _, _, inner⟩ | ⟨digit, _, _, _, _, -, inner⟩
      · exact .inr ((List.mem_cons.mp mem).resolve_left quote)
      · exact ih inner ((List.mem_cons.mp mem).resolve_left slash)
      · rcases List.mem_cons.mp mem with rfl | later
        · cases m with
          | text => exact .inl (by simp [(plain rfl).1])
          | escape => simp [short_] at short
          | hex left v => exact absurd (digit left v rfl) (by simp [digit_])
        · exact (ih inner later).imp (List.mem_cons_of_mem _) id
      · rcases List.mem_cons.mp mem with rfl | later
        · simp [long_] at long
        · exact ih inner later
      · rcases List.mem_cons.mp mem with rfl | later
        · simp [digit_] at digit
        · exact ih inner later

end Scan

/-! ## Between quotes -/

/-- A text between quotes. -/
def quoted (cs : List Char) : List Char := quoteMark :: (cs ++ [quoteMark])

theorem infix_append_cons {α : Type} {l front rest : List α} {c : α} (inside : l <:+: front ++ c :: rest) (off : c ∉ l) :
    l <:+: front ∨ l <:+: rest := by
  obtain ⟨s, t, whole⟩ := inside
  rcases List.append_eq_append_iff.mp whole with ⟨more, same, -⟩ | ⟨more, same, after⟩
  · exact .inl ⟨s, more, same.symm⟩
  · cases more with
    | nil => exact .inl ⟨s, [], by simpa using same⟩
    | cons d more =>
        obtain ⟨rfl, rfl⟩ := List.cons.inj after
        rcases List.append_eq_append_iff.mp same with ⟨gap, -, past⟩ | ⟨gap, -, past⟩
        · exact absurd (by simp [past]) off
        · cases gap with
          | nil => exact absurd (by simp [show l = c :: more from past.symm]) off
          | cons d gap =>
              obtain ⟨rfl, rfl⟩ := List.cons.inj past
              exact .inr ⟨gap, t, rfl⟩

/-- Between the only two quotes there is no longer text between quotes than the one there is. -/
theorem length_le_of_framed {front rest body text : List Char} (inside : quoted body <:+: front ++ (quoted text ++ rest))
    (before : quoteMark ∉ front) (after : quoteMark ∉ rest) : body.length ≤ text.length := by
  obtain ⟨s, t, whole⟩ := inside
  have start : front.length ≤ s.length := by
    rw [List.append_assoc] at whole
    rcases List.append_eq_append_iff.mp whole with ⟨more, same, past⟩ | ⟨more, same, -⟩
    · cases more with
      | nil => simp [same]
      | cons d more =>
          obtain rfl := (List.cons.inj past).1
          exact absurd (by simp [same]) before
    · simp [same]
  have stop : rest.length ≤ t.length := by
    rw [← List.append_assoc] at whole
    rcases List.append_eq_append_iff.mp whole with ⟨more, -, past⟩ | ⟨more, same, past⟩
    · simp [past]
    · rcases List.eq_nil_or_concat more with rfl | ⟨more, d, rfl⟩
      · simp [past]
      · -- The closing quote of the body would be among what follows the text.
        have last : d = quoteMark := by
          have ends_ : (s ++ quoteMark :: body) ++ [quoteMark] = (front ++ quoted text ++ more) ++ [d] := by
            rw [List.concat_eq_append, ← List.append_assoc] at same
            rw [← same, quoted, List.append_assoc, List.cons_append]
          exact (List.cons.inj (List.append_inj' ends_ rfl).2).1.symm
        exact absurd (by simp [past, last]) after
  have lengths := congrArg List.length whole
  simp only [quoted, List.length_append, List.length_cons, List.length_nil] at lengths
  omega

/-- In a list of texts between quotes, none of them with a comma, there is no longer text
without a comma between quotes. -/
theorem length_le_of_listed {front body : List Char} {parts : List (List Char)} (last : List Char)
    (inside : quoted body <:+: front ++ ([',', ' '].intercalate (parts.map quoted) ++ last))
    (before : quoteMark ∉ front) (after : quoteMark ∉ last) (comma : ',' ∉ body) (slashless : backslash ∉ front ∧ backslash ∉ last)
    (slash : backslash ∈ body) : ∃ p ∈ parts, backslash ∈ p ∧ body.length ≤ p.length := by
  have holds : ∀ {x : Char} {cs}, x ∈ body → quoted body <:+: cs → x ∈ cs := fun mem inside =>
    inside.subset (by simp [quoted, mem])
  have apart : backslash ≠ quoteMark := by decide
  induction parts generalizing front with
  | nil =>
      have := holds slash inside
      simp [slashless] at this
  | cons p parts ih =>
      cases parts with
      | nil =>
          simp only [List.map_cons, List.map_nil, List.intercalate_singleton] at inside
          refine ⟨p, by simp, ?_, length_le_of_framed inside before after⟩
          have := holds slash inside
          simpa [quoted, slashless, apart] using this
      | cons q parts =>
          have step : front ++ ([',', ' '].intercalate ((p :: q :: parts).map quoted) ++ last) =
              (front ++ (quoted p ++ [])) ++ ',' :: ([' '] ++ ([',', ' '].intercalate ((q :: parts).map quoted) ++ last)) := by
            simp [List.intercalate]
          have off : ',' ∉ quoted body := by
            have : ',' ≠ quoteMark := by decide
            simp [quoted, comma, this]
          rw [step] at inside
          rcases infix_append_cons inside off with here | later
          · refine ⟨p, by simp, ?_, length_le_of_framed here before (by simp)⟩
            have := holds slash here
            simpa [quoted, slashless, apart] using this
          · obtain ⟨r, mem, found⟩ := ih later (by decide) ⟨by decide, slashless.2⟩
            exact ⟨r, List.mem_cons_of_mem _ mem, found⟩

/-! ## Texts on a line -/

def Scalar.texts : Scalar → List String
  | .str t => [t]
  | .int _ => []
  | .bool _ => []

def Value.texts : Value → List String
  | .scalar s => s.texts
  | .array items => items.flatMap (·.texts)
  | .table fields => fields.flatMap (·.2.texts)

/-- Somewhere in it, between quotes, a text is spelled. -/
def Spells (cs : List Char) (t : String) : Prop := ∃ body, quoted body <:+: cs ∧ unquote body = some t.toList

theorem Spells.mono {cs ds : List Char} {t : String} (spelled : Spells cs t) (inside : cs <:+: ds) : Spells ds t := by
  obtain ⟨body, here, read⟩ := spelled
  exact ⟨body, here.trans inside, read⟩

section Lines

variable {cs r : List Char}

theorem spells_of_scan {t : List Char} (scanned : scan .text cs = some (t, r)) :
    r <:+ cs ∧ Spells (quoteMark :: cs) (String.ofList t) := by
  obtain ⟨body, rfl, read⟩ := unquote_of_scan scanned
  refine ⟨⟨body ++ [quoteMark], by simp⟩, body, ⟨[], r, by simp [quoted]⟩, by simpa using read⟩

theorem number_suffix {n : Int} (read : number cs = some (n, r)) : r <:+ cs := by
  unfold number at read
  split at read
  rename_i negative body signed
  have inside : body <:+ cs := by
    split at signed
    · obtain rfl := (Prod.mk.inj signed).2
      exact List.suffix_cons _ _
    · obtain rfl := (Prod.mk.inj signed).2
      exact List.suffix_cons _ _
    · obtain rfl := (Prod.mk.inj signed).2
      exact List.suffix_rfl
  split at read
  · cases read
  · simp only at read
    split_ifs at read
    · obtain rfl := (Prod.mk.inj (Option.some.inj read)).2
      exact (List.dropWhile_suffix _).trans inside
    · obtain rfl := (Prod.mk.inj (Option.some.inj read)).2
      exact (List.dropWhile_suffix _).trans inside

theorem scalar_texts {s : Scalar} (read : scalar cs = some (s, r)) : r <:+ cs ∧ ∀ t ∈ s.texts, Spells cs t := by
  rw [scalar.eq_def] at read
  split at read
  · obtain ⟨rfl, rfl⟩ := Prod.mk.inj (Option.some.inj read)
    exact ⟨⟨['t', 'r', 'u', 'e'], rfl⟩, by simp [Scalar.texts]⟩
  · obtain ⟨rfl, rfl⟩ := Prod.mk.inj (Option.some.inj read)
    exact ⟨⟨['f', 'a', 'l', 's', 'e'], rfl⟩, by simp [Scalar.texts]⟩
  · cases read
  · rename_i c rest _ _
    split_ifs at read with quote
    · obtain ⟨⟨t, r'⟩, scanned, same⟩ := Option.map_eq_some_iff.mp read
      obtain ⟨rfl, rfl⟩ := Prod.mk.inj same
      obtain ⟨suffix, spelled⟩ := spells_of_scan scanned
      refine ⟨suffix.trans (List.suffix_cons _ _), fun t' mem => ?_⟩
      obtain rfl : t' = String.ofList t := by simpa [Scalar.texts] using mem
      exact quote ▸ spelled
    · obtain ⟨⟨n, r'⟩, number_, same⟩ := Option.map_eq_some_iff.mp read
      obtain ⟨rfl, rfl⟩ := Prod.mk.inj same
      exact ⟨number_suffix number_, by simp [Scalar.texts]⟩

theorem key_suffix {k : String} (read : key cs = some (k, r)) : r <:+ cs := by
  rw [key.eq_def] at read
  split at read
  · cases read
  · rename_i c rest
    split_ifs at read
    · obtain ⟨⟨t, r'⟩, scanned, same⟩ := Option.map_eq_some_iff.mp read
      obtain ⟨-, rfl⟩ := Prod.mk.inj same
      exact (spells_of_scan scanned).1.trans (List.suffix_cons _ _)
    · split at read
      · cases read
      · obtain ⟨-, rfl⟩ := Prod.mk.inj (Option.some.inj read)
        exact List.dropWhile_suffix _

theorem skip_suffix (cs : List Char) : skip cs <:+ cs := List.dropWhile_suffix _

theorem field_texts {f : String × Scalar} (read : field cs = some (f, r)) : r <:+ cs ∧ ∀ t ∈ f.2.texts, Spells cs t := by
  rw [field] at read
  obtain ⟨k, key_, read⟩ := Option.bind_eq_some_iff.mp read
  split at read
  · rename_i rest equals
    obtain ⟨v, value_, same⟩ := Option.map_eq_some_iff.mp read
    obtain ⟨rfl, rfl⟩ := Prod.mk.inj same
    have inside : skip rest <:+ cs := (skip_suffix rest).trans
      ((List.suffix_cons '=' rest).trans (equals ▸ (skip_suffix k.2).trans (key_suffix key_)))
    obtain ⟨suffix, spelled⟩ := scalar_texts value_
    exact ⟨suffix.trans inside, fun t mem => (spelled t mem).mono inside.isInfix⟩
  · cases read

theorem listed_items {α : Type} {item : Scanner α} {close : Char} (suffix : ∀ cs x r, item cs = some (x, r) → r <:+ cs)
    {fuel : Nat} {xs : List α} (read : listed item close fuel cs = some (xs, r)) :
    r <:+ cs ∧ ∀ x ∈ xs, ∃ cs' r', cs' <:+ cs ∧ item cs' = some (x, r') := by
  induction fuel generalizing cs xs with
  | zero => cases read
  | succ fuel ih =>
      rw [listed] at read
      split at read
      · cases read
      · rename_i c rest skipped
        have inside : c :: rest <:+ cs := skipped ▸ skip_suffix cs
        split_ifs at read with closed
        · obtain ⟨rfl, rfl⟩ := Prod.mk.inj (Option.some.inj read)
          exact ⟨(List.suffix_cons _ _).trans inside, by simp⟩
        · obtain ⟨x, first, read⟩ := Option.bind_eq_some_iff.mp read
          have after := (suffix _ _ _ first).trans inside
          split at read
          · cases read
          · rename_i d more next
            have rest_ : more <:+ cs := (List.suffix_cons d more).trans (next ▸ (skip_suffix x.2).trans after)
            split_ifs at read with done comma
            · obtain ⟨rfl, rfl⟩ := Prod.mk.inj (Option.some.inj read)
              refine ⟨rest_, fun y mem => ?_⟩
              obtain rfl : y = x.1 := by simpa using mem
              exact ⟨_, _, inside, first⟩
            · obtain ⟨⟨ys, r'⟩, later, same⟩ := Option.map_eq_some_iff.mp read
              obtain ⟨rfl, rfl⟩ := Prod.mk.inj same
              obtain ⟨suffix_, each⟩ := ih later
              refine ⟨suffix_.trans rest_, fun y mem => ?_⟩
              rcases List.mem_cons.mp mem with rfl | mem
              · exact ⟨_, _, inside, first⟩
              · obtain ⟨cs', r'', at_, read_⟩ := each y mem
                exact ⟨cs', r'', at_.trans rest_, read_⟩

theorem value_texts {v : Value} (read : value cs = some (v, r)) {t : String} (mem : t ∈ v.texts) : Spells cs t := by
  rw [value.eq_def] at read
  split at read
  · rename_i rest
    obtain ⟨⟨items, r'⟩, listed_, same⟩ := Option.map_eq_some_iff.mp read
    obtain ⟨rfl, rfl⟩ := Prod.mk.inj same
    obtain ⟨s, here, inside⟩ := List.mem_flatMap.mp mem
    obtain ⟨cs', r'', at_, read_⟩ := (listed_items (fun _ _ _ h => (scalar_texts h).1) listed_).2 s here
    exact ((scalar_texts read_).2 t inside).mono (at_.isInfix.trans (List.suffix_cons _ _).isInfix)
  · rename_i rest
    obtain ⟨⟨fields, r'⟩, listed_, read⟩ := Option.bind_eq_some_iff.mp read
    split_ifs at read
    obtain ⟨rfl, rfl⟩ := Prod.mk.inj (Option.some.inj read)
    obtain ⟨f, here, inside⟩ := List.mem_flatMap.mp mem
    obtain ⟨cs', r'', at_, read_⟩ := (listed_items (fun _ _ _ h => (field_texts h).1) listed_).2 f here
    exact ((field_texts read_).2 t inside).mono (at_.isInfix.trans (List.suffix_cons _ _).isInfix)
  · obtain ⟨⟨s, r'⟩, scalar_, same⟩ := Option.map_eq_some_iff.mp read
    obtain ⟨rfl, rfl⟩ := Prod.mk.inj same
    exact (scalar_texts scalar_).2 t mem

/-- Every text of a pair is spelled on its line. -/
theorem line_texts {k : String} {v : Value} (read : line cs = some (.pair k v)) {t : String} (mem : t ∈ v.texts) :
    Spells cs t := by
  rw [line.eq_def] at read
  split at read
  · cases read
  · split_ifs at read
    cases read
  · simp at read
  · simp at read
  · rename_i solid _ _ _
    obtain ⟨k', key_, read⟩ := Option.bind_eq_some_iff.mp read
    split at read
    · rename_i rest equals
      obtain ⟨v', value_, read⟩ := Option.bind_eq_some_iff.mp read
      split_ifs at read
      obtain ⟨-, rfl⟩ := Line.pair.inj (Option.some.inj read)
      have inside : skip rest <:+ cs := (skip_suffix rest).trans
        ((List.suffix_cons '=' rest).trans (equals ▸ (skip_suffix k'.2).trans ((key_suffix key_).trans (skip_suffix cs))))
      exact (value_texts value_ mem).mono inside.isInfix
    · cases read

end Lines

/-! ## Texts of a document -/

theorem mem_of_lookup {α : Type} {l : List (String × α)} {name : String} {x : α} (found : l.lookup name = some x) :
    (name, x) ∈ l := by
  induction l with
  | nil => cases found
  | cons p l ih =>
      rw [List.lookup_cons] at found
      split at found
      · rename_i same
        obtain rfl := Option.some.inj found
        obtain rfl : name = p.1 := by simpa using same
        simp
      · exact List.mem_cons_of_mem _ (ih found)

/-- A list of lines has a pair of a section on one of them. -/
theorem sections_pair {h : Option Line} {ps : List (String × Value)} {lines : List Line} {s : Section}
    (mem : s ∈ sections h ps lines) {p : String × Value} (pair : p ∈ s.pairs) : p ∈ ps ∨ .pair p.1 p.2 ∈ lines := by
  induction lines generalizing h ps with
  | nil =>
      obtain rfl : s = ⟨h, ps⟩ := by simpa [sections] using mem
      exact .inl pair
  | cons l lines ih =>
      cases l with
      | blank => exact (ih mem).imp id (List.mem_cons_of_mem _)
      | pair k v =>
          rcases ih mem with before | later
          · rcases List.mem_append.mp before with old | here
            · exact .inl old
            · obtain rfl : p = (k, v) := by simpa using here
              exact .inr (by simp)
          · exact .inr (List.mem_cons_of_mem _ later)
      | table name =>
          rcases List.mem_cons.mp mem with rfl | later
          · exact .inl pair
          · exact .inr (List.mem_cons_of_mem _ ((ih later).resolve_left (by simp)))
      | array name =>
          rcases List.mem_cons.mp mem with rfl | later
          · exact .inl pair
          · exact .inr (List.mem_cons_of_mem _ ((ih later).resolve_left (by simp)))

theorem add_array {doc doc' : Document} {s : Section} (added : doc.add s = some doc') {name : String}
    {items : List (List (String × Value))} (mem : (name, .array items) ∈ doc') :
    ∀ item ∈ items, (∃ old, (name, .array old) ∈ doc ∧ item ∈ old) ∨ s.pairs = item := by
  intro item here
  rw [Document.add] at added
  split_ifs at added
  split at added
  · obtain rfl := Option.some.inj added
    simp only [List.mem_append, List.mem_map, Prod.mk.injEq, reduceCtorEq, and_false, exists_false, or_false] at mem
    exact .inl ⟨items, mem, here⟩
  · split_ifs at added
    obtain rfl := Option.some.inj added
    simp only [List.mem_append, List.mem_singleton, Prod.mk.injEq, reduceCtorEq, and_false, or_false] at mem
    exact .inl ⟨items, mem, here⟩
  · rename_i name'
    split at added
    · obtain rfl := Option.some.inj added
      simp only [List.mem_append, List.mem_singleton, Prod.mk.injEq, Node.array.injEq] at mem
      rcases mem with old | ⟨-, rfl⟩
      · exact .inl ⟨items, old, here⟩
      · exact .inr (List.mem_singleton.mp here).symm
    · rename_i before found
      obtain rfl := Option.some.inj added
      obtain ⟨p, old, same⟩ := List.mem_map.mp mem
      split_ifs at same with named
      · obtain ⟨rfl, same_⟩ := Prod.mk.inj same
        obtain rfl := Node.array.inj same_
        rcases List.mem_append.mp here with earlier | now
        · exact .inl ⟨before, mem_of_lookup found, earlier⟩
        · exact .inr (List.mem_singleton.mp now).symm
      · exact .inl ⟨items, same ▸ old, here⟩
    · cases added
  · cases added

/-- The pairs of an array's tables are those of sections. -/
theorem foldlM_add_array {ss : List Section} {start doc : Document} (added : ss.foldlM Document.add start = some doc)
    {name : String} {items : List (List (String × Value))} (mem : (name, .array items) ∈ doc) :
    ∀ item ∈ items, (∃ old, (name, .array old) ∈ start ∧ item ∈ old) ∨ ∃ s ∈ ss, s.pairs = item := by
  induction ss generalizing start with
  | nil =>
      obtain rfl : start = doc := Option.some.inj added
      exact fun item here => .inl ⟨items, mem, here⟩
  | cons s ss ih =>
      rw [List.foldlM_cons] at added
      obtain ⟨mid, step, rest⟩ := Option.bind_eq_some_iff.mp added
      intro item here
      rcases ih rest item here with ⟨old, inside, at_⟩ | ⟨s', later, same⟩
      · rcases add_array step inside item at_ with before | now
        · exact .inl before
        · exact .inr ⟨s, by simp, now⟩
      · exact .inr ⟨s', List.mem_cons_of_mem _ later, same⟩

/-- A pair of a table in an array stands on one of the lines. -/
theorem document_pair {cs : List Char} {doc : Document} (read : document cs = some doc) {name : String}
    {items : List (List (String × Value))} (found : doc.lookup name = some (.array items)) {item : List (String × Value)}
    (here : item ∈ items) {p : String × Value} (pair : p ∈ item) :
    ∃ l ∈ cs.splitOn '\n', line l = some (.pair p.1 p.2) := by
  rw [document] at read
  obtain ⟨lines, each, added⟩ := Option.bind_eq_some_iff.mp read
  rcases foldlM_add_array added (mem_of_lookup found) item here with ⟨old, none, -⟩ | ⟨s, inside, rfl⟩
  · cases none
  · have mem := (sections_pair inside pair).resolve_left (by simp)
    exact Traverse.exists_left (Traverse.mapM_eq_some_iff.mp each) mem

end Toml
