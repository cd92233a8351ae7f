import SightingDB.Lib.TomlWritten

/-!
Documents of nested tables: headers of several keys parted by dots, and pairs under them. No
table is opened twice and none lies under a value. Arrays of tables and dotted keys in pairs
are refused.
-/
namespace Toml

/-! ## Reading -/

/-- A quoted, literal or bare key of a header. -/
def headerKey (cs : List Char) : Option (String × List Char) :=
  match cs with
  | '\x27' :: rest =>
      match rest.dropWhile (· ≠ '\x27') with
      | [] => none
      | _ :: after =>
          let name := rest.takeWhile (· ≠ '\x27')
          if name.all fun c => !isControl c then some (String.ofList name, after) else none
  | _ => key cs

/-- Keys parted by dots. -/
def headerPath : Nat → Scanner (List String)
  | 0, _ => none
  | fuel + 1, cs => (headerKey (skip cs)).bind fun k =>
      match skip k.2 with
      | '.' :: rest => (headerPath fuel rest).map fun path => (k.1 :: path.1, path.2)
      | rest => some ([k.1], rest)

/-- A header, from behind its opening bracket on. -/
def headerLine (cs : List Char) : Option (List String) :=
  (headerPath cs.length cs).bind fun path =>
    match path.2 with
    | ']' :: rest => if ends rest then some path.1 else none
    | _ => none

inductive Entry
  | blank
  | table (path : List String)
  | pair (key : String) (value : Value)
  deriving DecidableEq

def entry (cs : List Char) : Option Entry :=
  match skip cs with
  | '[' :: rest => (headerLine rest).map .table
  | _ => match line cs with
    | some .blank => some .blank
    | some (.pair k v) => some (.pair k v)
    | _ => none

/-- A table with the pairs under its header; the pairs before any header are at the root. -/
structure Table where
  path : List String
  pairs : List (String × Value)
  deriving DecidableEq

def tablesOf (path : List String) (pairs : List (String × Value)) : List Entry → List Table
  | [] => [⟨path, pairs⟩]
  | .blank :: rest => tablesOf path pairs rest
  | .pair k v :: rest => tablesOf path (pairs ++ [(k, v)]) rest
  | .table path' :: rest => ⟨path, pairs⟩ :: tablesOf path' [] rest

/-- No key is given twice, no table is opened twice, and none lies under a value. -/
def WellFormed (tables : List Table) : Prop :=
  (tables.map (·.path)).Nodup ∧ (∀ t ∈ tables, (t.pairs.map Prod.fst).Nodup) ∧
    ∀ t ∈ tables, ∀ t' ∈ tables, ∀ p ∈ t.pairs, ¬ t.path ++ [p.1] <+: t'.path

instance (tables : List Table) : Decidable (WellFormed tables) := inferInstanceAs (Decidable (_ ∧ _ ∧ _))

def tables (cs : List Char) : Option (List Table) :=
  ((cs.splitOn '\n').mapM entry).bind fun entries =>
    let found := tablesOf [] [] entries
    if WellFormed found then some found else none

/-! ## Looking up -/

inductive Found
  | absent
  | value (v : Value)
  | table
  deriving DecidableEq

/-- What stands under a key of a table. -/
def look (tables : List Table) (path : List String) (k : String) : Found :=
  match (tables.filter (·.path = path)).findSome? (·.pairs.lookup k) with
  | some v => .value v
  | none => if tables.any fun t => (path ++ [k]).isPrefixOf t.path then .table else .absent

/-- The keys of a table, in the order in which they are met. -/
def keysOf (tables : List Table) (path : List String) : List String :=
  (tables.flatMap fun t =>
    if t.path = path then t.pairs.map Prod.fst
    else if path.isPrefixOf t.path then ((t.path.drop path.length).head?).toList else []).dedup

/-! ## Headers -/

section Headers

variable {cs r name : List Char} {outer : String}

theorem headerKey_key {c : Char} (off : c ≠ '\x27') : headerKey (c :: cs) = key (c :: cs) := by
  rw [headerKey]
  rintro rest same
  exact off (List.cons.inj same).1

/-- The text between quotes that a scan has read is no longer than what was put there, and is
shorter if a quote or a backslash was. -/
theorem scan_framed {t : List Char} {c : Char} (solid : c ≠ quoteMark)
    (scanned : scan .text (name ++ [quoteMark, c]) = some (t, r)) :
    t.length ≤ name.length ∧ (quoteMark ∈ name ∨ backslash ∈ name → t.length < name.length) := by
  obtain ⟨body, whole, read⟩ := unquote_of_scan scanned
  have short := unquote_shortens (p := fun _ => true) (fun _ _ => rfl) read
  simp only [List.countP_true] at short
  have last : quoteMark ∉ [c] := by simpa using Ne.symm solid
  rcases List.append_eq_append_iff.mp whole with ⟨more, rfl, past⟩ | ⟨more, rfl, past⟩
  · -- The quote that was found is the one that was put behind the name.
    cases more with
    | nil =>
        rw [List.append_nil] at read short
        refine ⟨short.1, fun spoilt => short.2 ?_⟩
        by_contra straight
        have plain := (plain_of_unquote read straight).2
        rcases spoilt with quote | slash
        · exact (plain _ quote).1 rfl
        · exact straight slash
    | cons d more =>
        have inside : [c] = more ++ quoteMark :: r := (List.cons.inj past).2
        exact absurd (by rw [inside]; simp) last
  · cases more with
    | nil =>
        rw [List.append_nil]
        refine ⟨short.1, fun spoilt => short.2 ?_⟩
        by_contra straight
        have plain := (plain_of_unquote read straight).2
        rcases spoilt with quote | slash
        · exact (plain _ (by simpa using quote)).1 rfl
        · exact straight (by simpa using slash)
    | cons d more =>
        simp only [List.length_append, List.length_cons]
        exact ⟨by omega, fun _ => by omega⟩

/-- A header of a bare key and one between quotes. -/
def headerWritten (outer : String) (name : List Char) : List Char :=
  '[' :: (outer.toList ++ '.' :: quoteMark :: (name ++ [quoteMark, ']']))

/-- A line that starts as no header is read as any line. -/
theorem entry_line {c : Char} (solid : isBlank c = false) (bracket : c ≠ '[') :
    entry (c :: cs) = match line (c :: cs) with
      | some .blank => some .blank
      | some (.pair k v) => some (.pair k v)
      | _ => none := by
  rw [entry, skip_cons solid]
  split
  · rename_i same
    exact absurd (List.cons.inj same).1 bracket
  · rfl

/-- A line whose key is bare. -/
theorem entry_bare {name : String} (bare : Bare name) (v : List Char) :
    entry (name.toList ++ ' ' :: '=' :: ' ' :: v) = match ending name.toList v with
      | some .blank => some .blank
      | some (.pair k v) => some (.pair k v)
      | _ => none := by
  rw [← line_bare bare]
  obtain ⟨c, cs, shape, first⟩ := bare_head bare
  have solid : isBlank c = false := by
    simp [isBlank, bare_ne first (by decide : isBare ' ' = false), bare_ne first (by decide : isBare '\t' = false)]
  rw [shape, List.cons_append]
  exact entry_line solid (bare_ne first (by decide))

theorem entry_headerWritten (outer : String) (name : List Char) :
    entry (headerWritten outer name) =
      (headerLine (outer.toList ++ '.' :: quoteMark :: (name ++ [quoteMark, ']']))).map .table := by
  rw [entry, headerWritten, skip_cons (by decide)]
  rfl

theorem headerPath_outer (bare : Bare outer) (fuel : Nat) (rest : List Char) :
    headerPath (fuel + 1) (outer.toList ++ '.' :: rest) =
      (headerPath fuel rest).map fun path => (outer :: path.1, path.2) := by
  obtain ⟨c, cs, shape, first⟩ := bare_head bare
  have named := key_bare_stop bare (by decide : isBare '.' = false) rest
  have solid : isBlank c = false := by
    simp [isBlank, bare_ne first (by decide : isBare ' ' = false), bare_ne first (by decide : isBare '\t' = false)]
  rw [headerPath, shape, List.cons_append, skip_cons solid,
    headerKey_key (bare_ne first (by decide : isBare '\x27' = false)), ← List.cons_append, ← shape, named,
    Option.bind_some]
  simp only [skip_cons (by decide : isBlank '.' = false)]

theorem headerPath_quoted (fuel : Nat) (cs : List Char) :
    headerPath (fuel + 1) (quoteMark :: cs) = (scan .text cs).bind fun k =>
      match skip k.2 with
      | '.' :: rest => (headerPath fuel rest).map fun path => (String.ofList k.1 :: path.1, path.2)
      | rest => some ([String.ofList k.1], rest) := by
  rw [headerPath, skip_quote, headerKey_key (by decide), key, if_pos rfl]
  cases scan .text cs <;> rfl

theorem headerLine_plain (bare : Bare outer) (plain : Plain name) :
    headerLine (outer.toList ++ '.' :: quoteMark :: (name ++ [quoteMark, ']'])) =
      some [outer, String.ofList name] := by
  obtain ⟨fuel, enough⟩ : ∃ fuel, (outer.toList ++ '.' :: quoteMark :: (name ++ [quoteMark, ']'])).length = fuel + 2 :=
    ⟨outer.toList.length + name.length + 2, by simp; omega⟩
  rw [headerLine, enough, headerPath_outer bare, headerPath_quoted, scan_plain plain [']'], Option.bind_some]
  simp [skip_cons (by decide : isBlank ']' = false)]

/-- Whatever header a line of this shape is read as, its second key is no longer than the name,
and shorter if the name has a quote or a backslash. -/
theorem path_of_headerLine (bare : Bare outer) {path : List String}
    (read : headerLine (outer.toList ++ '.' :: quoteMark :: (name ++ [quoteMark, ']'])) = some path) :
    ∃ inner rest, path = outer :: inner :: rest ∧ inner.toList.length ≤ name.length ∧
      (quoteMark ∈ name ∨ backslash ∈ name → inner.toList.length < name.length) := by
  obtain ⟨fuel, enough⟩ : ∃ fuel, (outer.toList ++ '.' :: quoteMark :: (name ++ [quoteMark, ']'])).length = fuel + 2 :=
    ⟨outer.toList.length + name.length + 2, by simp; omega⟩
  rw [headerLine, enough, headerPath_outer bare, headerPath_quoted] at read
  obtain ⟨⟨path', after⟩, found, closed⟩ := Option.bind_eq_some_iff.mp read
  obtain ⟨⟨keys, after'⟩, inner, same⟩ := Option.map_eq_some_iff.mp found
  obtain ⟨⟨t, rest⟩, scanned, further⟩ := Option.bind_eq_some_iff.mp inner
  obtain ⟨rfl, rfl⟩ := Prod.mk.inj same
  obtain rfl : outer :: keys = path := by
    dsimp only at closed
    split at closed
    · split_ifs at closed
      exact Option.some.inj closed
    · cases closed
  have framed := scan_framed (by decide : ']' ≠ quoteMark) scanned
  dsimp only at further
  split at further
  · obtain ⟨⟨others, _⟩, _, same⟩ := Option.map_eq_some_iff.mp further
    obtain ⟨rfl, -⟩ := Prod.mk.inj same
    exact ⟨_, others, rfl, by simpa using framed⟩
  · obtain ⟨rfl, -⟩ := Prod.mk.inj (Option.some.inj further)
    exact ⟨_, [], rfl, by simpa using framed⟩

end Headers

/-! ## Tables -/

/-- A header with its pairs and a blank line after them, one table after another. -/
theorem tablesOf_blocks (path : List String) (pairs : List (String × Value)) (blocks : List Table) :
    tablesOf path pairs (blocks.flatMap (fun t => .table t.path :: (t.pairs.map (fun p => .pair p.1 p.2) ++ [.blank])) ++
      [.blank]) = ⟨path, pairs⟩ :: blocks := by
  have pairs_ : ∀ (path : List String) (ps qs : List (String × Value)) (rest : List Entry),
      tablesOf path ps (qs.map (fun p => .pair p.1 p.2) ++ rest) = tablesOf path (ps ++ qs) rest := by
    intro path ps qs rest
    induction qs generalizing ps with
    | nil => simp
    | cons q qs ih => simp [tablesOf, ih]
  induction blocks generalizing path pairs with
  | nil => rfl
  | cons t blocks ih =>
      simp only [List.flatMap_cons, List.cons_append, List.append_assoc, tablesOf, pairs_, List.nil_append]
      rw [ih]

theorem tablesOf_blanks (path : List String) (pairs : List (String × Value)) (n : Nat) (rest : List Entry) :
    tablesOf path pairs (List.replicate n .blank ++ rest) = tablesOf path pairs rest := by
  induction n with
  | zero => rfl
  | succ n ih => simpa [List.replicate_succ, tablesOf] using ih

/-- The pieces of a line are among those of the lines. -/
theorem mem_splitOn_unlines {lines : List (List Char)} {l piece : List Char} (member : l ∈ lines)
    (inside : piece ∈ l.splitOn '\n') : piece ∈ (unlines lines).splitOn '\n' := by
  induction lines with
  | nil => cases member
  | cons m lines ih =>
      rw [unlines, List.flatMap_cons, List.append_assoc, List.singleton_append, List.splitOn_append_cons_self,
        List.mem_append]
      rcases List.mem_cons.mp member with rfl | later
      · exact .inl inside
      · exact .inr (ih later)

/-- Every table but the one at the start was opened by a header. -/
theorem path_of_tablesOf {path : List String} {pairs : List (String × Value)} {entries : List Entry} {t : Table}
    (member : t ∈ tablesOf path pairs entries) : t.path = path ∨ .table t.path ∈ entries := by
  induction entries generalizing path pairs with
  | nil =>
      obtain rfl := List.mem_singleton.mp member
      exact .inl rfl
  | cons e rest ih =>
      cases e with
      | blank => exact (ih member).imp_right (List.mem_cons_of_mem _)
      | pair k v => exact (ih member).imp_right (List.mem_cons_of_mem _)
      | table path' =>
          rcases List.mem_cons.mp member with rfl | later
          · exact .inl rfl
          · refine .inr ?_
            rcases ih later with opened | further
            · rw [opened]
              exact List.mem_cons_self
            · exact List.mem_cons_of_mem _ further

/-- A key of a table stands in it, or in the path of one further in. -/
theorem mem_keysOf {tables : List Table} {path : List String} {k : String} (member : k ∈ keysOf tables path) :
    ∃ t ∈ tables, t.path = path ∧ k ∈ t.pairs.map Prod.fst ∨ ∃ rest, t.path = path ++ k :: rest := by
  obtain ⟨t, here, inside⟩ := List.mem_flatMap.mp (List.mem_dedup.mp member)
  refine ⟨t, here, ?_⟩
  split_ifs at inside with same under
  · exact .inl ⟨same, inside⟩
  · obtain ⟨rest, whole⟩ := List.isPrefixOf_iff_prefix.mp under
    refine .inr ?_
    rw [← whole, List.drop_left] at inside
    cases rest with
    | nil => simp at inside
    | cons first others =>
        obtain rfl : k = first := by simpa using inside
        exact ⟨others, whole.symm⟩
  · cases inside

end Toml
