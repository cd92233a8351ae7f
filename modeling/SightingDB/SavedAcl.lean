import SightingDB.AclFile

/-!
What becomes of an ACL that is saved and read again. Text that TOML reads as itself comes
back; a backslash or a quote in a subtree, or a control character anywhere, does not.
-/
namespace SightingDB

namespace Acl

variable {acl : Acl}

/-- Nothing in the keys and subtrees means anything to a TOML string. -/
def Plain (acl : Acl) : Prop :=
  ∀ e ∈ acl.keys.entries, Toml.Plain e.1.toList ∧ ∀ g ∈ e.2, Toml.Plain g.root.toList

instance (acl : Acl) : Decidable acl.Plain :=
  inferInstanceAs (Decidable (∀ e ∈ acl.keys.entries, Toml.Plain e.1.toList ∧ ∀ g ∈ e.2, Toml.Plain g.root.toList))

/-- The saved file is read as an ACL of the same keys that answers the same. -/
def ComesBack (acl : Acl) : Prop :=
  ∃ read, loadAcl acl.toToml = .ok read ∧ read.keys.keys = acl.keys.keys ∧ ∀ key,
    read.isAdmin key = acl.isAdmin key ∧
    ∀ name, read.canRead key name = acl.canRead key name ∧ read.canWrite key name = acl.canWrite key name

/-- Some key has several grants, one of them with a backslash in it. -/
def Escaped (acl : Acl) : Prop :=
  ∃ e ∈ acl.keys.entries, 2 ≤ e.2.length ∧ ∃ g ∈ e.2, Toml.backslash ∈ g.root.toList

/-- A plain ACL is read back as it is. -/
theorem loadAcl_of_plain (valid : acl.Valid) (plain : acl.Plain) : loadAcl acl.toToml = .ok acl := by
  have solid : ∀ e ∈ acl.keys.entries, ∀ g ∈ e.2, ∀ c ∈ g.root.toList, isReserved c = false := fun e mem g here =>
    solid_of_validateNamespace (valid.root e mem g here)
  exact loadAcl_of_writable
    { key := fun e mem => (plain e mem).1
      some_ := valid.some_
      plain := fun e mem => (plain e mem).2
      comma := fun e mem g here at_ => (not_reserved (solid e mem g here _ at_)).2.1 rfl
      trimmed := fun e mem g here => trim_of_solid fun c at_ => (not_reserved (solid e mem g here c at_)).1 }

/-! ## What is lost -/

/-- The characters of a path that are not its slashes. -/
def weight (s : String) : Nat := s.toList.countP fun c => !decide (c = '/')

theorem length_segments (s : String) : ((segments s).map fun part => part.toList.length).sum = weight s := by
  have parts : ∀ cs : List Char, ((cs.splitOn '/').map List.length).sum = cs.countP fun c => !decide (c = '/') := by
    intro cs
    induction cs with
    | nil => rfl
    | cons c cs ih =>
        rw [List.splitOn_cons_eq_if_modifyHead]
        by_cases slash : c = '/'
        · simp [slash, ih]
        · cases split : cs.splitOn '/' with
          | nil => exact absurd split (List.splitOn_ne_nil _ _)
          | cons first rest =>
              rw [split] at ih
              simp only [List.map_cons, List.sum_cons] at ih
              simp [slash, ← ih]
              omega
  have dropped : ∀ l : List String, ((l.filter (· ≠ "")).map fun part => part.toList.length).sum =
      (l.map fun part => part.toList.length).sum := by
    intro l
    induction l with
    | nil => rfl
    | cons part l ih =>
        by_cases empty : part = ""
        · rw [List.filter_cons_of_neg (by simp [empty]), ih]
          simp [empty]
        · rw [List.filter_cons_of_pos (by simp [empty]), List.map_cons, List.sum_cons, ih]
          rfl
  rw [segments, dropped, splitOnChar, List.map_map, weight, ← parts]
  simp [Function.comp_def]

/-- Two paths of which each covers the other weigh the same. -/
theorem weight_eq_of_covers {g g' : Grant} (here : g.covers g'.root = true) (there : g'.covers g.root = true) :
    weight g.root = weight g'.root := by
  have same : segments g.root = segments g'.root :=
    (List.isPrefixOf_iff_prefix.mp here).eq_of_length_le (List.isPrefixOf_iff_prefix.mp there).length_le
  rw [← length_segments, same, length_segments]

theorem covers_self (g : Grant) : g.covers g.root = true := List.isPrefixOf_iff_prefix.mpr List.prefix_rfl

/-- What follows a colon in a text lies after its first colon. -/
theorem after_colon {front d x b y : List Char} (off : ':' ∉ front) (whole : front ++ ':' :: d = x ++ ':' :: (b ++ y)) (p : Char → Bool) :
    b.countP p ≤ d.countP p := by
  rcases List.append_eq_append_iff.mp whole with ⟨z, rfl, same⟩ | ⟨z, rfl, same⟩
  · cases z with
    | nil =>
        obtain rfl : b ++ y = d := by simpa using same.symm
        simp
    | cons c z =>
        obtain ⟨rfl, rfl⟩ : ':' = c ∧ d = z ++ ':' :: (b ++ y) := by simpa using same
        simp only [List.countP_append, List.countP_cons]
        omega
  · cases z with
    | nil =>
        obtain rfl : b ++ y = d := by simpa using same
        simp
    | cons c z =>
        obtain ⟨rfl, -⟩ : ':' = c ∧ _ := by simpa using same
        exact absurd (by simp) off

theorem weight_trim_le (s : String) : weight (trim s) ≤ weight s := by
  rw [weight, trim, String.toList_ofList]
  exact List.Sublist.countP_le (trimWhere_inside isWhitespace s.toList).sublist

/-- A grant that is read is one of the clauses. -/
theorem clause_of_parsed {t : String} {grants : List Grant} (parsed : parseGrants t = .ok grants) {g : Grant}
    (member : g ∈ grants) : ∃ piece ∈ splitOnChar ',' t, parseGrant (trim piece) = .ok g := by
  rw [parseGrants] at parsed
  split at parsed
  · cases parsed
  · rename_i gs read
    split_ifs at parsed
    obtain rfl : gs = grants := Except.ok.inj parsed
    obtain ⟨part, here, found⟩ := Traverse.exists_left (Traverse.mapM_eq_ok read) member
    obtain ⟨piece, mem, rfl⟩ := List.mem_map.mp (List.mem_filter.mp here).1
    exact ⟨piece, mem, found⟩

theorem root_of_grantOf {permissions root : String} {g : Grant} (found : grantOf permissions root = .ok g) :
    g.root = "" ∨ g.root = root := by
  simp only [grantOf] at found
  split_ifs at found <;> obtain rfl := Except.ok.inj found
  · exact .inl rfl
  all_goals exact .inr rfl

/-- The subtree of a clause is no heavier than what follows the first colon of its list. -/
theorem weight_of_clause {letters : String} {d : List Char} (off : ':' ∉ letters.toList) {g : Grant}
    {t : String} (text : t.toList = letters.toList ++ ':' :: d) {grants : List Grant} (parsed : parseGrants t = .ok grants)
    (member : g ∈ grants) : weight g.root ≤ d.countP fun c => !decide (c = '/') := by
  obtain ⟨piece, here, found⟩ := clause_of_parsed parsed member
  rcases root_of_grantOf found with none | root
  · rw [none]
    exact Nat.zero_le _
  · cases parted : splitOnce ':' (trim piece) with
    | none =>
        have nothing : (clauseOf (trim piece)).2 = "" := by rw [clauseOf, parted]
        rw [root, nothing]
        exact Nat.zero_le _
    | some both =>
        obtain ⟨front, b⟩ := both
        have after : (clauseOf (trim piece)).2 = trim b := by rw [clauseOf, parted]
        obtain ⟨raw, raws, rfl⟩ := List.mem_map.mp here
        -- The trimmed piece is part of the text, and the colon is in the piece.
        have inside : (trim (String.ofList raw)).toList <:+: t.toList := by
          rw [trim, String.toList_ofList, String.toList_ofList]
          exact (trimWhere_inside _ _).trans (infix_of_mem_splitOn raws)
        obtain ⟨x, y, whole⟩ := inside
        rw [toList_of_splitOnce parted, text] at whole
        rw [root, after]
        exact (weight_trim_le b).trans
          (after_colon off (d := d) (x := x ++ front.toList) (y := y) (by simpa using whole.symm) _)

/-- A key with one grant is not read back with it if the subtree has a backslash. -/
theorem single_lost {g : Grant} {letters : String} (spelled : g.Spelled letters)
    (spec : g.toSpec = letters ++ ":" ++ g.root) (slash : Toml.backslash ∈ g.root.toList) {t : List Char}
    (read : Toml.unquote (clauses [g]).toList = some t) {grants : List Grant}
    (parsed : parseGrants (String.ofList t) = .ok grants) {g' : Grant} (member : g' ∈ grants) :
    weight g'.root < weight g.root := by
  have counted : ∀ c, c = Toml.backslash ∨ (Toml.shortEscape c).isSome ∨ (Toml.longEscape c).isSome ∨
      (Toml.hexDigit c).isSome → (!decide (c = '/')) = true := by
    intro c spells
    by_contra same
    obtain rfl : c = '/' := by simpa using same
    exact absurd spells (by decide)
  have off : ':' ∉ letters.toList := fun mem => (not_reserved (spelled.solid.2 _ mem)).2.2.1 rfl
  have text : (clauses [g]).toList = (letters.toList ++ [':']) ++ g.root.toList := by
    simp [clauses, specs_eq, spec]
  have plain : Toml.Plain (letters.toList ++ [':']) := by
    cases spelled <;> decide
  rw [text, Toml.unquote_append plain] at read
  obtain ⟨d, decoded, rfl⟩ := Option.map_eq_some_iff.mp read
  have heavy := weight_of_clause off (d := d) (by simp) parsed member
  exact lt_of_le_of_lt heavy ((Toml.unquote_shortens counted decoded).2 slash)

/-- What a key of the saved ACL is read with. -/
theorem read_of_loaded (valid : acl.Valid) {read : Acl} (loaded : loadAcl acl.toToml = .ok read) {e : String × List Grant}
    (member : e ∈ acl.keys.entries) : Toml.Plain e.1.toList ∧ ∃ t grants, Toml.unquote (clauses e.2).toList = some t ∧
      parseGrants (String.ofList t) = .ok grants ∧ read.keys.get e.1 = some grants := by
  rw [loadAcl_toToml valid] at loaded
  cases lines : acl.keys.entries.mapM readLine with
  | none =>
      rw [lines] at loaded
      cases loaded
  | some entries =>
      rw [lines] at loaded
      have eachLine := Traverse.mapM_eq_some_iff.mp lines
      obtain ⟨parsed, each, rfl⟩ := buildAcl_eq loaded
      have keys : parsed.map Prod.fst = acl.keys.keys := by
        have names : parsed.map Prod.fst = entries.map Prod.fst := by
          clear lines loaded eachLine
          induction each with
          | nil => rfl
          | cons here _ ih => simp [here.1, ih]
        rw [names, keys_of_read eachLine]
        rfl
      obtain ⟨r, inside, line⟩ := Traverse.exists_right eachLine member
      obtain ⟨p, held, same, grants⟩ := Traverse.exists_right each inside
      simp only [readLine] at line
      split_ifs at line with plain
      obtain ⟨t, read_, rfl⟩ := Option.map_eq_some_iff.mp line
      refine ⟨plain, t, p.2, read_, grants, ?_⟩
      have sorted : OrderedMap.Sorted parsed := by
        have apart : (acl.keys.keys).Pairwise (· < ·) := List.pairwise_map.mpr acl.keys.sorted
        rw [← keys] at apart
        exact List.pairwise_map.mp apart
      have step := OrderedMap.get_foldl_insert (fun _ _ grants => grants) parsed (keys ▸ acl.keys.keys_nodup)
        (∅ : OrderedMap String (List Grant)) e.1
      have found : (e.1, p.2) ∈ parsed := by
        have : p = (e.1, p.2) := Prod.ext same rfl
        rw [← this]
        exact held
      rw [step, OrderedMap.lookup_of_mem sorted found]
      rfl

/-- A saved ACL of valid keys and grants comes back if nothing in it means anything to TOML;
otherwise it does not, unless a key has several grants and a backslash in one of them. -/
theorem comesBack_iff (acl : Acl) (valid : acl.Valid) :
    (acl.Plain → acl.ComesBack) ∧ (¬ acl.Escaped → acl.ComesBack → acl.Plain) := by
  refine ⟨fun plain => ⟨acl, loadAcl_of_plain valid plain, rfl, fun _ => ⟨rfl, fun _ => ⟨rfl, rfl⟩⟩⟩, ?_⟩
  rintro single ⟨read, loaded, -, answers⟩ e mem
  obtain ⟨plain, t, grants, unquoted, parsed, now⟩ := read_of_loaded valid loaded mem
  have before : acl.keys.get e.1 = some e.2 := OrderedMap.mem_entries.mp mem
  refine ⟨plain, ?_⟩
  by_cases slashed : ∃ g ∈ e.2, Toml.backslash ∈ g.root.toList
  · exfalso
    obtain ⟨g, here, slash⟩ := slashed
    have few : e.2.length < 2 := by
      by_contra many
      exact single ⟨e, mem, by omega, g, here, slash⟩
    have only : e.2 = [g] := by
      match e.2, here, few with
      | [g'], here, _ =>
          obtain rfl : g = g' := by simpa using here
          rfl
    rcases g.toSpec_cases with ⟨admin, -⟩ | ⟨data, letters, spelled, spec⟩
    · rw [admin] at slash
      exact absurd slash (by simp [Grant.adminOnly])
    · have named : g.root ≠ "" := fun none => by
        rw [none] at slash
        exact absurd slash (by simp)
      rw [if_neg named] at spec
      rw [only] at unquoted before
      -- A grant read back that covers the subtree and is covered by it would weigh the same.
      have clash : ∀ permitted : Grant → Bool, permitted g = true → ¬ ∀ name,
          read.allows e.1 name permitted = acl.allows e.1 name permitted := by
        intro permitted has same
        have own := same g.root
        simp only [allows, now, before, List.any_cons, List.any_nil, has, covers_self, Bool.and_self, Bool.or_false,
          List.any_eq_true, Bool.and_eq_true] at own
        obtain ⟨g', inside, allowed, covers⟩ := own
        have back := same g'.root
        have there : (grants.any fun grant => permitted grant && grant.covers g'.root) = true :=
          List.any_eq_true.mpr ⟨g', inside, by simp [allowed, covers_self]⟩
        simp only [allows, now, before, there, List.any_cons, List.any_nil, has, Bool.true_and, Bool.or_false] at back
        have lighter := single_lost spelled spec slash unquoted parsed inside
        rw [weight_eq_of_covers back.symm covers] at lighter
        exact lt_irrefl _ lighter
      cases reads : g.read with
      | true => exact clash (·.read) reads fun name => ((answers e.1).2 name).1
      | false =>
          have writes : g.write = true := by
            rcases g.own with ⟨admin, -⟩ | ⟨-, some_⟩
            · rw [data] at admin
              cases admin
            · simpa [reads] using some_
          exact clash (·.write) writes fun name => ((answers e.1).2 name).2
  · have straight : Toml.backslash ∉ (clauses e.2).toList := fun at_ => by
      rcases mem_clauses at_ with ⟨off, -⟩ | ⟨g, here, root⟩
      · exact off rfl
      · exact slashed ⟨g, here, root⟩
    have clean := (Toml.plain_of_unquote unquoted straight).2
    exact fun g here c root => clean c (clauses_of_mem_root here root)

/-- An ordinary key and an admin. -/
def ordinary : Acl := ⟨OrderedMap.empty.insert "k" [.allData, .adminOnly]⟩

theorem comesBack_ordinary : ordinary.ComesBack :=
  (comesBack_iff ordinary ⟨by decide, by decide, by decide⟩).1 (by decide)

/-- A key that may read one subtree, whose name spells an escaped comma. -/
def escaping : Acl := ⟨OrderedMap.empty.insert "k" [⟨"a\\u002Cadmin", true, false, false, .inr ⟨rfl, .inl rfl⟩⟩]⟩

/-- The key is an admin once the file has been read. -/
theorem escaping_becomes_admin : escaping.Valid ∧ ¬ escaping.ComesBack ∧ escaping.isAdmin "k" = false ∧
    ∃ read, loadAcl escaping.toToml = .ok read ∧ read.isAdmin "k" = true := by
  have valid : escaping.Valid := ⟨by decide, by decide, by decide⟩
  have lines : escaping.keys.entries.mapM readLine = some [("k", "r:a,admin")] := by decide
  have loaded : loadAcl escaping.toToml = buildAcl [("k", "r:a,admin")] := by
    rw [loadAcl_toToml valid, lines]
  have built : ∃ read, buildAcl [("k", "r:a,admin")] = .ok read ∧ read.isAdmin "k" = true := ⟨⟨OrderedMap.empty.insert "k"
    [⟨"a", true, false, false, .inr ⟨rfl, .inl rfl⟩⟩, .adminOnly]⟩, by decide, by decide⟩
  obtain ⟨read, same, admin⟩ := built
  refine ⟨valid, ?_, by decide, read, loaded.trans same, admin⟩
  rintro ⟨other, again, -, answers⟩
  obtain rfl : read = other := Except.ok.inj ((loaded.trans same).symm.trans again)
  have before : escaping.isAdmin "k" = false := by decide
  rw [(answers "k").1, before] at admin
  cases admin

/-! ## A key that is written and read again -/

/-- The subtree of a clause is trimmed, and made of characters of the clause. -/
theorem clauseOf_root (part : String) :
    trim (clauseOf part).2 = (clauseOf part).2 ∧ ∀ c ∈ (clauseOf part).2.toList, c ∈ part.toList := by
  unfold clauseOf
  cases parted : splitOnce ':' part with
  | none =>
      constructor
      · exact trim_of_solid nofun
      · intro c mem
        cases mem
  | some halves =>
      constructor
      · exact trim_idem halves.2
      · intro c mem
        have inside : c ∈ halves.2.toList := by
          change c ∈ (trim halves.2).toList at mem
          rw [trim, String.toList_ofList] at mem
          exact mem_of_mem_trimWhere mem
        rw [toList_of_splitOnce parted]
        exact List.mem_append_right _ (List.mem_cons_of_mem _ inside)

/-- The subtree of a grant that was read can be written in a list of clauses. -/
theorem root_of_parsed {spec : String} {grants : List Grant} (parsed : parseGrants spec = .ok grants) {g : Grant}
    (member : g ∈ grants) : ',' ∉ g.root.toList ∧ trim g.root = g.root := by
  obtain ⟨piece, listed, found⟩ := clause_of_parsed parsed member
  rcases root_of_grantOf found with whole | same
  · rw [whole]
    exact ⟨List.not_mem_nil, trim_of_solid nofun⟩
  · obtain ⟨trimmed, inside⟩ := clauseOf_root (trim piece)
    rw [same]
    refine ⟨fun comma => ?_, trimmed⟩
    have there := inside _ comma
    rw [trim, String.toList_ofList] at there
    obtain ⟨chars, split, rfl⟩ := List.mem_map.mp listed
    rw [String.toList_ofList] at there
    exact sep_not_mem_splitOn split (mem_of_mem_trimWhere there)

/-- What stands for a key in the file once it has been read and saved, as on every edit of another. -/
def rewritten (spec : String) : String :=
  match parseGrants spec with
  | .ok grants => joinBy ", " (grants.map (·.toSpec))
  | .error _ => spec

theorem parseGrants_written {spec : String} {grants : List Grant} (parsed : parseGrants spec = .ok grants) :
    parseGrants (joinBy ", " (grants.map (·.toSpec))) = .ok grants := by
  have some_ : grants ≠ [] := by
    rintro rfl
    rw [parseGrants] at parsed
    split at parsed
    · cases parsed
    · split_ifs at parsed with empty
      exact empty (by rw [Except.ok.inj parsed]; rfl)
  rw [← specs_eq]
  exact parseGrants_specs some_ (fun g member => (root_of_parsed parsed member).1) fun g member => (root_of_parsed parsed member).2

/-- Grants that were read are read again from what is written for them, however often the file is saved. -/
theorem grants_survive {spec : String} {grants : List Grant} (parsed : parseGrants spec = .ok grants) :
    parseGrants (joinBy ", " (grants.map (·.toSpec))) = .ok grants ∧
      ∀ edits : Nat, parseGrants (rewritten^[edits] spec) = .ok grants := by
  refine ⟨parseGrants_written parsed, fun edits => ?_⟩
  induction edits with
  | zero => exact parsed
  | succ edits ih =>
      have next : rewritten (rewritten^[edits] spec) = joinBy ", " (grants.map (·.toSpec)) := by
        rw [rewritten, ih]
      rw [Function.iterate_succ_apply', next]
      exact parseGrants_written parsed

/-- A subtree with colons, spaces and slashes in it, the other spelling of both letters, and an admin with a subtree. -/
theorem grants_survive_odd : ∃ grants, parseGrants " wr : a:b /c d ,, admin:x,r" = .ok grants ∧
    parseGrants (joinBy ", " (grants.map (·.toSpec))) = .ok grants := by
  have parsed : parseGrants " wr : a:b /c d ,, admin:x,r" = .ok [⟨"a:b /c d", true, true, false, .inr ⟨rfl, .inl rfl⟩⟩, .adminOnly,
    ⟨"", true, false, false, .inr ⟨rfl, .inl rfl⟩⟩] := by decide
  exact ⟨_, parsed, (grants_survive parsed).1⟩

end Acl

end SightingDB
