import SightingDB.Latest
import SightingDB.Keys
import SightingDB.Survey
import SightingDB.Routes
import SightingDB.Lib.Segments

/-!
The matchers that say whether a prefix covers a namespace, and the classifiers that say
whether a namespace is the database's own, side by side. A grant compares segments; the rest
compare text, and only the storage policy trims the namespace first.
-/
namespace SightingDB

/-! ## Segments -/

theorem segments_eq (path : String) : segments path = (Segments.of '/' path.toList).map String.ofList := by
  simp only [segments, splitOnChar, Segments.of, List.filter_map]
  congr 1
  refine List.filter_congr fun part _ => ?_
  have empty : (String.ofList part = "") ↔ part = [] := by
    rw [← String.toList_inj, String.toList_ofList]
    rfl
  simp only [Function.comp_apply, ne_eq, empty]

theorem segments_begin {p n : String} :
    segments p <+: segments n ↔ Segments.of '/' p.toList <+: Segments.of '/' n.toList := by
  rw [segments_eq, segments_eq]
  constructor
  · rintro ⟨rest, same⟩
    refine ⟨rest.map String.toList, ?_⟩
    have := congrArg (List.map String.toList) same
    simpa [Function.comp_def] using this
  · exact fun begins => begins.map _

@[simp] theorem segments_trimSlashes (path : String) : segments (trimSlashes path) = segments path := by
  rw [segments_eq, segments_eq, trimSlashes, trimWhere, String.toList_ofList, Segments.of_rdropWhile,
    Segments.of_dropWhile]

theorem firstSegment_eq (name : String) : firstSegment name = (segments name).head? := by
  rw [firstSegment, segments, List.head?_filter]

theorem Grant.covers_iff {grant : Grant} {name : String} :
    grant.covers name = true ↔ segments grant.root <+: segments name := by
  rw [Grant.covers, List.isPrefixOf_iff_prefix]

/-! ## What is internal -/

theorem isInternal_iff {name : String} :
    isInternal name = true ↔ ∃ first, (segments name).head? = some first ∧ startsWithChar first '_' = true := by
  rw [isInternal, firstSegment_eq]
  cases (segments name).head? <;> simp

/-- A namespace with a segment lives in the internal shard exactly when it is internal. -/
theorem shardOf_eq_internalShard {name : String} (some_ : segments name ≠ []) :
    shardOf name = internalShard ↔ isInternal name = true := by
  obtain ⟨first, rest, shape⟩ := List.exists_cons_of_ne_nil some_
  have head : firstSegment name = some first := by rw [firstSegment_eq, shape]; rfl
  simp only [shardOf, isInternal, head, Option.getD_some]
  constructor
  · intro same
    split_ifs at same with under
    · exact under
    · exact absurd (by rw [same]; decide) under
  · intro under
    rw [if_pos under]

/-- One without lives there and is not internal. -/
theorem shardOf_of_no_segment {name : String} (none_ : segments name = []) :
    shardOf name = internalShard ∧ isInternal name = false := by
  have head : firstSegment name = none := by rw [firstSegment_eq, none_]; rfl
  constructor
  · simp only [shardOf, head, Option.getD_none]
    decide
  · simp [isInternal, head]

/-- A grant that has a segment reaches an internal namespace exactly when it is itself one. -/
theorem Grant.covers_internal_iff {grant : Grant} (some_ : segments grant.root ≠ []) :
    (∃ name, isInternal name = true ∧ grant.covers name = true) ↔ isInternal grant.root = true := by
  constructor
  · rintro ⟨name, internal, covers⟩
    obtain ⟨first, head, under⟩ := isInternal_iff.mp internal
    obtain ⟨front, rest, shape⟩ := List.exists_cons_of_ne_nil some_
    obtain ⟨tail, whole⟩ := Grant.covers_iff.mp covers
    rw [shape] at whole
    rw [← whole] at head
    obtain rfl : front = first := by simpa using head
    exact isInternal_iff.mpr ⟨front, by rw [shape]; rfl, under⟩
  · exact fun internal => ⟨grant.root, internal, Grant.covers_iff.mpr (List.prefix_refl _)⟩

/-- Where no slash comes first, the first segment begins as the text does. -/
theorem head_of_segments {name first : String} (open_ : startsWithChar name '/' = false)
    (head : (segments name).head? = some first) : first.toList.head? = name.toList.head? := by
  rw [segments_eq] at head
  cases shape : name.toList with
  | nil =>
      rw [shape] at head
      simp at head
  | cons c rest =>
      have solid : c ≠ '/' := by
        rintro rfl
        simp [startsWithChar, shape] at open_
      obtain ⟨part, others, parts⟩ := List.exists_cons_of_ne_nil (List.splitOn_ne_nil '/' rest)
      rw [shape, Segments.of, List.splitOn_cons_eq_if_modifyHead, parts] at head
      obtain rfl : String.ofList (c :: part) = first := by simpa [solid] using head
      simp

theorem not_internal_of_valid {name : String} (valid : validateNamespace name = .ok ())
    (open_ : startsWithChar name '/' = false) : isInternal name = false := by
  by_contra internal
  obtain ⟨first, head, under⟩ := isInternal_iff.mp (by simpa using internal)
  have same : startsWithChar name '_' = true := by
    rw [← under, startsWithChar, startsWithChar, head_of_segments open_ head]
  simp only [validateNamespace, same, if_true] at valid
  split at valid
  · cases valid
  · split at valid <;> cases valid

theorem countsTowardsConsensus_eq_false {name : String} :
    countsTowardsConsensus name = false ↔
      name = allNamespace ∨ (∃ rest, name = shadowPrefix ++ rest) ∨ ∃ rest, name = configPrefix ++ rest := by
  have starts (start : String) : startsWith name start = true ↔ ∃ rest, name = start ++ rest := by
    constructor
    · exact eq_append_of_startsWith
    · rintro ⟨rest, rfl⟩
      exact startsWith_append start rest
  rw [← starts, ← starts]
  simp only [countsTowardsConsensus, Bool.and_eq_false_iff, Bool.not_eq_false', decide_eq_false_iff_not, not_not]
  exact or_assoc

/-- What the four classifiers have in common. -/
theorem internal_means :
    (∀ name, segments name ≠ [] → (isInternal name = true ↔ shardOf name = internalShard)) ∧
    (∀ name, segments name = [] → isInternal name = false ∧ shardOf name = internalShard) ∧
    (∀ name, isInternal name = false → countsTowardsConsensus name = true) ∧
    (∀ name, isInternal name = true → (countsTowardsConsensus name = false ↔
      name = allNamespace ∨ (∃ rest, name = shadowPrefix ++ rest) ∨ ∃ rest, name = configPrefix ++ rest)) ∧
    (∀ (grant : Grant) (name : String), validateNamespace grant.root = .ok () → segments grant.root ≠ [] →
      startsWithChar grant.root '/' = false → isInternal name = true → grant.covers name = false) := by
  refine ⟨fun name some_ => (shardOf_eq_internalShard some_).symm,
    fun name none_ => (shardOf_of_no_segment none_).symm, fun name => countsTowardsConsensus_of_external,
    fun name _ => countsTowardsConsensus_eq_false, ?_⟩
  intro grant name valid some_ open_ internal
  by_contra covers
  have own := (Grant.covers_internal_iff some_).mp ⟨name, internal, by simpa using covers⟩
  rw [not_internal_of_valid valid open_] at own
  cases own

theorem internal_means_feeds :
    shardOf "feeds/ips" ≠ internalShard ∧ (isInternal "/" = false ∧ shardOf "/" = internalShard) ∧
    countsTowardsConsensus "feeds/ips" = true ∧ countsTowardsConsensus "_shadow/feeds" = false ∧
    Grant.covers ⟨"feeds", true, false, false, .inr ⟨rfl, .inl rfl⟩⟩ "_all" = false := by
  obtain ⟨named, segmentless, external, counted, granted⟩ := internal_means
  refine ⟨fun here => ?_, segmentless "/" (by decide), external "feeds/ips" (by decide),
    (counted "_shadow/feeds" (by decide)).mpr (.inr (.inl ⟨"feeds", by decide⟩)),
    granted ⟨"feeds", true, false, false, .inr ⟨rfl, .inl rfl⟩⟩ "_all" rfl (by decide) (by decide) (by decide)⟩
  exact absurd ((named "feeds/ips" (by decide)).mpr here) (by decide)

/-- A namespace without a segment is in the internal shard and not internal; one that merely
begins with an underscore is internal and counted. -/
theorem internal_twofold :
    ¬ (isInternal "/" = true ↔ shardOf "/" = internalShard) ∧
    ¬ (isInternal "_foo" = true → countsTowardsConsensus "_foo" = false) := by
  decide

/-! ## One prefix rule -/

/-- `Galaxy::namespaces_under`: what the peers list under any of several roots, each once. A
peer that cannot be asked lists nothing. -/
def Galaxy.namespacesUnder (galaxy : Galaxy) (listed : Peer → Option (List String)) (roots : List String) :
    List String :=
  (galaxy.enabledPeers.flatMap fun peer => (listed peer).getD []).foldl (fun found name =>
    if Network.isUnder roots name && name ∉ found then found ++ [name] else found) []

theorem mem_collect {roots : List String} {names found : List String} {name : String} :
    name ∈ names.foldl (fun found name =>
      if Network.isUnder roots name && name ∉ found then found ++ [name] else found) found ↔
    name ∈ found ∨ name ∈ names ∧ Network.isUnder roots name = true := by
  induction names generalizing found with
  | nil => simp
  | cons other rest ih =>
      rw [List.foldl_cons, ih]
      by_cases same : name = other
      · subst same
        split_ifs with fresh
        · simp only [Bool.and_eq_true, decide_eq_true_eq] at fresh
          simp [fresh.1]
        · simp only [Bool.and_eq_true, decide_eq_true_eq, not_and, not_not] at fresh
          simp only [List.mem_cons, true_or, true_and]
          tauto
      · split_ifs <;> simp [same]

theorem Galaxy.mem_namespacesUnder {galaxy : Galaxy} {listed : Peer → Option (List String)} {roots : List String}
    {name : String} : name ∈ galaxy.namespacesUnder listed roots ↔
      (∃ peer ∈ galaxy.enabledPeers, name ∈ (listed peer).getD []) ∧ Network.isUnder roots name = true := by
  rw [Galaxy.namespacesUnder, mem_collect, List.mem_flatMap]
  simp

/-- The namespaces a server knows of, resident or not. -/
def Database.lists (db : Database) (name : String) : Prop :=
  ∃ e ∈ db.shards.entries, name ∈ e.2.namespaces.keys

theorem Database.mem_namespacesUnder {db : Database} {start name : String} {allowed : String → Bool} :
    name ∈ db.namespacesUnder start allowed ↔ db.lists name ∧ isInternal name = false ∧
      (trimSlashes start = "" || StoragePolicy.isAtOrUnder name (trimSlashes start)) = true ∧
      allowed name = true := by
  simp [Database.namespacesUnder, Database.lists, and_assoc]

theorem rdropWhile_of_closed {root : String} (closed : trimSlashes root = root) :
    root.toList.rdropWhile (· = '/') = root.toList := by
  rw [← String.toList_inj, trimSlashes, trimWhere, String.toList_ofList] at closed
  rw [← closed]
  exact List.rdropWhile_idempotent _ _

/-- On text, a namespace is at or under a root when it begins with the root's segments and with
its text. -/
theorem under_iff {name root : String} (closed : trimSlashes root = root) :
    (root = "" || StoragePolicy.isAtOrUnder name root) = true ↔
      segments root <+: segments name ∧ startsWith name root = true := by
  by_cases none_ : root = ""
  · subst none_
    simp [segments, splitOnChar, startsWith]
  have some_ : root.toList ≠ [] := fun h => none_ (String.toList_inj.mp h)
  have last : root.toList.getLast? ≠ some '/' := by
    intro slash
    exact List.rdropWhile_eq_self_iff.mp (rdropWhile_of_closed closed) some_
      (by simpa [List.getLast?_eq_getLast_of_ne_nil some_] using slash)
  simp only [none_, decide_false, Bool.false_or]
  rw [segments_begin, startsWith, List.isPrefixOf_iff_prefix]
  constructor
  · intro under
    simp only [StoragePolicy.isAtOrUnder, stripStart, Bool.or_eq_true, decide_eq_true_eq] at under
    rcases under with rfl | below
    · exact ⟨List.prefix_refl _, List.prefix_refl _⟩
    · split_ifs at below with starts
      obtain ⟨rest, whole⟩ := List.isPrefixOf_iff_prefix.mp starts
      simp only [startsWithChar, ← whole, List.drop_left, String.toList_ofList, beq_iff_eq] at below
      obtain ⟨tail, rfl⟩ := List.head?_eq_some_iff.mp below
      rw [← whole]
      exact ⟨Segments.of_prefix_append _ _, List.prefix_append _ _⟩
  · rintro ⟨begins, rest, whole⟩
    rw [← whole] at begins
    simp only [StoragePolicy.isAtOrUnder, stripStart, Bool.or_eq_true, decide_eq_true_eq]
    have starts : startsWith name root = true := List.isPrefixOf_iff_prefix.mpr ⟨rest, whole⟩
    rw [if_pos starts]
    rcases Segments.boundary some_ last begins with rfl | slash
    · left
      rw [← String.toList_inj, ← whole, List.append_nil]
    · right
      simp [startsWithChar, ← whole, slash]

theorem startsWith_trimSlashes {name root : String} (closed : trimSlashes root = root)
    (starts : startsWith name root = true) : startsWith (trimSlashes name) root = true := by
  obtain ⟨rest, whole⟩ := List.isPrefixOf_iff_prefix.mp starts
  by_cases none_ : root.toList = []
  · simp [startsWith, none_]
  have front : name.toList.dropWhile (· = '/') = name.toList := by
    obtain ⟨c, others, shape⟩ := List.exists_cons_of_ne_nil none_
    have open_ := startsWithChar_trimSlashes root
    rw [closed, startsWithChar, shape] at open_
    rw [← whole, shape, List.cons_append, List.dropWhile_cons_of_neg]
    simpa using open_
  have back : (root.toList ++ rest).rdropWhile (· = '/') = root.toList ++ rest.rdropWhile (· = '/') := by
    have ends := rdropWhile_of_closed closed
    simp only [List.rdropWhile] at ends ⊢
    rw [List.reverse_append, List.dropWhile_append]
    split_ifs with blank
    · rw [ends, List.isEmpty_iff.mp blank, List.reverse_nil, List.append_nil]
    · rw [List.reverse_append, List.reverse_reverse]
  rw [startsWith, trimSlashes, trimWhere, String.toList_ofList, front, ← whole, back]
  exact List.isPrefixOf_iff_prefix.mpr (List.prefix_append _ _)

theorem holds_single {start name : String} (external : isInternal name = false) :
    (StoragePolicy.fromPrefixes [] [start]).holds name =
      (trimSlashes (trim start) = "" ||
        StoragePolicy.isAtOrUnder (trimSlashes name) (trimSlashes (trim start))) := by
  by_cases none_ : trimSlashes (trim start) = ""
  · simp [StoragePolicy.fromPrefixes, none_, StoragePolicy.storeEverything, StoragePolicy.holds]
  · simp [StoragePolicy.fromPrefixes, none_, StoragePolicy.holds, external]

/-- The five matchers give one answer for a prefix and a namespace: a grant, a server told to
store the prefix, the listings of a server that knows the namespace and of the peers of one, and
the list of latest writes. -/
def Agree (start name : String) : Prop :=
  ∃ answer : Bool,
    (∀ grant : Grant, grant.root = start → grant.covers name = answer) ∧
    (StoragePolicy.fromPrefixes [] [start]).holds name = answer ∧
    (∀ db : Database, db.lists name → (name ∈ db.namespacesUnder start (fun _ => true) ↔ answer = true)) ∧
    Latest.inSubtree start name = answer ∧
    (∀ (galaxy : Galaxy) (listed : Peer → Option (List String)),
      (∃ peer ∈ galaxy.enabledPeers, name ∈ (listed peer).getD []) →
      (name ∈ galaxy.namespacesUnder listed [start] ↔ answer = true))

/-- Where a namespace begins with the segments of a prefix it begins with its text, slashes at
the prefix's ends apart; and where there is white space around the prefix, the prefix without it
begins the namespace, in both senses, exactly when the prefix does. -/
def WrittenAlike (start name : String) : Prop :=
  (segments start <+: segments name → startsWith name (trimSlashes start) = true) ∧
  (trim start ≠ start → (segments start <+: segments name ↔
    segments (trim start) <+: segments name ∧
      startsWith (trimSlashes name) (trimSlashes (trim start)) = true))

/-- A prefix given to the policy alone, by segments and text. -/
theorem holds_single_iff {start name : String} (external : isInternal name = false) :
    (StoragePolicy.fromPrefixes [] [start]).holds name = true ↔
      segments (trim start) <+: segments name ∧
        startsWith (trimSlashes name) (trimSlashes (trim start)) = true := by
  rw [holds_single external, under_iff (trimSlashes_idem _), segments_trimSlashes, segments_trimSlashes]

theorem inSubtree_iff {start name : String} :
    Latest.inSubtree start name = true ↔
      segments start <+: segments name ∧ startsWith name (trimSlashes start) = true := by
  rw [Latest.inSubtree, Latest.under, under_iff (trimSlashes_idem _), segments_trimSlashes]

theorem isUnder_single (start name : String) : Network.isUnder [start] name = Latest.inSubtree start name := by
  simp [Network.isUnder, Latest.inSubtree, Latest.under]

theorem mem_namespacesUnder_all {db : Database} {start name : String} (external : isInternal name = false)
    (known : db.lists name) :
    name ∈ db.namespacesUnder start (fun _ => true) ↔ Latest.inSubtree start name = true := by
  rw [Database.mem_namespacesUnder]
  simp [external, known, Latest.inSubtree, Latest.under]

/-- White space apart, the policy takes a namespace written as the prefix is. -/
theorem writtenAlike_iff {start name : String} (external : isInternal name = false) :
    WrittenAlike start name ↔
      (segments start <+: segments name ↔ Latest.inSubtree start name = true) ∧
      (segments start <+: segments name ↔ (StoragePolicy.fromPrefixes [] [start]).holds name = true) := by
  rw [inSubtree_iff, holds_single_iff external]
  constructor
  · rintro ⟨text, padded⟩
    refine ⟨⟨fun begins => ⟨begins, text begins⟩, fun both => both.1⟩, ?_⟩
    by_cases same : trim start = start
    · rw [same]
      exact ⟨fun begins => ⟨begins, startsWith_trimSlashes (trimSlashes_idem _) (text begins)⟩, fun both => both.1⟩
    · exact padded same
  · rintro ⟨listed, stored⟩
    exact ⟨fun begins => (listed.mp begins).2, fun _ => stored⟩

theorem onePrefixRule_iff {start name : String} (external : isInternal name = false) :
    Agree start name ↔ WrittenAlike start name := by
  rw [writtenAlike_iff external]
  constructor
  · rintro ⟨answer, granted, stored, listed, latest, -⟩
    have grant := granted ⟨start, true, false, false, .inr ⟨rfl, .inl rfl⟩⟩ rfl
    rw [← Bool.coe_iff_coe, Grant.covers_iff] at grant
    rw [latest, stored]
    exact ⟨grant, grant⟩
  · rintro ⟨listed, stored⟩
    refine ⟨Latest.inSubtree start name, ?_, ?_, fun db known => mem_namespacesUnder_all external known, rfl, ?_⟩
    · rintro grant rfl
      rw [← Bool.coe_iff_coe, Grant.covers_iff]
      exact listed
    · rw [← Bool.coe_iff_coe]
      exact stored.symm.trans listed
    · intro galaxy answers known
      rw [Galaxy.mem_namespacesUnder, isUnder_single]
      exact and_iff_right known

theorem onePrefixRule_iff_feeds : Agree "feeds/" "feeds/ips" :=
  (onePrefixRule_iff (by decide)).mpr ⟨by decide, by decide⟩

/-- A grant and the storage policy take a namespace that begins with a slash; the listings and
the latest writes do not. -/
theorem leadingSlash_parts : isInternal "/feeds/ips" = false ∧ ¬ Agree "feeds" "/feeds/ips" := by
  refine ⟨by decide, ?_⟩
  rintro ⟨answer, granted, -, -, latest, -⟩
  have covers := granted ⟨"feeds", true, true, false, .inr ⟨rfl, .inl rfl⟩⟩ rfl
  rw [← latest] at covers
  revert covers
  decide

end SightingDB
