import SightingDB.Relations
import SightingDB.TierChanges
import SightingDB.Stix
import SightingDB.Lib.TreeWalks

/-!
The namespace tree as the management interface browses it. Namespaces are flat paths; one level
is grouped out of them by the segment that follows a prefix, and whoever browses opens every path
that is listed.
-/
namespace SightingDB

structure StorageView where
  warmIdle : Nat
  ownTier : Bool
  ownWarmIdle : Bool
  deriving DecidableEq

/-- `StorageView::of`, with the name of the tier. -/
def StorageView.of (policy : TierPolicy) (shard : String) : String × StorageView :=
  let resolved := policy.resolve shard
  let own := policy.own shard
  (resolved.tier.asStr, ⟨resolved.warmIdle, own.tier.isSome, own.warmIdle.isSome⟩)

/-- One step down the tree. A path can hold values of its own and have namespaces below it. -/
structure TreeEntry where
  name : String
  path : String
  isNamespace : Bool
  descendants : Nat
  shard : String
  tier : String
  resident : Bool
  storage : StorageView
  deriving DecidableEq

namespace Browsing

/-- What of a name follows a prefix; the prefix itself has nothing that follows. -/
def restUnder (start name : String) : Option String :=
  if start = "" then some name else (stripStart name start).bind fun rest => stripStart rest "/"

/-- Enter one name among the children of a prefix: whether a child is a namespace itself, and
how many are below it. -/
def enter (start : String) (children : OrderedMap String (Bool × Nat)) (name : String) :
    OrderedMap String (Bool × Nat) :=
  match restUnder start name with
  | none => children
  | some rest =>
      let segment := (splitOnChar '/' rest).head?.getD ""
      if segment = "" then children
      else
        let entry := (children.get segment).getD (false, 0)
        if segment.utf8ByteSize = rest.utf8ByteSize then children.insert segment (true, entry.2)
        else children.insert segment (entry.1, entry.2 + 1)

def children (start : String) (names : List String) : OrderedMap String (Bool × Nat) :=
  names.foldl (enter start) ∅

def childPath (start name : String) : String := if start = "" then name else start ++ "/" ++ name

end Browsing

namespace Database

open Browsing

/-- Every name in the catalogue that is not the server's own and that the caller may know about. -/
def visible (db : Database) (allowed : String → Bool) : List String :=
  ((db.shards.entries.flatMap fun e => e.2.namespaces.keys).filter fun name =>
    !startsWith name configPrefix && name ≠ allNamespace).filter allowed

def treeEntry (db : Database) (start : String) (children : OrderedMap String (Bool × Nat)) (name : String) :
    TreeEntry :=
  let path := childPath start name
  let child := (children.get name).getD (false, 0)
  let shard := shardOf path
  let view := StorageView.of db.tiers shard
  { name := name
    path := path
    isNamespace := child.1
    descendants := child.2
    shard := shard
    tier := view.1
    resident := (db.shards.get shard).any (·.resident)
    storage := view.2 }

/-- One level of the tree: what sits directly under a prefix. -/
def namespaceChildren (db : Database) (start filter : String) (offset limit : Nat) (allowed : String → Bool) :
    Page TreeEntry :=
  let start := trimSlashes start
  let filter := asciiLowercase filter
  let children := children start (db.visible allowed)
  let names := children.keys.filter fun name => filter = "" || containsText (asciiLowercase name) filter
  { items := ((names.drop offset).take limit).map (db.treeEntry start children)
    total := names.length
    offset := offset }

/-- All pages of one level, unfiltered. -/
def wholeLevel (db : Database) (allowed : String → Bool) (limit : Nat) (path : String) : List TreeEntry :=
  (List.range ((db.namespaceChildren path "" 0 limit allowed).total / limit + 1)).flatMap fun k =>
    (db.namespaceChildren path "" (k * limit) limit allowed).items

/-- Open every path that is listed, so many levels deep. -/
def browse (db : Database) (allowed : String → Bool) (limit : Nat) : Nat → String → List TreeEntry
  | 0, _ => []
  | levels + 1, path =>
      (db.wholeLevel allowed limit path).flatMap fun entry => entry :: db.browse allowed limit levels entry.path

end Database

namespace Browsing

/-- Whether a name is strictly below a path. -/
def below (path name : String) : Bool := startsWith name (path ++ "/")

/-- What was browsed is the tree of the names that are visible. -/
structure Browsed (visible : Finset String) (entries : List TreeEntry) : Prop where
  reached : ∀ name ∈ visible, (entries.countP fun e => e.path = name ∧ e.isNamespace) = 1
  populated : ∀ e ∈ entries, ∃ name ∈ visible, name = e.path ∨ below e.path name = true
  descendants : ∀ e ∈ entries, e.descendants = (visible.filter fun name => below e.path name).card

/-! ## Names as parts -/

section Parts

abbrev parts (name : String) : List String := splitOnChar '/' name

abbrev text (path : List String) : String := joinWith '/' path

/-- Parts that no slash runs through. -/
def Solid (path : List String) : Prop := ∀ a ∈ path, '/' ∉ a.toList

theorem text_parts (name : String) : text (parts name) = name := by
  simp [text, parts, joinWith, splitOnChar, List.map_map, Function.comp_def]

theorem parts_text {path : List String} (solid : Solid path) (some_ : path ≠ []) : parts (text path) = path := by
  have free : ∀ l ∈ path.map String.toList, '/' ∉ l := by
    intro l mem
    obtain ⟨a, member, rfl⟩ := List.mem_map.mp mem
    exact solid a member
  simp only [parts, text, joinWith, splitOnChar, String.toList_ofList]
  rw [List.splitOn_intercalate '/' free (by simpa using some_)]
  simp [List.map_map, Function.comp_def]

theorem solid_parts (name : String) : Solid (parts name) := by
  intro a mem
  obtain ⟨l, member, rfl⟩ := List.mem_map.mp mem
  simpa using sep_not_mem_splitOn member

theorem parts_slash (start rest : String) : parts (start ++ "/" ++ rest) = parts start ++ parts rest := by
  have whole : (start ++ "/" ++ rest).toList = start.toList ++ '/' :: rest.toList := by simp
  simp only [parts, splitOnChar, whole, List.splitOn_append_cons_self, List.map_append]

theorem text_append {path rest : List String} (solid : Solid (path ++ rest)) (some_ : path ≠ []) (more : rest ≠ []) :
    text (path ++ rest) = text path ++ "/" ++ text rest := by
  have front : Solid path := fun a mem => solid a (List.mem_append_left _ mem)
  have back : Solid rest := fun a mem => solid a (List.mem_append_right _ mem)
  rw [← text_parts (text path ++ "/" ++ text rest), parts_slash, parts_text front some_, parts_text back more]

theorem text_single (a : String) : text [a] = a := by
  simp [text, joinWith]

/-- A name starts with a path's parts when it is the path or below it. -/
theorem prefix_parts {path : List String} {name : String} (solid : Solid path) (some_ : path ≠ []) :
    path <+: parts name ↔ name = text path ∨ below (text path) name = true := by
  constructor
  · rintro ⟨rest, whole⟩
    cases rest with
    | nil => exact .inl (by rw [← text_parts name, ← whole, List.append_nil])
    | cons b rest =>
        have split : Solid (path ++ b :: rest) := whole ▸ solid_parts name
        refine .inr ?_
        rw [← text_parts name, ← whole, text_append split some_ (by simp)]
        exact startsWith_append _ _
  · rintro (rfl | under)
    · rw [parts_text solid some_]
    · obtain ⟨rest, rfl⟩ := eq_append_of_startsWith under
      rw [parts_slash, parts_text solid some_]
      exact List.prefix_append _ _

end Parts

/-! ## One level -/

section Level

variable {start name : String}

theorem stripStart_eq_some {s front rest : String} : stripStart s front = some rest ↔ s = front ++ rest := by
  constructor
  · intro stripped
    rw [stripStart] at stripped
    split_ifs at stripped with starts
    obtain ⟨more, rfl⟩ := eq_append_of_startsWith starts
    have same : more = rest := by simpa using stripped
    rw [same]
  · rintro rfl
    simp [stripStart, startsWith_append]

theorem restUnder_eq_some {rest : String} : restUnder start name = some rest ↔ name = childPath start rest := by
  rw [restUnder, childPath]
  split_ifs with root
  · simp
  · simp only [Option.bind_eq_some_iff, stripStart_eq_some]
    constructor
    · rintro ⟨after, rfl, rfl⟩
      rw [String.append_assoc]
    · rintro rfl
      exact ⟨"/" ++ rest, by rw [String.append_assoc], rfl⟩

/-- The segment that follows a prefix is all there is, or there is more below it. -/
theorem head_parts {a rest : String} (free : '/' ∉ a.toList) :
    (parts rest).head?.getD "" = a ↔ rest = a ∨ ∃ more, rest = a ++ "/" ++ more := by
  have alone : parts a = [a] := by
    rw [← text_single a, parts_text (by simpa [Solid] using free) (by simp), text_single]
  constructor
  · intro head
    cases split : parts rest with
    | nil => simp [parts, splitOnChar] at split
    | cons first more =>
        obtain rfl : first = a := by simpa [split] using head
        have whole := text_parts rest
        rw [split] at whole
        cases more with
        | nil => exact .inl (by rw [← whole, text_single])
        | cons b more =>
            refine .inr ⟨text (b :: more), ?_⟩
            have solid : Solid ([first] ++ b :: more) := by
              rw [List.singleton_append, ← split]
              exact solid_parts rest
            rw [← whole, ← List.singleton_append, text_append solid (by simp) (by simp), text_single]
  · rintro (rfl | ⟨more, rfl⟩)
    · simp [alone]
    · simp [parts_slash, alone]

theorem head_free (rest : String) : '/' ∉ ((parts rest).head?.getD "").toList := by
  cases split : parts rest with
  | nil => simp
  | cons first more => exact solid_parts rest first (by simp [split])

theorem childPath_inj {a b : String} : childPath start a = childPath start b ↔ a = b := by
  rw [childPath, childPath]
  split_ifs
  · rfl
  · rw [String.append_right_inj]

theorem childPath_append (a rest : String) : childPath start (a ++ rest) = childPath start a ++ rest := by
  rw [childPath, childPath]
  split_ifs
  · rfl
  · simp only [String.append_assoc]

theorem below_iff {path : String} : below path name = true ↔ ∃ more, name = path ++ "/" ++ more := by
  constructor
  · exact eq_append_of_startsWith
  · rintro ⟨more, rfl⟩
    exact startsWith_append _ _

/-- What one name does for one child of the prefix. -/
theorem get_enter {a : String} (free : '/' ∉ a.toList) (some_ : a ≠ "") (children : OrderedMap String (Bool × Nat)) :
    (enter start children name).get a =
      if name = childPath start a then some (true, ((children.get a).getD (false, 0)).2)
      else if below (childPath start a) name = true then
        some (((children.get a).getD (false, 0)).1, ((children.get a).getD (false, 0)).2 + 1)
      else children.get a := by
  have under {more : String} : childPath start a ++ "/" ++ more = childPath start (a ++ "/" ++ more) := by
    rw [String.append_assoc, ← childPath_append, ← String.append_assoc]
  cases follows : restUnder start name with
  | none =>
      have apart (rest : String) : name ≠ childPath start rest := fun same => by
        rw [restUnder_eq_some.mpr same] at follows
        cases follows
      have notBelow : ¬ below (childPath start a) name = true := by
        rw [below_iff]
        rintro ⟨more, same⟩
        exact apart _ (same.trans under)
      rw [if_neg (apart a), if_neg notBelow, enter, follows]
  | some rest =>
      obtain rfl := restUnder_eq_some.mp follows
      have itself : childPath start rest = childPath start a ↔ rest = a := childPath_inj
      have deeper : below (childPath start a) (childPath start rest) = true ↔ ∃ more, rest = a ++ "/" ++ more := by
        simp only [below_iff, under, childPath_inj]
      simp only [enter, follows]
      by_cases head : (parts rest).head?.getD "" = a
      · have shape := (head_parts free).mp head
        simp only [parts] at head
        rw [head, if_neg some_]
        rcases shape with rfl | ⟨more, rfl⟩
        · rw [if_pos rfl, if_pos rfl, OrderedMap.get_insert_self]
        · have longer : a.utf8ByteSize ≠ (a ++ "/" ++ more).utf8ByteSize := by
            rw [String.utf8ByteSize_append, String.utf8ByteSize_append]
            have : ("/" : String).utf8ByteSize = 1 := by decide
            omega
          have apart : a ++ "/" ++ more ≠ a := fun same => longer (congrArg String.utf8ByteSize same.symm)
          rw [if_neg longer, if_neg (mt itself.mp apart), if_pos (deeper.mpr ⟨more, rfl⟩), OrderedMap.get_insert_self]
      · have elsewhere : ¬ (rest = a ∨ ∃ more, rest = a ++ "/" ++ more) := mt (head_parts free).mpr head
        rw [not_or] at elsewhere
        rw [if_neg (mt itself.mp elsewhere.1), if_neg (mt deeper.mp elsewhere.2)]
        simp only [parts] at head
        split_ifs
        · rfl
        · exact OrderedMap.get_insert_of_ne _ _ (Ne.symm head)
        · exact OrderedMap.get_insert_of_ne _ _ (Ne.symm head)

variable {a : String} (free : '/' ∉ a.toList) (some_ : a ≠ "") (names : List String)
include free some_

/-- A child says whether it is one of the names, and how many of them are below it. -/
theorem getD_children : ((children start names).get a).getD (false, 0) =
    (decide (childPath start a ∈ names), names.countP (below (childPath start a))) := by
  induction names using List.reverseRecOn with
  | nil => rfl
  | append_singleton names name ih =>
      rw [children, List.foldl_append, List.foldl_cons, List.foldl_nil, get_enter free some_]
      rw [children] at ih
      rw [ih, List.countP_append]
      split_ifs with itself under
      · subst itself
        have notBelow : below (childPath start a) (childPath start a) = false := by
          rw [Bool.eq_false_iff]
          intro under
          obtain ⟨more, same⟩ := below_iff.mp under
          have longer := congrArg String.length same
          have slash : ("/" : String).length = 1 := by decide
          simp only [String.length_append, slash] at longer
          omega
        simp [notBelow]
      · simp [under, Ne.symm itself]
      · simp [ih, under, Ne.symm itself]

theorem contains_children : (children start names).contains a = true ↔
    ∃ name ∈ names, name = childPath start a ∨ below (childPath start a) name = true := by
  induction names using List.reverseRecOn with
  | nil => simp [children, OrderedMap.contains]
  | append_singleton names name ih =>
      rw [children, List.foldl_append, List.foldl_cons, List.foldl_nil, OrderedMap.contains, get_enter free some_]
      rw [children, OrderedMap.contains] at ih
      split_ifs with itself under
      · simp [itself]
      · simp [under]
      · simp [ih, itself, under, or_and_right, exists_or]

omit free some_ in
theorem of_contains_children (child : (children start names).contains a = true) : '/' ∉ a.toList ∧ a ≠ "" := by
  induction names using List.reverseRecOn with
  | nil => simp [children, OrderedMap.contains] at child
  | append_singleton names name ih =>
      rw [children, List.foldl_append, List.foldl_cons, List.foldl_nil, enter] at child
      rw [children] at ih
      split at child
      · exact ih child
      · rename_i rest _
        by_cases head : (splitOnChar '/' rest).head?.getD "" = a
        · rw [head] at child
          refine ⟨?_, fun none_ => ?_⟩
          · rw [← head]
            exact head_free rest
          · rw [if_pos none_] at child
            exact (ih child).2 none_
        · refine ih ?_
          rw [OrderedMap.contains] at child ⊢
          dsimp only at child
          split_ifs at child
          · exact child
          · rwa [OrderedMap.get_insert_of_ne _ _ (Ne.symm head)] at child
          · rwa [OrderedMap.get_insert_of_ne _ _ (Ne.symm head)] at child

end Level

/-! ## The tree -/

section Tree

variable (names : List String)

/-- The children of a path, as they are listed. -/
def kids (path : List String) : List String := (children (text path) names).keys

/-- The paths of the tree: no part is empty and a name starts with them. -/
def Within (path : List String) : Prop := "" ∉ path ∧ ∃ name ∈ names, path <+: parts name

variable {names} {path : List String}

theorem Within.solid (within : Within names path) : Solid path := by
  obtain ⟨-, name, -, start⟩ := within
  exact fun a mem => solid_parts name a (start.subset mem)

theorem text_ne_empty (within : Within names path) (some_ : path ≠ []) : text path ≠ "" := by
  intro none_
  have whole := parts_text within.solid some_
  have blank : parts "" = [""] := by decide
  rw [none_, blank] at whole
  exact within.1 (by simp [← whole])

/-- The path of a child is the path with one part more. -/
theorem childPath_text (start : path = [] ∨ Within names path) {a : String} (free : '/' ∉ a.toList) :
    childPath (text path) a = text (path ++ [a]) := by
  rcases start with rfl | within
  · rw [List.nil_append, text_single, childPath]
    exact if_pos (by decide)
  · by_cases root : path = []
    · subst root
      rw [List.nil_append, text_single, childPath]
      exact if_pos (by decide)
    · have solid : Solid (path ++ [a]) := fun b mem => by
        rcases List.mem_append.mp mem with front | last
        · exact within.solid b front
        · obtain rfl : b = a := by simpa using last
          exact free
      rw [childPath, if_neg (text_ne_empty within root), text_append solid root (by simp), text_single]

theorem closed : TreeWalks.Closed (Within names) (kids names) where
  up := by
    rintro path a - ⟨full, name, member, start⟩
    exact ⟨fun blank => full (List.mem_append_left _ blank), name, member, (List.prefix_append _ _).trans start⟩
  kids := by
    intro path a start
    rw [kids, OrderedMap.mem_keys, ← OrderedMap.contains_iff]
    constructor
    · intro child
      obtain ⟨free, some_⟩ := of_contains_children names child
      obtain ⟨name, member, at_⟩ := (contains_children free some_ names).mp child
      rw [childPath_text start free] at at_
      have solid : Solid (path ++ [a]) := fun b mem => by
        rcases List.mem_append.mp mem with front | last
        · exact start.elim (fun none_ => by simp [none_] at front) fun within => within.solid b front
        · obtain rfl : b = a := by simpa using last
          exact free
      refine ⟨fun blank => ?_, name, member, (prefix_parts solid (by simp)).mpr at_⟩
      rcases List.mem_append.mp blank with front | last
      · exact start.elim (fun none_ => by simp [none_] at front) fun within => within.1 front
      · exact some_ (by simpa [eq_comm] using last)
    · rintro ⟨full, name, member, front⟩
      have solid : Solid (path ++ [a]) := fun b mem => solid_parts name b (front.subset mem)
      have free : '/' ∉ a.toList := solid a (by simp)
      have some_ : a ≠ "" := fun none_ => full (by simp [none_])
      refine (contains_children free some_ names).mpr ⟨name, member, ?_⟩
      rw [childPath_text start free]
      exact (prefix_parts solid (by simp)).mp front

theorem kids_nodup (path : List String) : (kids names path).Nodup := OrderedMap.keys_nodup _

theorem trimSlashes_text (start : path = [] ∨ Within names path) : trimSlashes (text path) = text path := by
  rcases start with rfl | within
  · decide
  by_cases root : path = []
  · subst root
    decide
  have whole := parts_text within.solid root
  have some_ : (text path).toList ≠ [] := fun none_ => text_ne_empty within root (by simpa using none_)
  -- A slash at either end would leave an empty part there.
  have front : (text path).toList.dropWhile (· = '/') = (text path).toList := by
    cases shape : (text path).toList with
    | nil => rfl
    | cons c rest =>
        have solid : c ≠ '/' := by
          rintro rfl
          refine within.1 ?_
          rw [← whole, parts, splitOnChar, shape, ← List.nil_append ('/' :: rest), List.splitOn_append_cons_self]
          simp
        simp [solid]
  have back : (text path).toList.rdropWhile (· = '/') = (text path).toList := by
    rw [List.rdropWhile_eq_self_iff]
    intro _
    have solid : (text path).toList.getLast some_ ≠ '/' := by
      intro slash
      refine within.1 ?_
      rw [← whole, parts, splitOnChar, ← List.dropLast_append_getLast some_, slash, List.splitOn_append_cons_self]
      simp
    simpa using solid
  rw [trimSlashes, trimWhere, front, back, String.ofList_toList]

end Tree

end Browsing

/-! ## Browsing -/

namespace Database

open Browsing

variable {db : Database} {allowed : String → Bool} {limit : Nat}

/-- Pages taken one after another are the whole list. -/
theorem flatMap_pages {α : Type*} (l : List α) (limit k : Nat) :
    ((List.range k).flatMap fun i => (l.drop (i * limit)).take limit) = l.take (k * limit) := by
  induction k with
  | zero => simp
  | succ k ih =>
      rw [List.range_succ, List.flatMap_append, ih, List.flatMap_singleton, Nat.succ_mul, List.take_add]

/-- The entry of a path, wherever it was listed. -/
def entryAt (db : Database) (names : List String) (path : List String) : TreeEntry :=
  let shard := shardOf (text path)
  let view := StorageView.of db.tiers shard
  { name := path.getLastD ""
    path := text path
    isNamespace := decide (text path ∈ names)
    descendants := names.countP (below (text path))
    shard := shard
    tier := view.1
    resident := (db.shards.get shard).any (·.resident)
    storage := view.2 }

theorem wholeLevel_text (pos : 0 < limit) {path : List String} (start : path = [] ∨ Within (db.visible allowed) path) :
    db.wholeLevel allowed limit (text path) =
      (kids (db.visible allowed) path).map fun a => db.entryAt (db.visible allowed) (path ++ [a]) := by
  have all : (children (text path) (db.visible allowed)).keys.filter
      (fun name => asciiLowercase "" = "" || containsText (asciiLowercase name) (asciiLowercase "")) =
      kids (db.visible allowed) path := by
    have any : asciiLowercase "" = "" := by decide
    simp [any, kids]
  have reach (n : Nat) : n ≤ (n / limit + 1) * limit := by
    have := Nat.lt_div_mul_add pos (a := n)
    rw [Nat.succ_mul]
    omega
  simp only [wholeLevel, namespaceChildren, trimSlashes_text start, all]
  rw [← List.map_flatMap, flatMap_pages, List.take_of_length_le (reach _)]
  refine List.map_congr_left fun a kid => ?_
  have child : (children (text path) (db.visible allowed)).contains a = true :=
    OrderedMap.contains_iff.mpr (OrderedMap.mem_keys.mp kid)
  obtain ⟨free, some_⟩ := of_contains_children _ child
  simp [treeEntry, entryAt, getD_children free some_, childPath_text start free]

/-- What is browsed is the walk over the tree, path by path. -/
theorem browse_eq (pos : 0 < limit) (levels : Nat) :
    db.browse allowed limit levels "" =
      (TreeWalks.walk (kids (db.visible allowed)) levels []).map (db.entryAt (db.visible allowed)) := by
  have root : text [] = "" := by decide
  rw [← root]
  refine TreeWalks.map_walk (fun _ => rfl) (fun levels path start => ?_) closed levels (.inl rfl)
  rw [browse, wholeLevel_text pos start, List.flatMap_map]
  rfl

/-- The catalogue lists every name in its own shard. -/
def Filed (db : Database) : Prop :=
  ∀ shard meta_, db.shards.get shard = some meta_ → ∀ name, meta_.namespaces.contains name = true → shardOf name = shard

theorem filed_of_laid {names : ShardFiles} {dir : Dir} (laid : Laid names dir db) : db.Filed :=
  fun _ _ found _ listed => laid.shardOf_listed found listed

theorem visible_nodup (filed : db.Filed) (allowed : String → Bool) : (db.visible allowed).Nodup := by
  refine ((List.nodup_flatMap.mpr ⟨fun e _ => OrderedMap.keys_nodup _, ?_⟩).filter _).filter _
  have distinct : db.shards.entries.Pairwise fun e e' => e.1 ≠ e'.1 := db.shards.sorted.imp fun under => ne_of_lt under
  refine (List.Pairwise.and_mem.mp distinct).imp ?_
  rintro ⟨shard, meta_⟩ ⟨shard', meta_'⟩ ⟨mem, mem', apart⟩ name listed listed'
  have own {shard : String} {meta_ : ShardMeta} (mem : (shard, meta_) ∈ db.shards.entries)
      (listed : name ∈ meta_.namespaces.keys) : shardOf name = shard :=
    filed shard meta_ (OrderedMap.mem_entries.mp mem) name (OrderedMap.contains_iff.mpr (OrderedMap.mem_keys.mp listed))
  exact apart ((own mem listed).symm.trans (own mem' listed'))

section Tree

variable {levels : Nat} (filed : db.Filed) (deep : ∀ name ∈ db.visible allowed, (parts name).length ≤ levels)

theorem mem_walk_kids {q : List String} : q ∈ TreeWalks.walk (kids (db.visible allowed)) levels [] ↔
    Within (db.visible allowed) q ∧ q ≠ [] ∧ q.length ≤ levels := by
  rw [closed.mem_walk (.inl rfl), and_congr_right_iff]
  intro _
  simp [List.length_pos_iff]

/-- Every path that is listed is in parts that are not empty. -/
theorem parts_of_browse (pos : 0 < limit) {e : TreeEntry} (shown : e ∈ db.browse allowed limit levels "") :
    "" ∉ parts e.path := by
  rw [browse_eq pos] at shown
  obtain ⟨q, reached, rfl⟩ := List.mem_map.mp shown
  obtain ⟨within, some_, -⟩ := mem_walk_kids.mp reached
  change "" ∉ parts (text q)
  rw [parts_text within.solid some_]
  exact within.1

/-- A visible name with an empty part is never reached. -/
theorem unreached (pos : 0 < limit) {name : String} (member : name ∈ db.visible allowed) (hollow : "" ∈ parts name) :
    ¬ Browsed (db.visible allowed).toFinset (db.browse allowed limit levels "") := by
  intro browsed
  have once := browsed.reached name (List.mem_toFinset.mpr member)
  obtain ⟨e, shown, at_⟩ := List.countP_pos_iff.mp (once ▸ Nat.one_pos)
  have same : e.path = name := (of_decide_eq_true at_).1
  exact parts_of_browse pos shown (same ▸ hollow)

include deep

/-- A name without an empty part is at the end of one path. -/
theorem parts_mem_walk {name : String} (member : name ∈ db.visible allowed) (full : "" ∉ parts name) :
    parts name ∈ TreeWalks.walk (kids (db.visible allowed)) levels [] :=
  mem_walk_kids.mpr ⟨⟨full, name, member, List.prefix_rfl⟩, by simp [parts, splitOnChar], deep name member⟩

theorem countP_browse {name : String} (member : name ∈ db.visible allowed) (full : "" ∉ parts name) :
    ((TreeWalks.walk (kids (db.visible allowed)) levels []).map (db.entryAt (db.visible allowed))).countP
      (fun e => e.path = name ∧ e.isNamespace) = 1 := by
  have nodup := TreeWalks.walk_nodup (@kids_nodup (db.visible allowed)) levels []
  rw [← List.count_eq_one_of_mem nodup (parts_mem_walk deep member full), List.countP_map, List.count]
  refine List.countP_congr fun q reached => ?_
  obtain ⟨within, some_, -⟩ := mem_walk_kids.mp reached
  have same : text q = name ↔ q = parts name := by
    constructor
    · rintro rfl
      exact (parts_text within.solid some_).symm
    · rintro rfl
      exact text_parts name
  simp only [Function.comp_apply, entryAt, decide_eq_true_eq, beq_iff_eq, same]
  exact ⟨And.left, fun here => ⟨here, by rwa [here, text_parts]⟩⟩

include filed

/-- Opening everything that is listed, in pages of any size and as deep as the names go, shows the
tree of what is visible exactly when no visible name has an empty part. -/
theorem browsing_reaches (pos : 0 < limit) :
    Browsed (db.visible allowed).toFinset (db.browse allowed limit levels "") ↔
      ∀ name ∈ db.visible allowed, "" ∉ splitOnChar '/' name := by
  constructor
  · exact fun browsed name member hollow => unreached pos member hollow browsed
  · intro full
    rw [browse_eq pos]
    refine ⟨fun name member => ?_, ?_, ?_⟩
    · have listed := List.mem_toFinset.mp member
      exact countP_browse deep listed (full name listed)
    · intro e shown
      obtain ⟨q, reached, rfl⟩ := List.mem_map.mp shown
      obtain ⟨within, some_, -⟩ := mem_walk_kids.mp reached
      obtain ⟨name, member, start⟩ := within.2
      exact ⟨name, List.mem_toFinset.mpr member, (prefix_parts within.solid some_).mp start⟩
    · intro e shown
      obtain ⟨q, -, rfl⟩ := List.mem_map.mp shown
      have nodup := (visible_nodup filed allowed).filter fun name => below (text q) name
      change (db.visible allowed).countP (below (text q)) =
        ((db.visible allowed).toFinset.filter fun name => below (text q) name = true).card
      have same : (db.visible allowed).toFinset.filter (fun name => below (text q) name = true) =
          ((db.visible allowed).filter fun name => below (text q) name).toFinset :=
        (List.toFinset_filter _ _).symm
      rw [same, List.toFinset_card_of_nodup nodup, ← List.countP_eq_length_filter]

end Tree

/-- A server with these names written to it. -/
def holding (names : List String) : Database :=
  names.foldl (fun db name => (writeTaggedAs db .sample none name "v" none none "").1) (withNode ⟨0, 0⟩ .storeEverything "n")

theorem browsing_reaches_feeds : Browsed ((holding ["feeds/ips", "feeds"]).visible fun _ => true).toFinset
    ((holding ["feeds/ips", "feeds"]).browse (fun _ => true) 1 2 "") := by
  have filed : (holding ["feeds/ips", "feeds"]).Filed := by
    have all : ((holding ["feeds/ips", "feeds"]).shards.entries.all fun e =>
        e.2.namespaces.keys.all fun name => shardOf name = e.1) = true := by decide
    intro shard meta_ found name listed
    have member := List.all_eq_true.mp all (shard, meta_) (OrderedMap.mem_entries.mpr found)
    exact of_decide_eq_true
      (List.all_eq_true.mp member name (OrderedMap.mem_keys.mpr (OrderedMap.contains_iff.mp listed)))
  exact (browsing_reaches filed (by decide) Nat.one_pos).mpr (by decide)

/-- A client can write below a doubled slash, and no browsing gets there. -/
theorem doubled_slash_unreached : ("feeds//ips" ∈ (holding ["feeds//ips"]).visible fun _ => true) ∧
    ∀ levels, ¬ Browsed ((holding ["feeds//ips"]).visible fun _ => true).toFinset
      ((holding ["feeds//ips"]).browse (fun _ => true) 1 levels "") := by
  have member : "feeds//ips" ∈ (holding ["feeds//ips"]).visible fun _ => true := by decide
  exact ⟨member, fun levels => unreached Nat.one_pos member (by decide)⟩

end Database

end SightingDB
