import SightingDB.Housekeeping
import SightingDB.Contents
import SightingDB.StixImport

/-!
Writing down one observation of a feed: a loop of sightings, the first at the start of the
observed window and the rest at its end. The tags go on with the first.
-/
namespace SightingDB

inductive RecordError
  | refused (error : ApiError)
  | invalidTimestamp (seconds : Int)
  deriving DecidableEq

namespace Recording

/-- `sighting_writer::timestamp_to_instant`. -/
def timestampToInstant (seconds : Int) : Except RecordError DateTime :=
  match DateTime.fromTimestamp seconds with
  | none => .error (.invalidTimestamp seconds)
  | some instant => .ok instant

/-- One end of the window, when there is none the other way to say it. -/
def edge (seconds : Option Int) (absent : Option DateTime) : Except RecordError (Option DateTime) :=
  match seconds with
  | none => .ok absent
  | some seconds => (timestampToInstant seconds).map some

/-- The writes from the `n`th on; each finds a world of its own. -/
def writeFrom (worlds : Nat → World) (s : Stix.Sighting) (ttl : Option Nat) (first last : Option DateTime) (tags : String) :
    Nat → Nat → Database → Database × Except RecordError Unit
  | _, 0, db => (db, .ok ())
  | n, left + 1, db =>
      let when := if n = 0 then first else last
      let tags' := if n = 0 then tags else ""
      match writeTaggedAs db (worlds n) none s.namespace_ s.value when ttl tags' with
      | (db, .error e) => (db, .error (.refused e))
      | (db, .ok _) => writeFrom worlds s ttl first last tags (n + 1) left db

end Recording

open Recording in
/-- `ingest::record`. -/
def record (db : Database) (worlds : Nat → World) (ttl : Nat) (s : Stix.Sighting) : Database × Except RecordError Unit :=
  let ttl := if 0 < ttl then some ttl else none
  match edge s.timestamp none with
  | .error e => (db, .error e)
  | .ok first => match edge s.lastTimestamp first with
    | .error e => (db, .error e)
    | .ok last => writeFrom worlds s ttl first last (joinTags s.tags) 0 (max s.count 1) db

namespace Recording

variable {names : ShardFiles} {dir : Dir} {db : Database} {name value : String}

/-! ## One write -/

/-- Everything is in memory, or files and memory fit together. -/
def Ready (names : ShardFiles) (dir : Dir) (name : String) (db : Database) : Prop :=
  db.AllResident ∨ Consistent names dir (fun _ => True) db ∧ names.used (shardOf name)

/-- What is held of one value. -/
def heldCell (names : ShardFiles) (dir : Dir) (db : Database) (name value : String) : Option Attribute :=
  ((held names dir db name).getD ∅).get value

theorem heldCell_resident (resident : db.AllResident) :
    heldCell names dir db name value = storedCell db.namespaces name value := by
  rw [heldCell, Database.held_resident resident, storedCell]
  cases db.namespaces.get name <;> rfl

theorem get_write {c : Contents} {node origin : String} {retention : Nat} {when : DateTime} {consensus : Bool}
    {ttl : Option Nat} {tags : String} (other : name ≠ allNamespace) :
    ((c.write node retention origin name value when consensus ttl tags).values name).get value =
      some ((c.cell name value).sighted origin when ttl retention tags) := by
  have recorded : ((c.record origin name value when ttl retention tags).values name).get value =
      some ((c.cell name value).sighted origin when ttl retention tags) := by
    simp [Contents.record, Contents.values, Contents.put]
  rw [Contents.write]
  split_ifs
  · rw [← recorded]
    simp [Contents.tallyUp, Contents.record, Contents.values, Contents.put, other]
  · exact recorded

/-- What a write that passes its checks leaves: one more sighting of its value, counted for this server. -/
structure Wrote (names : ShardFiles) (dir : Dir) (name value : String) (when : DateTime) (ttl : Option Nat) (tags : String)
    (db db' : Database) : Prop where
  ready : Ready names dir name db'
  settings : db'.settings = db.settings
  node : db'.node = db.node
  cell : heldCell names dir db' name value = some (((heldCell names dir db name value).getD (.new value)).sighted db.node
    when (db.ttlOf name ⟨true, ttl⟩) db.policy.statsRetention tags)

theorem recordWrite_wrote (ready : Ready names dir name db) (other : name ≠ allNamespace) (now when : DateTime)
    (ttl : Option Nat) (tags : String) : Wrote names dir name value when ttl tags db
      (db.recordWrite (.sound names dir now) db.node name value when ⟨true, ttl⟩ tags).1 := by
  have settings := Database.settings_recordWrite db (.sound names dir now) db.node name value when ⟨true, ttl⟩ tags
  rcases ready with resident | ⟨consistent, used⟩
  · have keeps : db.Keeps db.node db.namespaces := ⟨resident, rfl, rfl⟩
    obtain ⟨⟨m, kept, cells⟩, -⟩ := Database.recordWrite_cells keeps (.sound names dir now) db.node name value when ⟨true, ttl⟩ tags
    refine ⟨.inl kept.resident, settings, kept.node, ?_⟩
    rw [heldCell_resident kept.resident, heldCell_resident resident, kept.namespaces, cells name other value,
      if_pos ⟨rfl, rfl⟩, Database.sightedCell]
  · have done := recordWrite_does consistent now used db.node value when ⟨true, ttl⟩ tags
    refine ⟨.inr ⟨done.consistent, used⟩, settings, done.node, ?_⟩
    rw [heldCell, done.held]
    exact get_write other

theorem writeTaggedAs_wrote (ready : Ready names dir name db) (passes : check db name value = .ok ()) (now : DateTime)
    (when : Option DateTime) (ttl : Option Nat) (tags : String) :
    (∃ written, (writeTaggedAs db (.sound names dir now) none name value when ttl tags).2 = .ok written) ∧
      Wrote names dir name value (when.getD now) ttl tags db
        (writeTaggedAs db (.sound names dir now) none name value when ttl tags).1 := by
  have other : name ≠ allNamespace := by
    rintro rfl
    simp only [check] at passes
    split_ifs at passes with _ internal
    exact internal (by decide)
  simp only [writeTaggedAs, passes]
  exact ⟨⟨_, rfl⟩, recordWrite_wrote ready other now (when.getD now) ttl tags⟩

/-! ## What the loop leaves -/

/-- A cell in which one server has counted sightings at these times. -/
structure Seen (node : String) (first : DateTime) (rest : List DateTime) (tags : String) (a : Attribute) : Prop where
  counts : a.counts = OrderedMap.empty.insert node (rest.length + 1)
  firstSeen : a.firstSeen = rest.foldl min first
  lastSeen : a.lastSeen = rest.foldl max first
  tags : a.tags = tags

variable {node tags : String} {first : DateTime} {rest : List DateTime} {a : Attribute}

theorem Seen.start (value node : String) (when : DateTime) (ttl : Option Nat) (retention : Nat) (tags : String) :
    Seen node when [] (unionTags "" tags) ((Attribute.new value).sighted node when ttl retention tags) := by
  rw [Attribute.sighted_eq]
  have nothing : ∀ (ttl : Nat) (tags : String), ({ Attribute.new value with ttl := ttl, tags := tags } : Attribute).count = 0 :=
    fun _ _ => rfl
  refine ⟨?_, ?_, ?_, ?_⟩
  · rw [Attribute.increment_counts]
    rfl
  · rw [Attribute.increment_firstSeen, if_pos (nothing _ _)]
    rfl
  · rw [Attribute.increment_lastSeen, if_pos (nothing _ _)]
    rfl
  · rw [Attribute.increment_tags]
    split_ifs with blank
    · have none_ : unionTags "" "" = "" := by decide
      rw [blank, none_]
      rfl
    · rfl

theorem Seen.count (seen : Seen node first rest tags a) (fits : rest.length + 1 < u64Size) : a.count = rest.length + 1 := by
  rw [Attribute.count, seen.counts, OrderedMap.total_single, Nat.mod_eq_of_lt fits]

/-- One more sighting without tags widens the window. -/
theorem Seen.again (seen : Seen node first rest tags a) (fits : rest.length + 2 < u64Size) (when : DateTime)
    (ttl : Option Nat) (retention : Nat) : Seen node first (rest ++ [when]) tags (a.sighted node when ttl retention "") := by
  have counted := seen.count (by omega)
  rw [Attribute.sighted_eq, if_pos rfl]
  have some_ : ¬ ({ a with ttl := ttl.getD a.ttl, tags := a.tags } : Attribute).count = 0 := by
    change ¬ a.count = 0
    omega
  refine ⟨?_, ?_, ?_, ?_⟩
  · rw [Attribute.increment_counts, Attribute.addTo, seen.counts, OrderedMap.insert_insert, OrderedMap.get_insert_self,
      Option.getD_some, Nat.mod_eq_of_lt fits, List.length_append]
    rfl
  · rw [Attribute.increment_firstSeen, if_neg some_, List.foldl_append, ← seen.firstSeen]
    rfl
  · rw [Attribute.increment_lastSeen, if_neg some_, List.foldl_append, ← seen.lastSeen]
    rfl
  · rw [Attribute.increment_tags]
    exact seen.tags

/-- When the writes from the `n`th on are made. -/
def times (clock : Nat → DateTime) (last : Option DateTime) (n left : Nat) : List DateTime :=
  (List.range' n left).map fun i => last.getD (clock i)

variable {s : Stix.Sighting} {clock : Nat → DateTime} {ttl : Option Nat} {start last : Option DateTime}

theorem check_settings {db' : Database} (same : db'.settings = db.settings) (name value : String) :
    check db' name value = check db name value := by
  have stores : db'.stores = db.stores := congrArg Prod.snd same
  have holds : db'.holds name = db.holds name := by rw [Database.holds, stores, Database.holds]
  rw [check, check, holds]

/-- The writes after the first find nothing in their way, and add their times. -/
theorem writeFrom_seen (clock : Nat → DateTime) (ttl : Option Nat) (start last : Option DateTime) {n : Nat}
    (late : 0 < n) (left : Nat) (ready : Ready names dir s.namespace_ db)
    (passes : check db s.namespace_ s.value = .ok ()) {rest : List DateTime}
    (held_ : ∃ a, heldCell names dir db s.namespace_ s.value = some a ∧ Seen db.node first rest tags a)
    (fits : rest.length + 1 + left < u64Size) (text : String) :
    let after := writeFrom (fun i => .sound names dir (clock i)) s ttl start last text n left db
    after.2 = .ok () ∧ ∃ a, heldCell names dir after.1 s.namespace_ s.value = some a ∧
      Seen db.node first (rest ++ times clock last n left) tags a := by
  induction left generalizing n db rest with
  | zero => simpa [writeFrom, times] using held_
  | succ left ih =>
      obtain ⟨a, found, seen⟩ := held_
      obtain ⟨⟨written, accepted⟩, wrote⟩ := writeTaggedAs_wrote ready passes (clock n) last ttl ""
      have step : writeFrom (fun i => .sound names dir (clock i)) s ttl start last text n (left + 1) db =
          writeFrom (fun i => .sound names dir (clock i)) s ttl start last text (n + 1) left
            (writeTaggedAs db (.sound names dir (clock n)) none s.namespace_ s.value last ttl "").1 := by
        rw [writeFrom]
        simp only [Nat.ne_of_gt late, if_false]
        split
        · rename_i failed
          rw [failed] at accepted
          cases accepted
        · rename_i done
          rw [done]
      have cell : ∃ a', heldCell names dir (writeTaggedAs db (.sound names dir (clock n)) none s.namespace_ s.value last ttl
          "").1 s.namespace_ s.value = some a' ∧ Seen db.node first (rest ++ [last.getD (clock n)]) tags a' :=
        ⟨_, wrote.cell, by rw [found]; exact seen.again (by omega) _ _ _⟩
      rw [← wrote.node] at cell
      have later := ih (Nat.succ_pos n) wrote.ready ((check_settings wrote.settings _ _).trans passes) cell (by simp; omega)
      rw [wrote.node] at later
      simp only [step]
      refine ⟨later.1, ?_⟩
      simpa [times, List.range'_succ, List.append_assoc] using later.2

/-- All the writes of an observation of a value that is not there yet. -/
theorem writeFrom_start (clock : Nat → DateTime) (ttl : Option Nat) (start last : Option DateTime) (left : Nat)
    (ready : Ready names dir s.namespace_ db)
    (passes : check db s.namespace_ s.value = .ok ()) (absent : heldCell names dir db s.namespace_ s.value = none)
    (fits : left + 1 < u64Size) (text : String) :
    let after := writeFrom (fun i => .sound names dir (clock i)) s ttl start last text 0 (left + 1) db
    after.2 = .ok () ∧ ∃ a, heldCell names dir after.1 s.namespace_ s.value = some a ∧
      Seen db.node (start.getD (clock 0)) (times clock last 1 left) (unionTags "" text) a := by
  obtain ⟨⟨written, accepted⟩, wrote⟩ := writeTaggedAs_wrote ready passes (clock 0) start ttl text
  have step : writeFrom (fun i => .sound names dir (clock i)) s ttl start last text 0 (left + 1) db =
      writeFrom (fun i => .sound names dir (clock i)) s ttl start last text 1 left
        (writeTaggedAs db (.sound names dir (clock 0)) none s.namespace_ s.value start ttl text).1 := by
    rw [writeFrom]
    simp only [if_true]
    split
    · rename_i failed
      rw [failed] at accepted
      cases accepted
    · rename_i done
      rw [done]
  have cell : ∃ a', heldCell names dir (writeTaggedAs db (.sound names dir (clock 0)) none s.namespace_ s.value start ttl
      text).1 s.namespace_ s.value = some a' ∧ Seen db.node (start.getD (clock 0)) [] (unionTags "" text) a' :=
    ⟨_, wrote.cell, by rw [absent]; exact Seen.start ..⟩
  rw [← wrote.node] at cell
  have later := writeFrom_seen clock ttl start last Nat.one_pos left wrote.ready
    ((check_settings wrote.settings _ _).trans passes) cell (by simp; omega) text
  rw [wrote.node] at later
  simpa only [step, List.nil_append] using later

/-- A write that is refused is refused before anything is written. -/
theorem writeFrom_refused {e : ApiError} (worlds : Nat → World) (refused : check db s.namespace_ s.value = .error e)
    (left : Nat) (text : String) : writeFrom worlds s ttl start last text 0 (left + 1) db = (db, .error (.refused e)) := by
  simp [writeFrom, writeTaggedAs, refused]

/-! ## Tags -/

/-- The tags of an observation, as the set they are meant to be: blanks around them do not count. -/
def tagsMeant (tags : List String) : Finset String := (tags.map trim).toFinset.erase ""

/-- Joined with commas and stored on a new value, tags stay what they were exactly when none of them
contains a comma. -/
theorem tagSet_stored_iff (tags : List String) :
    tagSet (unionTags "" (joinTags tags)) = tagsMeant tags ↔ ∀ tag ∈ tags, ',' ∉ tag.toList := by
  rw [tagSet_unionTags, tagSet_empty, Finset.empty_union]
  constructor
  · intro same tag member comma
    have kept : ',' ∈ (trim tag).toList := by
      rw [trim, String.toList_ofList]
      exact mem_trimWhere comma (by decide)
    have meant : trim tag ∈ tagsMeant tags := by
      refine Finset.mem_erase.mpr ⟨fun none_ => ?_, List.mem_toFinset.mpr (List.mem_map_of_mem member)⟩
      simp [none_] at kept
    rw [← same, tagSet, List.mem_toFinset] at meant
    exact (cleanTag_of_mem_splitTags meant).noComma kept
  · intro free
    cases tags with
    | nil => decide
    | cons tag rest =>
        have solid : ∀ p ∈ (tag :: rest).map String.toList, ',' ∉ p := by
          intro p member
          obtain ⟨t, inside, rfl⟩ := List.mem_map.mp member
          exact free t inside
        have split : splitOnChar ',' (joinTags (tag :: rest)) = tag :: rest := by
          simp only [joinTags, joinWith, splitOnChar, String.toList_ofList]
          rw [List.splitOn_intercalate ',' solid (by simp)]
          simp [Function.comp_def]
        ext t
        simp only [tagSet, splitTags, split, tagsMeant, List.mem_toFinset, List.mem_filter, Finset.mem_erase,
          decide_eq_true_eq]
        exact and_comm

/-! ## Times -/

theorem instant_min {f l : Int} {first last : DateTime} (from_ : DateTime.fromTimestamp f = some first)
    (to_ : DateTime.fromTimestamp l = some last) : DateTime.fromTimestamp (min f l) = some (min first last) := by
  have starts := DateTime.fromTimestamp_nanos from_
  have ends := DateTime.fromTimestamp_nanos to_
  rcases le_total f l with le | le
  · have ordered : first ≤ last := by
      rw [DateTime.le_iff, starts, ends, nanosPerSecond]
      omega
    rw [min_eq_left le, min_eq_left ordered, from_]
  · have ordered : last ≤ first := by
      rw [DateTime.le_iff, starts, ends, nanosPerSecond]
      omega
    rw [min_eq_right le, min_eq_right ordered, to_]

theorem instant_max {f l : Int} {first last : DateTime} (from_ : DateTime.fromTimestamp f = some first)
    (to_ : DateTime.fromTimestamp l = some last) : DateTime.fromTimestamp (max f l) = some (max first last) := by
  have starts := DateTime.fromTimestamp_nanos from_
  have ends := DateTime.fromTimestamp_nanos to_
  rcases le_total f l with le | le
  · have ordered : first ≤ last := by
      rw [DateTime.le_iff, starts, ends, nanosPerSecond]
      omega
    rw [max_eq_right le, max_eq_right ordered, to_]
  · have ordered : last ≤ first := by
      rw [DateTime.le_iff, starts, ends, nanosPerSecond]
      omega
    rw [max_eq_left le, max_eq_left ordered, from_]

theorem instant_inj {f l : Int} {instant : DateTime} (from_ : DateTime.fromTimestamp f = some instant)
    (to_ : DateTime.fromTimestamp l = some instant) : f = l := by
  rw [← DateTime.timestamp_fromTimestamp from_, ← DateTime.timestamp_fromTimestamp to_]

/-- Every write after the first is made at the one end of the window. -/
theorem foldl_times {op : DateTime → DateTime → DateTime} {ending : DateTime}
    (settles : ∀ t, op (op t ending) ending = op t ending) (left : Nat) (t : DateTime) :
    (times clock (some ending) 1 left).foldl op t = if left = 0 then t else op t ending := by
  have all : times clock (some ending) 1 left = List.replicate left ending := by
    simp [times, List.map_const']
  rw [all]
  induction left with
  | zero => rfl
  | succ left ih =>
      rw [List.replicate_succ', List.foldl_append, ih (by simp [times, List.map_const'])]
      cases left with
      | zero => rfl
      | succ left => simp [settles]

/-! ## Faithfulness -/

/-- The timestamps an observation comes with. -/
def given (s : Stix.Sighting) : List Int := s.timestamp.toList ++ s.lastTimestamp.toList

/-- What is stored says what was observed. -/
structure Faithful (s : Stix.Sighting) (a : Attribute) : Prop where
  count : a.count = max 1 s.count
  firstSeen : ∀ t, (given s).min? = some t → DateTime.fromTimestamp t = some a.firstSeen
  lastSeen : ∀ t, (given s).max? = some t → DateTime.fromTimestamp t = some a.lastSeen
  tags : tagSet a.tags = tagsMeant s.tags

/-- Both ends of the window are written: they are one, or there are two sightings to write them with;
and an end without a start is now. -/
def Bracketed (s : Stix.Sighting) (now : DateTime) : Prop :=
  match s.timestamp, s.lastTimestamp with
  | some first, some last => first = last ∨ 2 ≤ s.count
  | none, some last => DateTime.fromTimestamp last = some now
  | _, none => True

theorem edge_some {seconds : Int} {absent found : Option DateTime} (ok : edge (some seconds) absent = .ok found) :
    ∃ instant, DateTime.fromTimestamp seconds = some instant ∧ found = some instant := by
  simp only [edge, timestampToInstant] at ok
  cases known : DateTime.fromTimestamp seconds with
  | none =>
      rw [known] at ok
      cases ok
  | some instant =>
      rw [known] at ok
      exact ⟨instant, rfl, (Except.ok.inj ok).symm⟩

theorem min_settles (ending t : DateTime) : min (min t ending) ending = min t ending := by
  rw [min_assoc, min_self]

theorem max_settles (ending t : DateTime) : max (max t ending) ending = max t ending := by
  rw [max_assoc, max_self]

/-- Where a window has two ends, its start is the lesser and its end the greater of what is written
exactly when the second is written too, or they are one. -/
theorem ends_iff {left : Nat} {start ending : DateTime} :
    (if left = 0 then start else min start ending) = min start ending ∧
      (if left = 0 then start else max start ending) = max start ending ↔ left ≠ 0 ∨ start = ending := by
  by_cases single : left = 0
  · simp only [single, if_true, ne_eq, not_true_eq_false, false_or]
    constructor
    · rintro ⟨low, high⟩
      exact le_antisymm (min_eq_left_iff.mp low.symm) (max_eq_left_iff.mp high.symm)
    · rintro rfl
      simp
  · simp [single]

/-- The window that the loop leaves is the one given exactly when both of its ends are written. -/
theorem window_iff {first last : Option DateTime} {left : Nat} (counts : max s.count 1 = left + 1)
    (starts : edge s.timestamp none = .ok first) (ends : edge s.lastTimestamp first = .ok last)
    (firstSeen : a.firstSeen = (times clock last 1 left).foldl min (first.getD (clock 0)))
    (lastSeen : a.lastSeen = (times clock last 1 left).foldl max (first.getD (clock 0))) :
    ((∀ t, (given s).min? = some t → DateTime.fromTimestamp t = some a.firstSeen) ∧
      ∀ t, (given s).max? = some t → DateTime.fromTimestamp t = some a.lastSeen) ↔ Bracketed s (clock 0) := by
  cases start : s.timestamp with
  | none =>
      rw [start] at starts
      obtain rfl : none = first := Except.ok.inj starts
      cases ending : s.lastTimestamp with
      | none => simp [given, Bracketed, start, ending]
      | some l =>
          rw [ending] at ends
          obtain ⟨until_, reads, rfl⟩ := edge_some ends
          simp only [given, Bracketed, start, ending, Option.toList_none, Option.toList_some, List.nil_append, reads]
          rw [firstSeen, lastSeen, foldl_times (min_settles until_), foldl_times (max_settles until_)]
          simp only [Option.getD_none, List.min?_singleton, List.max?_singleton, Option.some.injEq, forall_eq', reads]
          constructor
          · rintro ⟨low, high⟩
            split_ifs at low high with single
            · exact low
            · rw [eq_comm, min_eq_right_iff] at low
              rw [eq_comm, max_eq_right_iff] at high
              exact le_antisymm low high
          · rintro rfl
            simp
  | some f =>
      rw [start] at starts
      obtain ⟨from_, readsFirst, rfl⟩ := edge_some starts
      cases ending : s.lastTimestamp with
      | none =>
          rw [ending] at ends
          obtain rfl : some from_ = last := Except.ok.inj ends
          simp only [given, Bracketed, start, ending, Option.toList_none, Option.toList_some, List.append_nil]
          rw [firstSeen, lastSeen, foldl_times (min_settles from_), foldl_times (max_settles from_)]
          simp [readsFirst]
      | some l =>
          rw [ending] at ends
          obtain ⟨until_, readsLast, rfl⟩ := edge_some ends
          simp only [given, Bracketed, start, ending, Option.toList_some]
          rw [firstSeen, lastSeen, foldl_times (min_settles until_), foldl_times (max_settles until_)]
          have low : [f, l].min? = some (min f l) := rfl
          have high : [f, l].max? = some (max f l) := rfl
          simp only [List.singleton_append, low, high, Option.getD_some, Option.some.injEq, forall_eq',
            instant_min readsFirst readsLast, instant_max readsFirst readsLast]
          rw [eq_comm, @eq_comm _ (max from_ until_), ends_iff, or_comm]
          have one : from_ = until_ ↔ f = l := by
            constructor
            · rintro rfl
              exact instant_inj readsFirst readsLast
            · rintro rfl
              exact Option.some.inj (readsFirst.symm.trans readsLast)
          rw [one]
          exact or_congr_right (by omega)

theorem faithful_iff {left : Nat} {first last : Option DateTime} (counts : max s.count 1 = left + 1)
    (fits : s.count < u64Size) (starts : edge s.timestamp none = .ok first) (ends : edge s.lastTimestamp first = .ok last)
    (seen : Seen node (first.getD (clock 0)) (times clock last 1 left) (unionTags "" (joinTags s.tags)) a) :
    Faithful s a ↔ Bracketed s (clock 0) ∧ ∀ tag ∈ s.tags, ',' ∉ tag.toList := by
  have number : (times clock last 1 left).length = left := by simp [times]
  have total : a.count = max 1 s.count := by
    have small : left + 1 < u64Size := by
      rw [← counts]
      exact max_lt fits (by decide)
    rw [seen.count (by rw [number]; exact small), number, ← counts, max_comm]
  rw [← window_iff counts starts ends seen.firstSeen seen.lastSeen, ← tagSet_stored_iff, ← seen.tags]
  constructor
  · exact fun faithful => ⟨⟨faithful.firstSeen, faithful.lastSeen⟩, faithful.tags⟩
  · rintro ⟨⟨firstSeen, lastSeen⟩, tags⟩
    exact ⟨total, firstSeen, lastSeen, tags⟩

/-- An observation that cannot be written down leaves the database alone. One of a value that was not
there is written down faithfully exactly when both ends of its window get a sighting and none of its
tags contains a comma. -/
theorem recorded_faithfully (names : ShardFiles) (dir : Dir) (db : Database) (clock : Nat → DateTime) (ttl : Nat)
    (s : Stix.Sighting) (ready : Ready names dir s.namespace_ db) (fits : s.count < 2 ^ 64)
    (absent : heldCell names dir db s.namespace_ s.value = none) :
    (∀ e, (record db (fun i => .sound names dir (clock i)) ttl s).2 = .error e →
      (record db (fun i => .sound names dir (clock i)) ttl s).1 = db) ∧
    ((record db (fun i => .sound names dir (clock i)) ttl s).2 = .ok () →
      ((∃ a, heldCell names dir (record db (fun i => .sound names dir (clock i)) ttl s).1 s.namespace_ s.value = some a ∧
          Faithful s a) ↔
        Bracketed s (clock 0) ∧ ∀ tag ∈ s.tags, ',' ∉ tag.toList)) := by
  obtain ⟨left, counts⟩ : ∃ left, max s.count 1 = left + 1 := ⟨max s.count 1 - 1, by omega⟩
  cases starts : edge s.timestamp none with
  | error e => exact ⟨fun _ _ => by simp only [record, starts], fun ok => by simp [record, starts] at ok⟩
  | ok first =>
      cases ends : edge s.lastTimestamp first with
      | error e => exact ⟨fun _ _ => by simp only [record, starts, ends], fun ok => by simp [record, starts, ends] at ok⟩
      | ok last =>
          simp only [record, starts, ends, counts]
          cases passes : check db s.namespace_ s.value with
          | error e =>
              rw [writeFrom_refused _ passes]
              exact ⟨fun _ _ => rfl, fun ok => by cases ok⟩
          | ok _ =>
              have small : left + 1 < u64Size := by
                rw [← counts]
                exact max_lt fits (by decide)
              obtain ⟨done, a, found, seen⟩ := writeFrom_start clock (if 0 < ttl then some ttl else none) first last left
                ready passes absent small (joinTags s.tags)
              refine ⟨fun e failed => ?_, fun _ => ?_⟩
              · rw [done] at failed
                cases failed
              · rw [found]
                simp only [Option.some.injEq, exists_eq_left']
                exact faithful_iff counts fits starts ends seen

/-- A server with nothing in it. -/
def blank : Database := .withNode ⟨0, 0⟩ .storeEverything "n"

theorem ready_blank (name : String) : Ready .sample ⟨none, ∅⟩ name blank :=
  .inl fun shard meta_ found => by simp [blank, Database.withNode] at found

/-- Twice between two instants, the later given first. -/
def twice : Stix.Sighting := ⟨"feeds/ips", "192.0.2.1", some 200, some 100, 2, ["tlp:green"]⟩

theorem recorded_faithfully_twice : ∃ a, heldCell .sample ⟨none, ∅⟩
    (record blank (fun _ => .sound .sample ⟨none, ∅⟩ .unixEpoch) 0 twice).1 "feeds/ips" "192.0.2.1" = some a ∧ Faithful twice a :=
  ((recorded_faithfully .sample ⟨none, ∅⟩ blank (fun _ => .unixEpoch) 0 twice (ready_blank _) (by decide) (by decide)).2
    (by decide)).mpr ⟨.inr (by decide), by decide⟩

/-- Once between two instants: as a bundle says it whose sighting has no count. -/
def once : Stix.Sighting := ⟨"feeds/ips", "192.0.2.1", some 100, some 200, 1, []⟩

/-- The end of the window is lost. -/
theorem once_collapses : (record blank (fun _ => .sound .sample ⟨none, ∅⟩ .unixEpoch) 0 once).2 = .ok () ∧
    heldCell .sample ⟨none, ∅⟩ blank "feeds/ips" "192.0.2.1" = none ∧
    ¬ ∃ a, heldCell .sample ⟨none, ∅⟩ (record blank (fun _ => .sound .sample ⟨none, ∅⟩ .unixEpoch) 0 once).1
      "feeds/ips" "192.0.2.1" = some a ∧ Faithful once a := by
  refine ⟨by decide, by decide, ?_⟩
  rintro ⟨a, found, faithful⟩
  have kept : ((heldCell .sample ⟨none, ∅⟩ (record blank (fun _ => .sound .sample ⟨none, ∅⟩ .unixEpoch) 0 once).1
      "feeds/ips" "192.0.2.1").map fun a => a.lastSeen.timestamp) = some 100 := by decide
  rw [found, Option.map_some, Option.some.injEq] at kept
  have late := DateTime.timestamp_fromTimestamp (faithful.lastSeen 200 rfl)
  omega

end Recording

end SightingDB
