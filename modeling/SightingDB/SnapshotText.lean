import SightingDB.Snapshot
import SightingDB.Lib.JsonText

/-!
Snapshots and offers as JSON text, whoever writes and reads the text. The order in which a hash map is written is not settled,
and nothing that is read depends on it; totals of older builds are read and never written.
-/
namespace SightingDB

/-- What fits the integers of the source. -/
structure Attribute.Storable (a : Attribute) : Prop where
  counts : ∀ node n, a.counts.get node = some n → n < u64Size
  tagsAt : -2 ^ 63 ≤ a.tagsAt ∧ a.tagsAt < 2 ^ 63
  ttl : a.ttl < u64Size
  stats : ∀ node buckets, a.stats.get node = some buckets → ∀ hour n, buckets.get hour = some n →
    (-2 ^ 63 ≤ hour ∧ hour < 2 ^ 63) ∧ n < u64Size

structure Merge.Storable (m : Merge) : Prop where
  counts : ∀ node n, m.counts.get node = some n → n < u64Size
  stats : ∀ node buckets, m.stats.get node = some buckets → ∀ hour n, buckets.get hour = some n →
    (-2 ^ 63 ≤ hour ∧ hour < 2 ^ 63) ∧ n < u64Size
  firstSeen : -2 ^ 63 ≤ m.firstSeen ∧ m.firstSeen < 2 ^ 63
  lastSeen : -2 ^ 63 ≤ m.lastSeen ∧ m.lastSeen < 2 ^ 63
  tagsAt : -2 ^ 63 ≤ m.tagsAt ∧ m.tagsAt < 2 ^ 63
  ttl : m.ttl < u64Size

theorem Attribute.Storable.stored {a : Attribute} (fits : a.Storable) : a.stored.Storable := ⟨fits.counts, fits.tagsAt, fits.ttl, fits.stats⟩

namespace Serde

/-! ## Writing -/

variable {κ ν : Type} [LinearOrder κ]

/-- A map in the order of its keys. -/
def mapJson (key : κ → String) (value : ν → Json) (m : OrderedMap κ ν) : Json :=
  .obj (m.entries.map fun e => (key e.1, value e.2))

def natJson (n : Nat) : Json := .int n

/-- `i64` as the key of an object. -/
def hourKey (hour : Int) : String := toString hour

def countsJson (counts : Counts) : Json := mapJson id natJson counts

def statsJson (stats : OrderedMap String Buckets) : Json := mapJson id (mapJson hourKey natJson) stats

def attributeFields (a : Attribute) : List (String × Json) :=
  [("value", .str a.value), ("first_seen", .int a.firstSeen.timestamp), ("last_seen", .int a.lastSeen.timestamp),
    ("counts", countsJson a.counts), ("tags", .str a.tags), ("tags_at", .int a.tagsAt), ("ttl", natJson a.ttl),
    ("node_stats", statsJson a.stats)]

def attributeJson (a : Attribute) : Json := .obj (attributeFields a)

/-- Namespaces and their values as hash maps happen to be walked. -/
abbrev Walk := List (String × List (String × Attribute))

def walkJson (walk : Walk) : Json :=
  .obj (walk.map fun e => (e.1, .obj (e.2.map fun v => (v.1, attributeJson v.2))))

def snapshotJson (version : Nat) (walk : Walk) : Json := .obj [("version", natJson version), ("namespaces", walkJson walk)]

/-- A walk of some namespaces comes by each once, and by each of their values once. -/
def Walks (stored : Stored) (walk : Walk) : Prop :=
  ∃ order : List (String × OrderedMap String Attribute), order.Perm stored.entries ∧
    List.Forall₂ (fun e w => w.1 = e.1 ∧ w.2.Perm e.2.entries) order walk

def mergeFields (m : Merge) : List (String × Json) :=
  [("counts", countsJson m.counts), ("stats", statsJson m.stats), ("first_seen", .int m.firstSeen),
    ("last_seen", .int m.lastSeen), ("tags", .str m.tags), ("tags_at", .int m.tagsAt), ("ttl", natJson m.ttl)]

/-- `MergeOffer`. -/
def offerJson (name : String) (offer : String × Merge) : Json :=
  .obj (("namespace", .str name) :: ("value", .str offer.1) :: mergeFields offer.2)

/-- `MergePage`, as a read for merging answers it. -/
def pageJson (name : String) (offers : List (String × Merge)) (total offset : Nat) : Json :=
  .obj [("namespace", .str name), ("items", .arr (offers.map (offerJson name))), ("total", natJson total), ("offset", natJson offset)]

/-! ## Reading -/

/-- A field of a structure, which may be there once. -/
def field (fields : List (String × Json)) (name : String) : Option (Option Json) :=
  match fields.filter (·.1 = name) with
  | [] => some none
  | [f] => some (some f.2)
  | _ => none

def required {α : Type} (read : Json → Option α) (fields : List (String × Json)) (name : String) : Option α :=
  (field fields name).bind fun value => value.bind read

/-- `#[serde(default)]`. -/
def withDefault {α : Type} (blank : α) (read : Json → Option α) (fields : List (String × Json)) (name : String) : Option α :=
  (field fields name).bind fun value => value.elim (some blank) read

def asI64 : Json → Option Int
  | .int n => if -2 ^ 63 ≤ n ∧ n < 2 ^ 63 then some n else none
  | _ => none

def asU32 (json : Json) : Option Nat := json.asU64.bind fun n => if n < 2 ^ 32 then some n else none

/-- `ts_seconds`. -/
def asSeconds (json : Json) : Option DateTime := (asI64 json).bind DateTime.fromTimestamp

/-- A map, in which the last of several entries with one key counts. -/
def asMap (key : String → Option κ) (value : Json → Option ν) : Json → Option (OrderedMap κ ν)
  | .obj fields => fields.foldlM (fun m f => (key f.1).bind fun k => (value f.2).map fun v => m.insert k v) ∅
  | _ => none

def asCounts : Json → Option Counts := asMap some Json.asU64

section Reading

variable (codec : JsonCodec)

def asBuckets : Json → Option Buckets := asMap codec.key Json.asU64

def asStats : Json → Option (OrderedMap String Buckets) := asMap some (asBuckets codec)

/-- What else is in an object is passed over. -/
def asAttribute : Json → Option Attribute
  | .obj fields => do
      let value ← required Json.asStr fields "value"
      let firstSeen ← required asSeconds fields "first_seen"
      let lastSeen ← required asSeconds fields "last_seen"
      let counts ← withDefault ∅ asCounts fields "counts"
      let tags ← required Json.asStr fields "tags"
      let tagsAt ← withDefault 0 asI64 fields "tags_at"
      let ttl ← required Json.asU64 fields "ttl"
      let stats ← withDefault ∅ (asStats codec) fields "node_stats"
      let legacyCount ← withDefault 0 Json.asU64 fields "count"
      let legacyStats ← withDefault ∅ (asBuckets codec) fields "stats"
      some { value, firstSeen, lastSeen, counts, tags, tagsAt, ttl, stats, legacyCount, legacyStats }
  | _ => none

def asSnapshot : Json → Option Snapshot
  | .obj fields => do
      let version ← required asU32 fields "version"
      let namespaces ← required (asMap some (asMap some (asAttribute codec))) fields "namespaces"
      some { version, namespaces }
  | _ => none

/-- The fields of `Merge`, spelled out in what carries one. -/
def asState (fields : List (String × Json)) : Option Merge := do
  let counts ← required asCounts fields "counts"
  let stats ← withDefault ∅ (asStats codec) fields "stats"
  let firstSeen ← required asI64 fields "first_seen"
  let lastSeen ← required asI64 fields "last_seen"
  let tags ← withDefault "" Json.asStr fields "tags"
  let tagsAt ← withDefault 0 asI64 fields "tags_at"
  let ttl ← withDefault 0 Json.asU64 fields "ttl"
  some { counts, stats, firstSeen, lastSeen, tags, tagsAt, ttl }

/-- `MergeOfferItem`. -/
def asOffer : Json → Option (String × Merge)
  | .obj fields => do
      let value ← required Json.asStr fields "value"
      let state ← asState codec fields
      some (value, state)
  | _ => none

/-- `MergeItem`. -/
def asMergeItem : Json → Option (String × String × Merge)
  | .obj fields => do
      let name ← required Json.asStr fields "namespace"
      let value ← required Json.asStr fields "value"
      let state ← asState codec fields
      some (name, value, state)
  | _ => none

def asList {α : Type} (read : Json → Option α) (json : Json) : Option (List α) := json.asArray.bind (·.mapM read)

/-- `MergeOfferPage`. -/
def asOfferPage : Json → Option (List (String × Merge) × Nat)
  | .obj fields => do
      let items ← required (asList (asOffer codec)) fields "items"
      let total ← required Json.asU64 fields "total"
      some (items, total)
  | _ => none

/-- `MergeRequest`. -/
def asMergeRequest : Json → Option (List (String × String × Merge))
  | .obj fields => required (asList (asMergeItem codec)) fields "items"
  | _ => none

end Reading

/-! ## Maps -/

variable {ω : Type} {key : String → Option κ} {value : Json → Option ν} {show_ : κ → String} {write : ω → Json} {back : ω → ν}
  {l : List (κ × ω)} {m : OrderedMap κ ν}

theorem asMap_entries (keys : ∀ e ∈ l, key (show_ e.1) = some e.1) (values : ∀ e ∈ l, value (write e.2) = some (back e.2))
    (m : OrderedMap κ ν) :
    (l.map fun e => (show_ e.1, write e.2)).foldlM (fun m f => (key f.1).bind fun k => (value f.2).map fun v => m.insert k v) m =
      some ((l.map fun e => (e.1, back e.2)).foldl (fun m e => m.insert e.1 e.2) m) := by
  induction l generalizing m with
  | nil => rfl
  | cons e rest ih =>
      rw [List.map_cons, List.foldlM_cons, keys e List.mem_cons_self, values e List.mem_cons_self]
      exact ih (fun e' member => keys e' (List.mem_cons_of_mem _ member)) (fun e' member => values e' (List.mem_cons_of_mem _ member)) _

theorem lookup_of_nodup {l : List (κ × ν)} (apart : (l.map Prod.fst).Nodup) {k : κ} {v : ν} (member : (k, v) ∈ l) :
    OrderedMap.lookup k l = some v := by
  induction l with
  | nil => cases member
  | cons e rest ih =>
      obtain ⟨fresh, apart⟩ := List.nodup_cons.mp apart
      rcases List.mem_cons.mp member with rfl | later
      · exact if_pos rfl
      · have other : k ≠ e.1 := by
          rintro rfl
          exact fresh (List.mem_map.mpr ⟨_, later, rfl⟩)
        exact (if_neg other).trans (ih apart later)

/-- Entries in any order make the map they are of. -/
theorem foldl_insert_perm {l : List (κ × ν)} {m : OrderedMap κ ν} (walk : l.Perm m.entries) :
    l.foldl (fun m e => m.insert e.1 e.2) (∅ : OrderedMap κ ν) = m := by
  have apart : (l.map Prod.fst).Nodup := (walk.map Prod.fst).nodup_iff.mpr m.keys_nodup
  refine OrderedMap.ext_get fun k => ?_
  rw [OrderedMap.get_foldl_insert (fun _ _ v => v) l apart ∅ k]
  cases found : m.get k with
  | some v => rw [lookup_of_nodup apart (walk.mem_iff.mpr (OrderedMap.mem_entries.mpr found)), Option.elim_some]
  | none =>
      cases there : OrderedMap.lookup k l with
      | none => rfl
      | some v =>
          have held := OrderedMap.mem_entries.mp (walk.mem_iff.mp (OrderedMap.mem_of_lookup there))
          rw [found] at held
          cases held

variable (show_ write back) in
/-- A map that is written in any order is read back. -/
theorem asMap_walk (walk : (l.map fun e => (e.1, back e.2)).Perm m.entries) (keys : ∀ e ∈ l, key (show_ e.1) = some e.1)
    (values : ∀ e ∈ l, value (write e.2) = some (back e.2)) :
    asMap key value (.obj (l.map fun e => (show_ e.1, write e.2))) = some m :=
  (asMap_entries keys values ∅).trans (congrArg some (foldl_insert_perm walk))

theorem asMap_mapJson {write : ν → Json} (keys : ∀ k v, m.get k = some v → key (show_ k) = some k)
    (values : ∀ k v, m.get k = some v → value (write v) = some v) : asMap key value (mapJson show_ write m) = some m := by
  refine asMap_walk show_ write id ?_ (fun e member => keys e.1 e.2 (OrderedMap.mem_entries.mp member))
    fun e member => values e.1 e.2 (OrderedMap.mem_entries.mp member)
  exact List.Perm.of_eq (List.map_id _)

/-! ## Values and namespaces -/

variable {codec : JsonCodec}

theorem asI64_int {n : Int} (fits : -2 ^ 63 ≤ n ∧ n < 2 ^ 63) : asI64 (.int n) = some n := if_pos fits

theorem asCounts_countsJson {counts : Counts} (fits : ∀ node n, counts.get node = some n → n < u64Size) :
    asCounts (countsJson counts) = some counts :=
  asMap_mapJson (fun _ _ _ => rfl) fun node n found => Json.asU64_int (fits node n found)

theorem asStats_statsJson {stats : OrderedMap String Buckets}
    (fits : ∀ node buckets, stats.get node = some buckets → ∀ hour n, buckets.get hour = some n →
      (-2 ^ 63 ≤ hour ∧ hour < 2 ^ 63) ∧ n < u64Size) : asStats codec (statsJson stats) = some stats :=
  asMap_mapJson (fun _ _ _ => rfl) fun node buckets found => asMap_mapJson
    (fun hour n held => codec.key_toString hour (fits node buckets found hour n held).1.1 (fits node buckets found hour n held).1.2)
    fun hour n held => Json.asU64_int (fits node buckets found hour n held).2

theorem asSeconds_timestamp (d : DateTime) : asSeconds (.int d.timestamp) = some d.truncate := by
  have lower := d.lower
  have upper := d.upper
  have fits : -2 ^ 63 ≤ d.timestamp ∧ d.timestamp < 2 ^ 63 := by
    simp only [DateTime.timestamp, nanosPerSecond, minTimestamp, maxTimestamp] at *
    omega
  rw [asSeconds, asI64_int fits, Option.bind_some, DateTime.fromTimestamp_timestamp]

theorem required_field {α : Type} {read : Json → Option α} {fields : List (String × Json)} {name : String} {j : Json}
    (found : field fields name = some (some j)) : required read fields name = read j := by
  rw [required, found]
  rfl

theorem withDefault_field {α : Type} {blank : α} {read : Json → Option α} {fields : List (String × Json)} {name : String} {j : Json}
    (found : field fields name = some (some j)) : withDefault blank read fields name = read j := by
  rw [withDefault, found]
  rfl

/-- A value is read back as a file keeps it. -/
theorem asAttribute_attributeJson {a : Attribute} (fits : a.Storable) : asAttribute codec (attributeJson a) = some a.stored := by
  have value : required Json.asStr (attributeFields a) "value" = some a.value := rfl
  have firstSeen : required asSeconds (attributeFields a) "first_seen" = some a.firstSeen.truncate := (required_field rfl).trans (asSeconds_timestamp a.firstSeen)
  have lastSeen : required asSeconds (attributeFields a) "last_seen" = some a.lastSeen.truncate := (required_field rfl).trans (asSeconds_timestamp a.lastSeen)
  have counts : withDefault ∅ asCounts (attributeFields a) "counts" = some a.counts := (withDefault_field rfl).trans (asCounts_countsJson fits.counts)
  have tags : required Json.asStr (attributeFields a) "tags" = some a.tags := rfl
  have tagsAt : withDefault 0 asI64 (attributeFields a) "tags_at" = some a.tagsAt := (withDefault_field rfl).trans (asI64_int fits.tagsAt)
  have ttl : required Json.asU64 (attributeFields a) "ttl" = some a.ttl := (required_field rfl).trans (Json.asU64_int fits.ttl)
  have stats : withDefault ∅ (asStats codec) (attributeFields a) "node_stats" = some a.stats := (withDefault_field rfl).trans (asStats_statsJson fits.stats)
  have legacyCount : withDefault 0 Json.asU64 (attributeFields a) "count" = some 0 := rfl
  have legacyStats : withDefault ∅ (asBuckets codec) (attributeFields a) "stats" = some ∅ := rfl
  simp only [asAttribute, attributeJson, value, firstSeen, lastSeen, counts, tags, tagsAt, ttl, stats, legacyCount, legacyStats,
    Option.bind_eq_bind, Option.bind_some]
  rfl

theorem asState_offer (name value : String) {m : Merge} (fits : m.Storable) :
    asState codec (("namespace", .str name) :: ("value", .str value) :: mergeFields m) = some m := by
  let fields := ("namespace", Json.str name) :: ("value", Json.str value) :: mergeFields m
  have counts : required asCounts fields "counts" = some m.counts := (required_field rfl).trans (asCounts_countsJson fits.counts)
  have stats : withDefault ∅ (asStats codec) fields "stats" = some m.stats := (withDefault_field rfl).trans (asStats_statsJson fits.stats)
  have firstSeen : required asI64 fields "first_seen" = some m.firstSeen := (required_field rfl).trans (asI64_int fits.firstSeen)
  have lastSeen : required asI64 fields "last_seen" = some m.lastSeen := (required_field rfl).trans (asI64_int fits.lastSeen)
  have tags : withDefault "" Json.asStr fields "tags" = some m.tags := rfl
  have tagsAt : withDefault 0 asI64 fields "tags_at" = some m.tagsAt := (withDefault_field rfl).trans (asI64_int fits.tagsAt)
  have ttl : withDefault 0 Json.asU64 fields "ttl" = some m.ttl := (withDefault_field rfl).trans (Json.asU64_int fits.ttl)
  change asState codec fields = _
  simp only [asState, counts, stats, firstSeen, lastSeen, tags, tagsAt, ttl, Option.bind_eq_bind, Option.bind_some]

/-- Every value of some namespaces fits. -/
def StoredFits (stored : Stored) : Prop := ∀ name vals, stored.get name = some vals → ∀ value a, vals.get value = some a → a.Storable

/-- Namespaces as a file keeps them. -/
def kept (stored : Stored) : Stored := stored.mapValues fun _ vals => vals.mapValues fun _ a => a.stored

/-- A namespace that is written in any order is read back. -/
theorem asNamespace_walk {vals : OrderedMap String Attribute} (fits : ∀ value a, vals.get value = some a → a.Storable)
    {l : List (String × Attribute)} (walk : l.Perm vals.entries) :
    asMap some (asAttribute codec) (.obj (l.map fun v => (v.1, attributeJson v.2))) = some (vals.mapValues fun _ a => a.stored) := by
  refine asMap_walk id attributeJson Attribute.stored ?_ (fun _ _ => rfl) fun v member =>
    asAttribute_attributeJson (fits v.1 v.2 (OrderedMap.mem_entries.mp (walk.mem_iff.mp member)))
  have same : (vals.mapValues fun _ a => a.stored).entries = vals.entries.map fun v => (v.1, v.2.stored) := rfl
  rw [same]
  exact walk.map _

/-- What the values of a namespace are read back as. -/
def readValues (l : List (String × Attribute)) : OrderedMap String Attribute :=
  (l.map fun v => (v.1, v.2.stored)).foldl (fun m e => m.insert e.1 e.2) ∅

theorem readValues_walk {vals : OrderedMap String Attribute} {l : List (String × Attribute)} (walk : l.Perm vals.entries) :
    readValues l = vals.mapValues fun _ a => a.stored := by
  have same : (vals.mapValues fun _ a => a.stored).entries = vals.entries.map fun v => (v.1, v.2.stored) := rfl
  exact foldl_insert_perm (same ▸ walk.map _)

theorem asMap_walkJson {stored : Stored} (fits : StoredFits stored) {walk : Walk} (walks : Walks stored walk) :
    asMap some (asMap some (asAttribute codec)) (walkJson walk) = some (kept stored) := by
  obtain ⟨order, perm, each⟩ := walks
  have entries : (kept stored).entries = stored.entries.map fun e => (e.1, e.2.mapValues fun _ a => a.stored) := rfl
  have read : ∀ (order : List (String × OrderedMap String Attribute)) (walk : Walk),
      List.Forall₂ (fun e w => w.1 = e.1 ∧ w.2.Perm e.2.entries) order walk →
      walk.map (fun e => (e.1, readValues e.2)) = order.map fun e => (e.1, e.2.mapValues fun _ a => a.stored) := by
    intro order walk each
    induction each with
    | nil => rfl
    | cons here _ ih => rw [List.map_cons, List.map_cons, ih, here.1, readValues_walk here.2]
  refine asMap_walk id (fun l : List (String × Attribute) => .obj (l.map fun v => (v.1, attributeJson v.2))) readValues ?_ (fun _ _ => rfl) fun w member => ?_
  · rw [entries, read order walk each]
    exact perm.map _
  · obtain ⟨e, there, -, values⟩ : ∃ e ∈ order, w.1 = e.1 ∧ w.2.Perm e.2.entries := by
      clear read perm
      induction each with
      | nil => cases member
      | cons here _ ih =>
          rcases List.mem_cons.mp member with rfl | later
          · exact ⟨_, List.mem_cons_self, here⟩
          · obtain ⟨e, there, found⟩ := ih later
            exact ⟨e, List.mem_cons_of_mem _ there, found⟩
    rw [readValues_walk values]
    exact asNamespace_walk (fits e.1 e.2 (OrderedMap.mem_entries.mp (perm.mem_iff.mp there))) values

/-! ## Texts -/

theorem asSnapshot_snapshotJson {stored : Stored} (fits : StoredFits stored) {version : Nat} (small : version < 2 ^ 32) {walk : Walk}
    (walks : Walks stored walk) : asSnapshot codec (snapshotJson version walk) = some ⟨version, kept stored⟩ := by
  have version_ : required asU32 [("version", natJson version), ("namespaces", walkJson walk)] "version" = some version := by
    have found : field [("version", natJson version), ("namespaces", walkJson walk)] "version" = some (some (natJson version)) := rfl
    rw [required_field found, asU32, natJson, Json.asU64_int (by omega), Option.bind_some, if_pos small]
  have namespaces : required (asMap some (asMap some (asAttribute codec))) [("version", natJson version), ("namespaces", walkJson walk)]
      "namespaces" = some (kept stored) := (required_field rfl).trans (asMap_walkJson fits walks)
  simp only [asSnapshot, snapshotJson, version_, namespaces, Option.bind_eq_bind, Option.bind_some]

open Json (Within)

theorem within_map {depth : Nat} {key : κ → String} {value : ν → Json} {m : OrderedMap κ ν} (inside : ∀ v, Within (depth + 1) (value v)) :
    Within (depth + 2) (mapJson key value m) := by
  refine .obj fun f member => ?_
  obtain ⟨e, -, rfl⟩ := List.mem_map.mp member
  exact inside e.2

theorem within_statsJson (stats : OrderedMap String Buckets) (depth : Nat) : Within (depth + 3) (statsJson stats) :=
  within_map fun _ => within_map fun _ => .int _ _

theorem within_countsJson (counts : Counts) (depth : Nat) : Within (depth + 2) (countsJson counts) := within_map fun _ => .int _ _

theorem within_attributeJson (a : Attribute) (depth : Nat) : Within (depth + 4) (attributeJson a) := by
  refine .obj fun f member => ?_
  simp only [attributeFields, List.mem_cons, List.not_mem_nil, or_false] at member
  rcases member with rfl | rfl | rfl | rfl | rfl | rfl | rfl | rfl
  · exact .str _ _
  · exact .int _ _
  · exact .int _ _
  · exact within_countsJson a.counts (depth + 1)
  · exact .str _ _
  · exact .int _ _
  · exact .int _ _
  · exact within_statsJson a.stats depth

theorem within_offerJson (name : String) (offer : String × Merge) (depth : Nat) : Within (depth + 4) (offerJson name offer) := by
  refine .obj fun f member => ?_
  simp only [mergeFields, List.mem_cons, List.not_mem_nil, or_false] at member
  rcases member with rfl | rfl | rfl | rfl | rfl | rfl | rfl | rfl | rfl
  · exact .str _ _
  · exact .str _ _
  · exact within_countsJson offer.2.counts (depth + 1)
  · exact within_statsJson offer.2.stats depth
  · exact .int _ _
  · exact .int _ _
  · exact .str _ _
  · exact .int _ _
  · exact .int _ _

theorem within_pageJson (name : String) (offers : List (String × Merge)) (total offset depth : Nat) :
    Within (depth + 6) (pageJson name offers total offset) := by
  refine .obj fun f member => ?_
  simp only [List.mem_cons, List.not_mem_nil, or_false] at member
  rcases member with rfl | rfl | rfl | rfl
  · exact .str _ _
  · refine .arr fun item there => ?_
    obtain ⟨offer, -, rfl⟩ := List.mem_map.mp there
    exact within_offerJson name offer depth
  · exact .int _ _
  · exact .int _ _

theorem within_snapshotJson (version : Nat) (walk : Walk) (depth : Nat) : Within (depth + 7) (snapshotJson version walk) := by
  refine .obj fun f member => ?_
  simp only [List.mem_cons, List.not_mem_nil, or_false] at member
  rcases member with rfl | rfl
  · exact .int _ _
  · refine .obj fun e there => ?_
    obtain ⟨w, -, rfl⟩ := List.mem_map.mp there
    refine .obj fun v here => ?_
    obtain ⟨a, -, rfl⟩ := List.mem_map.mp here
    exact within_attributeJson a.2 depth

/-- The text of a snapshot. -/
def snapshotText (codec : JsonCodec) (version : Nat) (walk : Walk) : List Char := codec.write (snapshotJson version walk)

/-- `serde_json::from_reader`. -/
def readSnapshot (codec : JsonCodec) (text : List Char) : Option Snapshot := (codec.parse text).bind (asSnapshot codec)

theorem readSnapshot_snapshotText {stored : Stored} (fits : StoredFits stored) {version : Nat} (small : version < 2 ^ 32) {walk : Walk}
    (walks : Walks stored walk) : readSnapshot codec (snapshotText codec version walk) = some ⟨version, kept stored⟩ := by
  rw [readSnapshot, snapshotText, codec.parse_write (within_snapshotJson version walk 121), Option.bind_some,
    asSnapshot_snapshotJson fits small walks]

/-- A shard that was written, its hash maps walked in any order, is read back as it was, to the second; and a file of which
the end is missing is not read as anything. -/
theorem snapshot_round_trip (codec : JsonCodec) {stored : Stored} (fits : StoredFits stored) {version : Nat} (small : version < 2 ^ 32) {walk : Walk}
    (walks : Walks stored walk) :
    readSnapshot codec (snapshotText codec version walk) = some ⟨version, kept stored⟩ ∧
      ∀ front back, snapshotText codec version walk = front ++ back → back ≠ [] → readSnapshot codec front = none := by
  refine ⟨readSnapshot_snapshotText fits small walks, fun front back split cut => ?_⟩
  rw [readSnapshot, codec.parse_cut (within_snapshotJson version walk 121) split cut, Option.bind_none]

/-- Two values, written the later one first. -/
def twoValues : Stored := (∅ : Stored).insert "a/x" (((∅ : OrderedMap String Attribute).insert "v" (.new "v")).insert "w" (.new "w"))

theorem twoValues_fits : StoredFits twoValues := by
  intro name vals found value a entry
  simp only [twoValues, OrderedMap.get_insert, OrderedMap.get_empty] at found
  split_ifs at found
  obtain rfl := Option.some.inj found
  simp only [OrderedMap.get_insert, OrderedMap.get_empty] at entry
  split_ifs at entry
  · obtain rfl := Option.some.inj entry
    exact ⟨nofun, by decide, by decide, nofun⟩
  · obtain rfl := Option.some.inj entry
    exact ⟨nofun, by decide, by decide, nofun⟩

/-- Both are read back, and without its last brace the text is not read. -/
theorem snapshot_round_trip_twoValues :
    let text := snapshotText JsonText.codec 2 [("a/x", [("w", .new "w"), ("v", .new "v")])]
    readSnapshot JsonText.codec text = some ⟨2, kept twoValues⟩ ∧ readSnapshot JsonText.codec text.dropLast = none := by
  have walks : Walks twoValues [("a/x", [("w", .new "w"), ("v", .new "v")])] :=
    ⟨twoValues.entries, .refl _, .cons ⟨rfl, List.Perm.swap ..⟩ .nil⟩
  obtain ⟨read, cut⟩ := snapshot_round_trip JsonText.codec twoValues_fits (by decide : 2 < 2 ^ 32) walks
  have some_ : snapshotText JsonText.codec 2 [("a/x", [("w", .new "w"), ("v", .new "v")])] ≠ [] := nofun
  exact ⟨read, cut _ _ (List.dropLast_append_getLast some_).symm nofun⟩

theorem mapM_offers {α : Type} {read : Json → Option α} {name : String} (back : String × Merge → α) {offers : List (String × Merge)}
    (reads : ∀ offer ∈ offers, read (offerJson name offer) = some (back offer)) :
    asList read (.arr (offers.map (offerJson name))) = some (offers.map back) := by
  rw [asList, Json.asArray_arr, Option.bind_some]
  induction offers with
  | nil => rfl
  | cons offer rest ih =>
      rw [List.map_cons, List.mapM_cons, reads offer List.mem_cons_self, ih fun other member => reads other (List.mem_cons_of_mem _ member)]
      rfl

/-- A page of offers is taken as it was made, whether a server reads it from a peer or it is posted to one unchanged. -/
theorem offers_round_trip (codec : JsonCodec) (name : String) {offers : List (String × Merge)} (fits : ∀ offer ∈ offers, offer.2.Storable) {total : Nat}
    (small : total < u64Size) (offset : Nat) :
    (codec.parse (codec.write (pageJson name offers total offset))).bind (asOfferPage codec) = some (offers, total) ∧
      (codec.parse (codec.write (pageJson name offers total offset))).bind (asMergeRequest codec) =
        some (offers.map fun offer => (name, offer.1, offer.2)) := by
  let fields := [("namespace", Json.str name), ("items", .arr (offers.map (offerJson name))), ("total", natJson total), ("offset", natJson offset)]
  rw [codec.parse_write (within_pageJson name offers total offset 122), Option.bind_some, Option.bind_some]
  have read : ∀ offer ∈ offers, asOffer codec (offerJson name offer) = some offer := by
    intro offer member
    have value : required Json.asStr (("namespace", .str name) :: ("value", .str offer.1) :: mergeFields offer.2) "value" =
      some offer.1 := rfl
    simp only [asOffer, offerJson, value, asState_offer name offer.1 (fits offer member), Option.bind_eq_bind, Option.bind_some]
  have item : ∀ offer ∈ offers, asMergeItem codec (offerJson name offer) = some (name, offer.1, offer.2) := by
    intro offer member
    have name_ : required Json.asStr (("namespace", .str name) :: ("value", .str offer.1) :: mergeFields offer.2) "namespace" =
      some name := rfl
    have value : required Json.asStr (("namespace", .str name) :: ("value", .str offer.1) :: mergeFields offer.2) "value" =
      some offer.1 := rfl
    simp only [asMergeItem, offerJson, name_, value, asState_offer name offer.1 (fits offer member), Option.bind_eq_bind, Option.bind_some]
  constructor
  · have items : required (asList (asOffer codec)) fields "items" = some offers := by
      rw [required_field (j := .arr (offers.map (offerJson name))) rfl, mapM_offers id read, List.map_id]
    have total_ : required Json.asU64 fields "total" = some total := (required_field rfl).trans (Json.asU64_int small)
    change asOfferPage codec (.obj fields) = _
    simp only [asOfferPage, items, total_, Option.bind_eq_bind, Option.bind_some]
  · change required (asList (asMergeItem codec)) fields "items" = _
    rw [required_field (j := .arr (offers.map (offerJson name))) rfl, mapM_offers _ item]

/-- Taken from a peer and posted on. -/
theorem offers_round_trip_one :
    let text := JsonText.codec.write (pageJson "a/x" [("v", (Attribute.new "v").asMerge)] 1 0)
    (JsonText.codec.parse text).bind (asOfferPage JsonText.codec) = some ([("v", (Attribute.new "v").asMerge)], 1) ∧
      (JsonText.codec.parse text).bind (asMergeRequest JsonText.codec) = some [("a/x", "v", (Attribute.new "v").asMerge)] := by
  refine offers_round_trip JsonText.codec "a/x" (fun offer member => ?_) (by decide) 0
  obtain rfl := List.mem_singleton.mp member
  exact ⟨nofun, nofun, by decide, by decide, by decide, by decide⟩

end Serde

end SightingDB
