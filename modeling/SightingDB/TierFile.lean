import SightingDB.Tier
import SightingDB.Lib.TomlWritten
import SightingDB.Lib.Traverse

/-!
The file of storage settings. Shards are put between quotes as they stand and windows are
written as whole numbers, so the file says what the policy says as long as no shard means
anything to TOML and every window fits in 63 bits.
-/
namespace SightingDB

/-- Why an entry of the `[tiers]` table was refused. -/
inductive EntryFault
  | text (message : String)
  /-- `'warm_idle' should be a number of seconds, found …`. -/
  | window (found : Toml.Scalar)
  deriving DecidableEq

/-- Why a file of settings could not be loaded. -/
inductive TierFault
  | unreadable
  | entry (shard : String) (reason : EntryFault)
  | defaultTier (reason : String)
  deriving DecidableEq

def scalarType : Toml.Scalar → String
  | .str _ => "string"
  | .int _ => "integer"
  | .bool _ => "boolean"

def valueType : Toml.Value → String
  | .scalar s => scalarType s
  | .array _ => "array"
  | .table _ => "table"

/-- One field of an entry written as a table. -/
def parseField (entry : TierEntry) (field : String × Toml.Scalar) : Except EntryFault TierEntry :=
  if field.1 = "tier" then
    match field.2 with
    | .str text => match Tier.parse text with
      | .error e => .error (.text e)
      | .ok tier => .ok { entry with tier := some tier }
    | other => .error (.text ("'tier' should be a string, found " ++ scalarType other))
  else if field.1 = "warm_idle" then
    match field.2 with
    | .int seconds => if 0 ≤ seconds then .ok { entry with warmIdle := some seconds.toNat } else .error (.window field.2)
    | other => .error (.window other)
  else .error (.text ("unknown key '" ++ field.1 ++ "', expected tier or warm_idle"))

/-- Read one entry of the `[tiers]` table: a tier alone, or a table of tier and window. -/
def parseEntry : Toml.Value → Except EntryFault TierEntry
  | .scalar (.str text) => match Tier.parse text with
    | .error e => .error (.text e)
    | .ok tier => .ok ⟨some tier, none⟩
  | .table fields => match fields.foldlM parseField ⟨none, none⟩ with
    | .error e => .error e
    | .ok entry =>
        if entry.isEmpty then .error (.text "says nothing: give it a tier, a warm_idle, or both") else .ok entry
  | other => .error (.text ("should be a tier, or a table of tier and warm_idle, found " ++ valueType other))

/-- The on-disk form. -/
structure TierFile where
  defaultTier : String
  warmIdle : Nat
  tiers : List (String × Toml.Value)

/-- Both settings are required, the window is unsigned, and no table is an empty one. -/
def TierFile.ofDocument (doc : Toml.Document) : Option TierFile :=
  match doc.lookup "default_tier", doc.lookup "warm_idle" with
  | some (.value (.scalar (.str defaultTier))), some (.value (.scalar (.int warmIdle))) =>
      if 0 ≤ warmIdle then
        match doc.lookup "tiers" with
        | none => some ⟨defaultTier, warmIdle.toNat, []⟩
        | some (.table tiers) => some ⟨defaultTier, warmIdle.toNat, tiers⟩
        | some (.value (.table tiers)) =>
            some ⟨defaultTier, warmIdle.toNat, tiers.map fun field => (field.1, .scalar field.2)⟩
        | some _ => none
      else none
  | _, _ => none

namespace TierPolicy

def fileEntries (tiers : List (String × Toml.Value)) : Except TierFault (OrderedMap String TierEntry) :=
  tiers.foldlM (fun entries item => match parseEntry item.2 with
    | .error e => .error (.entry item.1 e)
    | .ok entry => .ok (entries.insert item.1 entry)) ∅

/-- `load` of the text of a file. -/
def load (text : String) : Except TierFault TierPolicy :=
  match (Toml.document text.toList).bind TierFile.ofDocument with
  | none => .error .unreadable
  | some file => match fileEntries file.tiers with
    | .error e => .error e
    | .ok entries => match Tier.parse file.defaultTier with
      | .error e => .error (.defaultTier e)
      | .ok defaultTier => .ok ⟨defaultTier, entries, file.warmIdle⟩

/-- The lines before the settings. -/
def fileHeader : List String :=
  ["# Written by the SightingDB management interface. Comments added here",
    "# are replaced the next time a tier is changed.",
    "#",
    "# hot   never evicted",
    "# warm  dropped once untouched for warm_idle seconds",
    "# cold  dropped at the next sweep once idle",
    "#",
    "# Keyed by the top-level namespace, which is the unit that is paged in",
    "# and out: \"feeds\" covers \"feeds/misp/ips\" and everything beside it.",
    "# An entry may set the tier, the idle window, or both.",
    ""]

def settingLines (policy : TierPolicy) : List String :=
  ["default_tier = \"" ++ policy.defaultTier.asStr ++ "\"", "warm_idle = " ++ toString policy.warmIdle, "", "[tiers]"]

/-- What an entry is written as; one that says nothing is left out. -/
def entryText (entry : TierEntry) : Option String :=
  match entry.tier, entry.warmIdle with
  | some tier, none => some ("\"" ++ tier.asStr ++ "\"")
  | some tier, some idle => some ("\x7b tier = \"" ++ tier.asStr ++ "\", warm_idle = " ++ toString idle ++ " \x7d")
  | none, some idle => some ("\x7b warm_idle = " ++ toString idle ++ " \x7d")
  | none, none => none

def fileLine (shard : String) (entry : TierEntry) : Option String :=
  (entryText entry).map fun value => "\"" ++ shard ++ "\" = " ++ value

/-- The text `save` writes. -/
def save (policy : TierPolicy) : String :=
  let lines := fileHeader ++ settingLines policy ++ policy.entries.entries.filterMap fun e => fileLine e.1 e.2
  String.ofList (Toml.unlines (lines.map String.toList))

/-! ## Reading it back -/

/-- Nothing in the policy means anything to the file it is written to. -/
structure Writable (policy : TierPolicy) : Prop where
  shard : ∀ e ∈ policy.entries.entries, Toml.Plain e.1.toList
  some_ : ∀ e ∈ policy.entries.entries, e.2.isEmpty = false
  window : ∀ e ∈ policy.entries.entries, ∀ idle ∈ e.2.warmIdle, idle < 2 ^ 63
  idle : policy.warmIdle < 2 ^ 63

/-- What an entry says, as a value. -/
def entryValue (entry : TierEntry) : Toml.Value :=
  match entry.tier, entry.warmIdle with
  | some tier, none => .scalar (.str tier.asStr)
  | some tier, some idle => .table [("tier", .str tier.asStr), ("warm_idle", .int idle)]
  | none, some idle => .table [("warm_idle", .int idle)]
  | none, none => .table []

variable {policy : TierPolicy} {entry : TierEntry}

theorem plain_asStr (tier : Tier) : Toml.Plain tier.asStr.toList := by
  cases tier <;> decide

theorem bare_tier : Toml.Bare "tier" := by
  constructor <;> decide

theorem bare_warmIdle : Toml.Bare "warm_idle" := by
  constructor <;> decide

theorem entryText_toList (some_ : entry.isEmpty = false) :
    (entryText entry).map String.toList = some (entryValue entry).written := by
  obtain ⟨tier, idle⟩ := entry
  cases tier <;> cases idle
  · cases some_
  all_goals
    simp [entryText, entryValue, Toml.Value.written, Toml.Scalar.written, Toml.fieldWritten, Toml.quoted, Toml.quoteMark,
      List.intercalate, Nat.toString_eq_repr, Nat.repr]

theorem entryValue_plain (window : ∀ idle ∈ entry.warmIdle, idle < 2 ^ 63) : (entryValue entry).Plain := by
  obtain ⟨tier, idle⟩ := entry
  have fits : ∀ i ∈ idle, Toml.Scalar.Plain (.int i) := fun i mem => by
    have := window i mem
    simp only [Toml.Scalar.Plain]
    omega
  cases tier with
  | none =>
      cases idle with
      | none => simp [entryValue, Toml.Value.Plain]
      | some i => simpa [entryValue, Toml.Value.Plain, bare_warmIdle] using fits i rfl
  | some tier =>
      cases idle with
      | none => exact plain_asStr tier
      | some i =>
          simpa [entryValue, Toml.Value.Plain, bare_warmIdle, bare_tier] using ⟨plain_asStr tier, fits i rfl⟩

theorem parseEntry_entryValue (some_ : entry.isEmpty = false) : parseEntry (entryValue entry) = .ok entry := by
  obtain ⟨tier, idle⟩ := entry
  cases tier with
  | none =>
      cases idle with
      | none => cases some_
      | some i => simp [entryValue, parseEntry, parseField, TierEntry.isEmpty, List.foldlM, pure, Except.pure, bind, Except.bind]
  | some tier =>
      cases idle with
      | none => simp [entryValue, parseEntry]
      | some i => simp [entryValue, parseEntry, parseField, TierEntry.isEmpty, List.foldlM, pure, Except.pure, bind, Except.bind]

/-- The settings in front of the table, and the table. -/
def settings (policy : TierPolicy) : List (String × Toml.Value) :=
  [("default_tier", .scalar (.str policy.defaultTier.asStr)), ("warm_idle", .scalar (.int policy.warmIdle))]

def entryPairs (policy : TierPolicy) : List (String × Toml.Value) :=
  policy.entries.entries.map fun e => (e.1, entryValue e.2)

-- The characters are taken out of the literals first; decoding them by evaluation is slow.
theorem header_lines : (fileHeader.map String.toList).mapM Toml.line = some (List.replicate 11 .blank) ∧
    ∀ l ∈ fileHeader.map String.toList, '\n' ∉ l := by
  simp only [fileHeader, List.map_cons, List.map_nil]
  repeat rw [String.toList_ofList]
  decide

theorem save_toList (some_ : ∀ e ∈ policy.entries.entries, e.2.isEmpty = false) : policy.save.toList =
    Toml.unlines (fileHeader.map String.toList ++ (settingLines policy).map String.toList ++
      (entryPairs policy).map Toml.pairWritten) := by
  have each : ∀ e ∈ policy.entries.entries,
      (fileLine e.1 e.2).map String.toList = some (Toml.pairWritten (e.1, entryValue e.2)) := by
    intro e mem
    obtain ⟨text, written, same⟩ := Option.map_eq_some_iff.mp (entryText_toList (some_ e mem))
    simp [fileLine, written, Toml.pairWritten, Toml.quoteMark, ← same]
  rw [save, String.toList_ofList, List.map_append, List.map_append, List.map_filterMap, List.filterMap_congr each]
  simp [entryPairs, Function.comp_def]

theorem setting_lines (idle : policy.warmIdle < 2 ^ 63) : ((settingLines policy).map String.toList).mapM Toml.line =
    some ((settings policy).map (fun p => .pair p.1 p.2) ++ [.blank, .table "tiers"]) := by
  have tier : Toml.line ("default_tier = \"" ++ policy.defaultTier.asStr ++ "\"").toList =
      some (.pair "default_tier" (.scalar (.str policy.defaultTier.asStr))) := by
    have bare : Toml.Bare "default_tier" := by constructor <;> decide
    have read := Toml.line_bare bare (Toml.Value.written (.scalar (.str policy.defaultTier.asStr)))
    have plain : Toml.Value.Plain (.scalar (.str policy.defaultTier.asStr)) := plain_asStr _
    rw [Toml.ending_written plain] at read
    simpa [Toml.Value.written, Toml.Scalar.written, Toml.quoted, Toml.quoteMark] using read
  have window : Toml.line ("warm_idle = " ++ toString policy.warmIdle).toList =
      some (.pair "warm_idle" (.scalar (.int policy.warmIdle))) := by
    have read := Toml.line_bare bare_warmIdle (Toml.Value.written (.scalar (.int policy.warmIdle)))
    have fits : Toml.Value.Plain (.scalar (.int policy.warmIdle)) := ⟨by omega, by omega⟩
    rw [Toml.ending_written fits] at read
    simpa [Toml.Value.written, Toml.Scalar.written, Nat.toString_eq_repr, Nat.repr] using read
  have blank : Toml.line [] = some .blank := rfl
  have table : Toml.line "[tiers]".toList = some (.table "tiers") := by decide
  simp only [settingLines, List.map_cons, List.map_nil, List.mapM_cons, List.mapM_nil, tier, window, String.toList_empty,
    blank, table]
  rfl

theorem fileEntries_pairs (some_ : ∀ e ∈ policy.entries.entries, e.2.isEmpty = false) :
    fileEntries (entryPairs policy) = .ok policy.entries := by
  have folded : ∀ (l : List (String × TierEntry)) (start : OrderedMap String TierEntry), (∀ e ∈ l, e.2.isEmpty = false) →
      (l.map fun e => (e.1, entryValue e.2)).foldlM (fun entries item => match parseEntry item.2 with
        | .error e => .error (.entry item.1 e)
        | .ok entry => .ok (entries.insert item.1 entry)) start =
      (.ok (l.foldl (fun entries e => entries.insert e.1 e.2) start) : Except TierFault _) := by
    intro l
    induction l with
    | nil => exact fun _ _ => rfl
    | cons e rest ih =>
        intro start each
        rw [List.map_cons, List.foldlM_cons, parseEntry_entryValue (each e (by simp))]
        exact ih _ fun e' mem => each e' (by simp [mem])
  rw [fileEntries, entryPairs, folded _ _ some_, OrderedMap.foldl_insert_entries]

/-- No line of the file is two lines, if the line of no entry is. -/
theorem lines_single (entries : ∀ p ∈ entryPairs policy, '\n' ∉ Toml.pairWritten p) :
    ∀ l ∈ fileHeader.map String.toList ++ (settingLines policy).map String.toList ++
      (entryPairs policy).map Toml.pairWritten, '\n' ∉ l := by
  intro l mem
  rcases List.mem_append.mp mem with front | entry
  · rcases List.mem_append.mp front with header | setting
    · exact header_lines.2 l header
    · have tier : '\n' ∉ policy.defaultTier.asStr.toList := Toml.feed_not_mem (plain_asStr _)
      have digits : '\n' ∉ Nat.toDigits 10 policy.warmIdle := fun mem =>
        absurd (Nat.isDigit_of_mem_toDigits (by decide) (by decide) mem) (by decide)
      simp only [settingLines, List.map_cons, List.map_nil, List.mem_cons, List.not_mem_nil, or_false] at setting
      rcases setting with rfl | rfl | rfl | rfl
      · simp [tier]
      · simp [Nat.toString_eq_repr, Nat.repr, digits]
      · decide
      · decide
  · obtain ⟨p, here, rfl⟩ := List.mem_map.mp entry
    exact entries p here

/-- One entry whose line cannot be read takes the whole file with it. -/
theorem load_of_spoilt (some_ : ∀ e ∈ policy.entries.entries, e.2.isEmpty = false)
    (single : ∀ p ∈ entryPairs policy, '\n' ∉ Toml.pairWritten p) {p : String × Toml.Value} (mem : p ∈ entryPairs policy)
    (spoilt : Toml.line (Toml.pairWritten p) = none) : load policy.save = .error .unreadable := by
  rw [load, save_toList some_, Toml.document_unlines (lines_single single),
    Traverse.mapM_eq_none (List.mem_append_right _ (List.mem_map_of_mem mem)) spoilt]
  rfl

/-- What can be written is read back as it is. -/
theorem load_save (writable : policy.Writable) : load policy.save = .ok policy := by
  have plain : ∀ p ∈ entryPairs policy, Toml.Plain p.1.toList ∧ p.2.Plain := by
    intro p mem
    obtain ⟨e, here, rfl⟩ := List.mem_map.mp mem
    exact ⟨writable.shard e here, entryValue_plain (writable.window e here)⟩
  have single := @lines_single policy fun p mem => Toml.pairWritten_single (plain p mem).1 (plain p mem).2
  have lines : ((entryPairs policy).map Toml.pairWritten).mapM Toml.line =
      some ((entryPairs policy).map fun p => .pair p.1 p.2) := by
    rw [List.mapM_map, Traverse.mapM_eq_some_iff, List.forall₂_map_right_iff, List.forall₂_same]
    exact fun p mem => Toml.line_pairWritten (plain p mem).1 (plain p mem).2
  have nodup : ((entryPairs policy).map Prod.fst).Nodup := by
    rw [entryPairs, List.map_map]
    exact policy.entries.keys_nodup
  have doc := Toml.document_table "tiers" (settings policy) (entryPairs policy) 11 1 (by simp [settings])
    (by simp [settings]) nodup
  rw [load, save_toList writable.some_, Toml.document_unlines single, List.mapM_append, List.mapM_append, header_lines.1,
    setting_lines writable.idle, lines]
  simp only [Option.bind_eq_bind, Option.bind_some, Option.pure_def, List.append_assoc, List.cons_append,
    List.nil_append, List.replicate_one] at doc ⊢
  rw [doc]
  have file : TierFile.ofDocument ((settings policy).map (fun p => (p.1, .value p.2)) ++ [("tiers", .table (entryPairs policy))]) =
      some ⟨policy.defaultTier.asStr, policy.warmIdle, entryPairs policy⟩ := by
    simp [TierFile.ofDocument, settings, List.lookup_cons]
  simp only [file, Option.bind_some, fileEntries_pairs writable.some_, Tier.parse_asStr]

end TierPolicy
end SightingDB
