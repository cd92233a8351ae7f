import SightingDB.Addresses
import SightingDB.Attribute
import SightingDB.Lib.FirstOfEach
import SightingDB.Lib.Json
import SightingDB.Lib.Toml
import SightingDB.Tags

/-!
Writing sightings out as a STIX bundle. What a value on its own cannot say comes from its tags.
Ids are derived from what they name, or taken from a tag, and objects with one id go out once.
The `uuid` and `chrono` crates are a parameter.
-/
namespace SightingDB

/-! ## Reading tags -/

/-- `tag_values`: what is carried under a key. -/
def tagValues (tags key : String) : List String :=
  (splitTags tags).filterMap fun tag => match splitOnce ':' tag with
    | none => none
    | some (name, value) =>
        if asciiLowercase (trim name) = asciiLowercase key && trim value ≠ "" then some (trim value) else none

def tagValue (tags key : String) : Option String := (tagValues tags key).head?

/-! ## Texts -/

/-- `str::contains` for a string pattern. -/
def containsText (s part : String) : Bool := s.toList.tails.any part.toList.isPrefixOf

/-- `str::parse::<i64>`. -/
def parseI64 (text : String) : Option Int :=
  let (negative, digits) := match text.toList with
    | '+' :: rest => (false, rest)
    | '-' :: rest => (true, rest)
    | cs => (false, cs)
  if digits.isEmpty || !digits.all Char.isDigit then none
  else
    let n : Int := Nat.ofDigitChars 10 digits 0
    let n := if negative then -n else n
    if -2 ^ 63 ≤ n ∧ n ≤ i64Max then some n else none

/-- What the export takes from the `uuid` and `chrono` crates. -/
structure Crates where
  /-- `Uuid::new_v5` in the namespace of this module, as text. -/
  uuidFor : String → String
  /-- Whether `Uuid::parse_str` reads a text. -/
  isUuid : String → Bool
  /-- `to_rfc3339_opts(Millis, true)`. -/
  rfc3339 : DateTime → String
  /-- `DateTime::parse_from_rfc3339`, in seconds. -/
  parseRfc3339 : String → Option Int

namespace Stix

/-- The identity the bundle is published under. -/
structure Settings where
  identity : String
  identityClass : String
  deriving DecidableEq

def Settings.default : Settings := ⟨"SightingDB", "system"⟩

/-- What to do with a value whose observable type cannot be worked out. -/
inductive Untyped
  | skip
  | include_
  deriving DecidableEq

/-- `UNTYPED_TYPE`. -/
def untypedType : String := "x-sightingdb-value"

/-- A value's observable type, and whether it had to be guessed at. -/
structure Typing where
  observable : String
  fallback : Bool
  deriving DecidableEq

/-- A finished bundle, with what had to be left out of it. -/
structure Export where
  bundle : Json
  exported : Nat
  skipped : List String
  untyped : Nat
  truncated : Bool
  missing : List String
  namespaces : Nat

/-- The markings of the specification, each with its fixed id. -/
def tlp : List (String × String) :=
  [("white", "marking-definition--613f2e26-407d-48c7-9eca-b8e91df99dc9"),
    ("green", "marking-definition--34098fce-860f-48ae-8e50-ebd3cc5e41da"),
    ("amber", "marking-definition--f88d31f6-486f-44da-b317-01333bde0b82"),
    ("red", "marking-definition--5e57c739-391a-4eb3-b6be-7d15ca92d5ed")]

def tlpCreated : String := "2017-01-20T00:00:00.000Z"

def tlpOfId (id : String) : Option String := (tlp.find? (·.2 = id)).map (·.1)

def tlpId (level : String) : Option String :=
  let level := asciiLowercase (trim level)
  let level := (stripStart level "tlp:").getD level
  (tlp.find? (·.1 = level)).map (·.2)

/-- One namespace's worth of a bundle, and the type it holds when a value does not say. -/
structure Part where
  namespace_ : String
  values : List AttributeView
  defaultType : Option String

/-! ## What a value is -/

/-- Recognise the common observables by shape. -/
def inferType (value : String) : Option String :=
  let value := trim value
  if value = "" then none
  else if containsText value "://" then some "url"
  else if Addresses.isIpv4 value then some "ipv4-addr"
  else if Addresses.isIpv6 value then some "ipv6-addr"
  else
    let block := (splitOnce '/' value).filter fun (_, size) => (parseU64 size).any (· < 256)
    if block.any fun (address, _) => Addresses.isIpv4 address then some "ipv4-addr"
    else if block.any fun (address, _) => Addresses.isIpv6 address then some "ipv6-addr"
    else if value.toList.contains '@' && (splitOnChar '@' value).length = 2 && !startsWithChar value '@' then
      some "email-addr"
    else
      let hex := value.toList.all Addresses.isHexDigit
      if hex && value.length = 32 then some "file.MD5"
      else if hex && value.length = 40 then some "file.SHA-1"
      else if hex && value.length = 64 then some "file.SHA-256"
      else if hex && value.length = 128 then some "file.SHA-512"
      else
        let top := value.toList.reverse.takeWhile (· ≠ '.')
        if value.toList.contains '.' && !value.toList.contains ' ' && 2 ≤ top.length && top.all Char.isAlpha then
          some "domain-name"
        else none

/-- What its tags say, else what the namespace holds, else what the value looks like. -/
def observableType (view : AttributeView) (defaultType : Option String) (untyped : Untyped) : Option Typing :=
  match tagValue view.tags "stix-type" with
  | some tagged => some ⟨tagged, false⟩
  | none => match defaultType with
    | some configured => some ⟨configured, false⟩
    | none => match inferType view.value with
      | some inferred => some ⟨inferred, false⟩
      | none => match untyped with
        | .skip => none
        | .include_ => some ⟨untypedType, true⟩

def apostrophe : Char := Char.ofNat 39

/-- Quote a value for a pattern literal. -/
def escape (value : String) : String :=
  replaceChar apostrophe (replaceChar Toml.backslash value (String.ofList [Toml.backslash, Toml.backslash]))
    (String.ofList [Toml.backslash, apostrophe])

/-- The property a pattern compares. -/
def propertyOf (observable : String) : String :=
  if observable = "file" then "name"
  else if observable = "mutex" then "name"
  else if observable = "windows-registry-key" then "key"
  else if observable = "process" then "command_line"
  else if observable = "user-account" then "user_id"
  else if observable = "autonomous-system" then "number"
  else "value"

/-- The pattern for one value of a given observable type. -/
def patternFor (observable value : String) : Option String :=
  match stripStart observable "file." with
  | some algorithm => some ("[file:hashes.'" ++ algorithm ++ "' = '" ++ escape value ++ "']")
  | none =>
      if observable = "" then none
      else some ("[" ++ observable ++ ":" ++ propertyOf observable ++ " = '" ++ escape value ++ "']")

/-! ## The objects -/

section Objects

variable (crates : Crates)

/-- A timestamp, in UTC with milliseconds. -/
def rfc3339 (seconds : Int) : String := crates.rfc3339 ((DateTime.fromTimestamp seconds).getD .unixEpoch)

def confidence (view : AttributeView) : Option Nat :=
  ((tagValue view.tags "confidence").bind parseU64).filter (· ≤ 100)

/-- A `valid-until:` tag wins; otherwise a lifetime counts from the last sighting. -/
def validUntil (view : AttributeView) : Option String :=
  match tagValue view.tags "valid-until" with
  | some tagged => match crates.parseRfc3339 tagged with
    | some seconds => some (rfc3339 crates seconds)
    | none => (parseI64 tagged).map (rfc3339 crates)
  | none =>
      if 0 < view.ttl then some (rfc3339 crates (min (view.lastSeen + min (view.ttl : Int) i64Max) i64Max)) else none

def identityId (name : String) : String := "identity--" ++ crates.uuidFor ("identity:" ++ name)

def identity (name class_ : String) : Json :=
  .obj [("type", .str "identity"), ("spec_version", .str "2.1"), ("id", .str (identityId crates name)),
    ("created", .str tlpCreated), ("modified", .str tlpCreated), ("name", .str name), ("identity_class", .str class_)]

def marking (level id : String) : Json :=
  .obj [("type", .str "marking-definition"), ("spec_version", .str "2.1"), ("id", .str id),
    ("created", .str tlpCreated), ("definition_type", .str "tlp"),
    ("name", .str ("TLP:" ++ String.ofList (level.toList.map Char.toUpper))), ("definition", .obj [("tlp", .str level)])]

/-- The indicator's id: the one it arrived with, or one derived from the value. -/
def indicatorId (view : AttributeView) (observable : String) : String :=
  match tagValue view.tags "stix-id" with
  | some given =>
      if startsWith given "indicator--" && crates.isUuid (trimStartMatches given "indicator--") then given
      else "indicator--" ++ crates.uuidFor ("indicator:" ++ observable ++ ":" ++ view.value)
  | none => "indicator--" ++ crates.uuidFor ("indicator:" ++ observable ++ ":" ++ view.value)

def sightingId (namespace_ observable : String) (view : AttributeView) : String :=
  "sighting--" ++ crates.uuidFor ("sighting:" ++ namespace_ ++ ":" ++ observable ++ ":" ++ view.value)

/-- Texts as an array, which is there only with something in it. -/
def someTexts (texts : List String) : Option Json := if texts = [] then none else some (.arr (texts.map .str))

def indicator (id : String) (view : AttributeView) (pattern author : String) (markings : List String) (fallback : Bool) :
    Json :=
  .obj ([("type", .str "indicator"), ("spec_version", .str "2.1"), ("id", .str id), ("created_by_ref", .str author),
      ("created", .str (rfc3339 crates view.firstSeen)), ("modified", .str (rfc3339 crates view.lastSeen))] ++
    Json.optional "name" ((tagValue view.tags "name").map .str) ++
    Json.optional "description" ((tagValue view.tags "description").map .str) ++
    Json.optional "indicator_types" (someTexts (tagValues view.tags "indicator-type")) ++
    [("pattern", .str pattern), ("pattern_type", .str "stix")] ++
    Json.optional "x_sightingdb_untyped" (if fallback then some (.bool true) else none) ++
    [("valid_from", .str (rfc3339 crates view.firstSeen))] ++
    Json.optional "valid_until" ((validUntil crates view).map .str) ++
    Json.optional "confidence" ((confidence view).map fun n => .int n) ++
    Json.optional "object_marking_refs" (someTexts markings))

/-- STIX caps the count of a sighting. -/
def countShown (view : AttributeView) : Nat := max 1 (min view.count 999999999)

def sighting (namespace_ observable : String) (view : AttributeView) (indicatorId author : String)
    (sightedBy markings : List String) : Json :=
  .obj ([("type", .str "sighting"), ("spec_version", .str "2.1"),
      ("id", .str (sightingId crates namespace_ observable view)), ("created_by_ref", .str author),
      ("created", .str (rfc3339 crates view.firstSeen)), ("modified", .str (rfc3339 crates view.lastSeen)),
      ("first_seen", .str (rfc3339 crates view.firstSeen)), ("last_seen", .str (rfc3339 crates view.lastSeen)),
      ("count", .int (countShown view)), ("sighting_of_ref", .str indicatorId),
      ("where_sighted_refs", .arr (sightedBy.map .str)), ("x_sightingdb_namespace", .str namespace_)] ++
    Json.optional "confidence" ((confidence view).map fun n => .int n) ++
    Json.optional "object_marking_refs" (someTexts markings))

/-! ## The bundle -/

/-- A bundle under construction. -/
structure Bundling where
  objects : List Json
  identities : List (String × Json)
  markings : List String
  skipped : List String
  exported : Nat
  untyped : Nat

/-- `Vec::push` of what is not there yet. -/
def pushNew (known : List String) (text : String) : List String := if text ∈ known then known else known ++ [text]

/-- The markings a value's tags ask for. -/
def markingRefs (view : AttributeView) : List String :=
  ((tagValues view.tags "tlp").filterMap tlpId).foldl pushNew []

/-- Whoever the tags say saw it; failing that, the author. -/
def sightedBy (author : String) (view : AttributeView) : List String :=
  match ((tagValues view.tags "identity").map (identityId crates)).foldl pushNew [] with
  | [] => [author]
  | named => named

/-- The identities the tags name, with those met before. -/
def noteIdentities (known : List (String × Json)) (view : AttributeView) : List (String × Json) :=
  (tagValues view.tags "identity").foldl (fun known name =>
    if known.any (·.1 = identityId crates name) then known
    else known ++ [(identityId crates name, identity crates name "organization")]) known

/-- One value of a part. -/
def bundleView (author : String) (untyped : Untyped) (part : Part) (acc : Bundling) (view : AttributeView) : Bundling :=
  match observableType view part.defaultType untyped with
  | none => { acc with skipped := acc.skipped ++ [view.value] }
  | some typing => match patternFor typing.observable view.value with
    | none => { acc with skipped := acc.skipped ++ [view.value] }
    | some pattern => {
        objects := acc.objects ++
          [indicator crates (indicatorId crates view typing.observable) view pattern author (markingRefs view)
              typing.fallback,
            sighting crates part.namespace_ typing.observable view (indicatorId crates view typing.observable) author
              (sightedBy crates author view) (markingRefs view)]
        identities := noteIdentities crates acc.identities view
        markings := (markingRefs view).foldl pushNew acc.markings
        skipped := acc.skipped
        exported := acc.exported + 1
        untyped := if typing.fallback then acc.untyped + 1 else acc.untyped }

def idOf (object : Json) : Option String := object.getStr "id"

/-- A bundle of what is asked for; its id is derived from the names. -/
def bundleJson (namespaces : List String) (objects : List Json) : Json :=
  .obj [("type", .str "bundle"), ("id", .str ("bundle--" ++ crates.uuidFor ("bundle:" ++ joinWith ',' namespaces))),
    ("objects", .arr objects)]

/-- Build one bundle spanning several namespaces. -/
def bundleOf (parts : List Part) (settings : Settings) (untyped : Untyped) : Export :=
  let authorId := identityId crates settings.identity
  let done := parts.foldl (fun acc part => part.values.foldl (bundleView crates authorId untyped part) acc)
    ⟨[identity crates settings.identity settings.identityClass], [], [], [], 0, 0⟩
  let objects := done.objects ++ done.identities.map (·.2) ++
    (tlp.filter fun level => level.2 ∈ done.markings).map fun level => marking level.1 level.2
  { bundle := bundleJson crates (parts.map (·.namespace_)) (FirstOfEach.keep idOf objects)
    exported := done.exported
    skipped := done.skipped
    untyped := done.untyped
    truncated := false
    missing := []
    namespaces := parts.length }

/-- The objects of a bundle. -/
def objectsOf (bundle : Json) : List Json := ((bundle.get "objects").bind Json.asArray).getD []

/-- Fold exports of different namespaces into one bundle. -/
def mergeExports (namespaces : List String) (parts : List Export) : Export where
  bundle := bundleJson crates namespaces (FirstOfEach.keep idOf (parts.flatMap fun part => objectsOf part.bundle))
  exported := (parts.map (·.exported)).sum
  skipped := parts.flatMap (·.skipped)
  untyped := (parts.map (·.untyped)).sum
  truncated := parts.any (·.truncated)
  missing := (parts.flatMap (·.missing)).foldl pushNew []
  namespaces := (parts.map (·.namespaces)).sum

end Objects

end Stix

end SightingDB
