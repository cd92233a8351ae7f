import SightingDB.Lib.Matchers
import SightingDB.Stix

/-!
Reading sightings out of a STIX bundle: `ingest::stix`. A bundle is indexed by id first and
walked second; a sighting says how often and when, what it points at says what.
-/
namespace SightingDB

namespace Stix

/-- One observation ready to be written: `ingest::misp::Sighting`. -/
structure Sighting where
  namespace_ : String
  value : String
  timestamp : Option Int
  lastTimestamp : Option Int
  count : Nat
  tags : List String
  deriving DecidableEq

/-- Make one tag safe to put in a comma-separated set. -/
def sanitizeTag (tag : String) : String := replaceChar ',' (trim tag) ";"

/-- Which observable types are ingested, and where they land. -/
structure Mapping where
  types : List (String × String)
  defaultNamespace : Option String

def Mapping.namespaceFor (mapping : Mapping) (stixType : String) : Option String :=
  ((mapping.types.find? (·.1 = stixType)).map (·.2)).or mapping.defaultNamespace

structure Observable where
  stixType : String
  value : String
  deriving DecidableEq

/-! ## Patterns -/

/-- `[a-z0-9_-]`. -/
def isTypeChar (c : Char) : Bool := ('a' ≤ c && c ≤ 'z') || c.isDigit || c = '_' || c = '-'

/-- `[a-zA-Z0-9_.\[\]'-]`. -/
def isPathChar (c : Char) : Bool :=
  c.isAlpha || c.isDigit || c = '_' || c = '.' || c = '[' || c = ']' || c = apostrophe || c = '-'

/-- What stands at either end of the name of an algorithm. -/
def isPathMark (c : Char) : Bool := c = '.' || c = apostrophe || c = '[' || c = ']'

/-- `[^'\\]|\\.`, one part of a literal. -/
def literalPart : Matcher Char (List Char) :=
  (Matcher.one fun c => c ≠ apostrophe && c ≠ Toml.backslash).orElse
    ((Matcher.one (· = Toml.backslash)).andThen fun escape =>
      (Matcher.one (· ≠ '\n')).andThen fun c => Matcher.pure (escape ++ c))

/-- The comparisons of a pattern: type, path and literal. -/
def comparison : Matcher Char (List Char × List Char × List Char) :=
  (Matcher.plus (Matcher.one isTypeChar)).andThen fun stixType =>
    (Matcher.one (· = ':')).andThen fun _ => (Matcher.plus (Matcher.one isPathChar)).andThen fun path =>
      (Matcher.star (Matcher.one isWhitespace)).andThen fun _ => (Matcher.one (· = '=')).andThen fun _ =>
        (Matcher.star (Matcher.one isWhitespace)).andThen fun _ => (Matcher.one (· = apostrophe)).andThen fun _ =>
          (Matcher.star literalPart).andThen fun literal => (Matcher.one (· = apostrophe)).andThen fun _ =>
            Matcher.pure (stixType, path, literal)

/-- `replace("\\'", "'")`: an escaped apostrophe is one. -/
def unescape : List Char → List Char
  | [] => []
  | [c] => [c]
  | c :: d :: rest =>
      if c = Toml.backslash ∧ d = apostrophe then apostrophe :: unescape rest else c :: unescape (d :: rest)

/-- The type a comparison is about; of a file the algorithm of the hash is part of it. -/
def typeOf (stixType path : List Char) : String :=
  if String.ofList stixType = "file" && startsWith (String.ofList path) "hashes" then
    "file." ++ String.ofList (trimWhere isPathMark (trimStartMatches (String.ofList path) "hashes").toList)
  else String.ofList stixType

/-- Pull literal comparisons out of a pattern. -/
def fromPattern (pattern : String) : List Observable :=
  (Matcher.searchAll comparison (pattern.toList.length + 1) pattern.toList).filterMap fun (stixType, path, literal) =>
    if unescape literal = [] then none else some ⟨typeOf stixType path, String.ofList (unescape literal)⟩

/-! ## Objects -/

section

variable (crates : Crates) (objects : List Json)

/-- The object of an id: the last that was put into the table. -/
def byId (id : String) : Option Json := objects.reverse.find? fun object => idOf object = some id

/-- The texts in an array field. -/
def textsOf (object : Json) (name : String) : List String :=
  (((object.get name).bind Json.asArray).getD []).filterMap Json.asStr

/-- STIX timestamps are RFC 3339. -/
def timestamp (value : Option Json) : Option Int := (value.bind Json.asStr).bind crates.parseRfc3339

def identityName (object : Json) : Option String :=
  if object.getStr "type" = some "identity" then (object.getStr "name").map sanitizeTag else none

def tlpLevel (id : String) : Option String :=
  (tlpOfId id).or ((byId objects id).bind fun marking =>
    if marking.getStr "definition_type" = some "tlp" then
      (((marking.get "definition").bind (·.get "tlp")).bind Json.asStr).map asciiLowercase
    else none)

/-- Who made an object, how sure they were, and how it may be shared. -/
def describe (object : Json) : List String :=
  (((object.getStr "created_by_ref").bind (byId objects)).bind identityName).toList.map (fun name => "identity:" ++ name) ++
    ((object.get "confidence").bind Json.asU64).toList.map (fun n => "confidence:" ++ toString n) ++
    ((textsOf object "object_marking_refs").filterMap (tlpLevel objects)).map fun level => "tlp:" ++ level

/-- What an indicator says about the values in its pattern. -/
def describeIndicator (indicator : Json) : List String :=
  describe objects indicator ++ (indicator.getStr "id").toList.map (fun id => "stix-id:" ++ id) ++
    (textsOf indicator "indicator_types").map (fun kind => "indicator-type:" ++ sanitizeTag kind) ++
    ((indicator.getStr "name").filter fun name => trim name ≠ "").toList.map (fun name => "name:" ++ sanitizeTag name) ++
    (indicator.getStr "valid_until").toList.map fun until_ => "valid-until:" ++ sanitizeTag until_

def dedupe (tags : List String) : List String := tags.foldl pushNew []

/-- Lift the values out of one cyber-observable object. -/
def collectObservable (object : Json) : List Observable :=
  match object.getStr "type" with
  | none => []
  | some stixType =>
      if stixType = "file" then
        match object.get "hashes" with
        | some (.obj hashes) => hashes.filterMap fun (algorithm, digest) =>
            (digest.asStr.filter (· ≠ "")).map fun digest => ⟨"file." ++ algorithm, digest⟩
        | _ => []
      else
        let value := if stixType = "mutex" || stixType = "windows-registry-key" then
            (object.get "key").or (object.get "name")
          else object.get "value"
        (((value.bind Json.asStr).filter (· ≠ "")).map fun value => (⟨stixType, value⟩ : Observable)).toList

/-- The observables an `observed-data` points at, by reference or embedded. -/
def observablesOf (observed : Json) : List Observable :=
  ((textsOf observed "object_refs").filterMap (byId objects)).flatMap collectObservable ++
    match observed.get "objects" with
    | some (.obj embedded) => embedded.flatMap fun e => collectObservable e.2
    | _ => []

/-- The observations of some observables, where their types are mapped. -/
def emit (mapping : Mapping) (first last : Option Int) (count : Nat) (tags : List String)
    (observables : List Observable) : List Sighting :=
  observables.filterMap fun observable => (mapping.namespaceFor observable.stixType).map fun name =>
    ⟨name, observable.value, first.or last, last, count, ("stix-type:" ++ observable.stixType) :: tags⟩

/-- A count is at least one. -/
def countOf (object : Json) (name : String) : Nat := max (((object.get name).bind Json.asU64).getD 1) 1

/-- What a sighting refers to, as tags and as observables. -/
def target (sighting : Json) : List String × List Observable :=
  match (sighting.getStr "sighting_of_ref").bind (byId objects) with
  | none => ([], [])
  | some target =>
      if target.getStr "type" = some "indicator" then
        (describeIndicator objects target, ((target.getStr "pattern").map fromPattern).getD [])
      else ([], collectObservable target)

/-- The count and window come from the sighting itself, the values from whatever it points at. -/
def fromSighting (mapping : Mapping) (sighting : Json) : List Sighting :=
  let sawIt := ((textsOf sighting "where_sighted_refs").filterMap fun id => (byId objects id).bind identityName).map
    fun name => "identity:" ++ name
  let observed := ((textsOf sighting "observed_data_refs").filterMap (byId objects)).flatMap (observablesOf objects)
  emit mapping (timestamp crates (sighting.get "first_seen")) (timestamp crates (sighting.get "last_seen"))
    (countOf sighting "count") (dedupe (describe objects sighting ++ sawIt ++ (target objects sighting).1))
    ((target objects sighting).2 ++ observed)

def fromObservedData (mapping : Mapping) (observed : Json) : List Sighting :=
  emit mapping (timestamp crates (observed.get "first_observed")) (timestamp crates (observed.get "last_observed"))
    (countOf observed "number_observed") (dedupe (describe objects observed)) (observablesOf objects observed)

/-- An indicator on its own is one observation, timed by `valid_from`. -/
def fromIndicator (mapping : Mapping) (indicator : Json) : List Sighting :=
  match indicator.getStr "pattern" with
  | none => []
  | some pattern => emit mapping (timestamp crates (indicator.get "valid_from")) none 1
      (dedupe (describe objects indicator ++ describeIndicator objects indicator)) (fromPattern pattern)

/-- The ids that sightings point at. -/
def sighted : List String :=
  (objects.filter fun object => object.getStr "type" = some "sighting").filterMap (·.getStr "sighting_of_ref")

/-- What is read out of one object. -/
def fromObject (mapping : Mapping) (object : Json) : List Sighting :=
  match object.getStr "type" with
  | some "sighting" => fromSighting crates objects mapping object
  | some "observed-data" => fromObservedData crates objects mapping object
  | some "indicator" =>
      if (object.getStr "id").getD "" ∈ sighted objects then [] else fromIndicator crates objects mapping object
  | _ => []

end

/-- The objects of a bundle, of a bare array, or of one loose object. -/
def rootObjects (root : Json) : List Json :=
  match root.get "objects" with
  | some (.arr objects) => objects
  | _ => match root with
    | .arr objects => objects
    | .obj fields => [.obj fields]
    | _ => []

/-- Parse a bundle, or a bare array of STIX objects. -/
def parseBundle (crates : Crates) (mapping : Mapping) (root : Json) : List Sighting :=
  (rootObjects root).flatMap (fromObject crates (rootObjects root) mapping)

end Stix

end SightingDB
