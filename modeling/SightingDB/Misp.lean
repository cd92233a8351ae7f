import SightingDB.StixIds
import SightingDB.StixImport
import Mathlib.Data.List.Destutter

/-!
Reading sightings out of what MISP publishes: `ingest::misp`. The JSON is walked for the
attributes in it; each gives a sighting of its value, one of its digest, or both. The digest is a
parameter.
-/
namespace SightingDB

namespace Misp

open Stix (Sighting sanitizeTag)

/-- Which attribute types are ingested, and where they land. -/
structure Mapping where
  types : OrderedMap String String
  defaultNamespace : Option String
  requireToIds : Bool
  hashedNamespace : Option String
  storeValues : Bool

def Mapping.namespaceFor (mapping : Mapping) (mispType : String) : Option String :=
  (mapping.types.get mispType).or mapping.defaultNamespace

/-- `Sighting::once`. -/
def once (name value : String) (timestamp : Option Int) : Sighting := ⟨name, value, timestamp, none, 1, []⟩

/-! ## Fields -/

/-- MISP ids arrive as numbers or as strings of digits. -/
def idLike : Json → Option String
  | .str text => if text = "" then none else some text
  | .int n => some (toString n)
  | .fraction text => some text
  | _ => none

/-- A number that fits in 64 bits with a sign: `as_i64`. -/
def asI64 : Json → Option Int
  | .int n => if -2 ^ 63 ≤ n ∧ n ≤ i64Max then some n else none
  | _ => none

/-- MISP sends timestamps as strings of Unix seconds, but not always. -/
def timestampOf (attr : Json) : Option Int :=
  match attr.get "timestamp" with
  | some (.str text) => parseI64 text
  | some raw => asI64 raw
  | none => none

/-- MISP writes booleans as `true`, `"1"` or `1` depending on the endpoint. -/
def truthy : Option Json → Bool
  | some (.bool flag) => flag
  | some (.str text) => text = "1" || asciiLowercase text = "true"
  | some raw => (asI64 raw).any (· ≠ 0)
  | none => false

/-- The names in a `Tag` field, made safe. -/
def tagNames (node : Json) : List String :=
  match node.get "Tag" with
  | some (.arr tags) => (tags.filterMap fun tag => tag.getStr "name").map sanitizeTag
  | _ => []

/-- MISP attribute types to STIX observable types, for the ones that map one to one. -/
def stixTypes : List (List String × String) :=
  [(["ip-src", "ip-dst", "ip-src|port", "ip-dst|port"], "ipv4-addr"),
    (["domain", "hostname", "domain|ip"], "domain-name"),
    (["url", "uri"], "url"),
    (["email", "email-src", "email-dst", "email-reply-to"], "email-addr"),
    (["md5", "filename|md5"], "file.MD5"),
    (["sha1", "filename|sha1"], "file.SHA-1"),
    (["sha256", "filename|sha256"], "file.SHA-256"),
    (["filename"], "file"),
    (["mutex"], "mutex"),
    (["regkey"], "windows-registry-key"),
    (["mac-address"], "mac-addr"),
    (["AS"], "autonomous-system")]

def stixTypeForMisp (mispType : String) : Option String := (stixTypes.find? (mispType ∈ ·.1)).map (·.2)

/-! ## Tags -/

/-- What an event says that its attributes inherit. -/
structure EventContext where
  tags : List String
  id : Option String
  deriving DecidableEq

namespace EventContext

def default : EventContext := ⟨[], none⟩

/-- The uuid is preferred to the id. -/
def of (event : Json) : EventContext :=
  ⟨tagNames event, ((event.get "uuid").bind idLike).or ((event.get "id").bind idLike)⟩

end EventContext

/-- Taxonomies where exactly one value can be true at a time. -/
def singleValued : List String := ["tlp"]

/-- Whether a tag belongs to a single-valued taxonomy that there is an entry for. -/
def conflicts (tags : List String) (candidate : String) : Bool :=
  match splitOnce ':' candidate with
  | none => false
  | some (name, _) => singleValued.contains name && tags.any fun tag => (splitOnce ':' tag).any fun known => known.1 = name

/-- The event's tags are added one after another, unless they contradict what is there. -/
def inherit_ (tags eventTags : List String) : List String :=
  eventTags.foldl (fun tags tag => if conflicts tags tag then tags else tags ++ [tag]) tags

/-- Neighbours that are the same, and then all repeats, are dropped. -/
def dedupe (tags : List String) : List String := (tags.destutter (· ≠ ·)).foldl Stix.pushNew []

/-- The attribute's own event id, or that of the event it arrived in. -/
def eventOf (attr : Json) (context : EventContext) : Option String :=
  ((attr.get "event_id").bind idLike).or context.id

/-- What is said of an attribute besides its tags. -/
def described (attr : Json) (mispType : String) (context : EventContext) : List String :=
  ["misp-type:" ++ mispType] ++ (stixTypeForMisp mispType).toList.map (fun stixType => "stix-type:" ++ stixType) ++
    (attr.getStr "category").toList.map (fun category => "misp-category:" ++ sanitizeTag category) ++
    (eventOf attr context).toList.map (fun event => "misp-event:" ++ event) ++
    ((attr.getStr "comment").filter fun comment => trim comment ≠ "").toList.map fun comment =>
      "description:" ++ sanitizeTag comment

/-- What MISP knows about an attribute, as tags. -/
def tagsOf (attr : Json) (mispType : String) (context : EventContext) : List String :=
  dedupe (inherit_ (described attr mispType context ++ tagNames attr) context.tags)

/-- Tag families that are kept off a digest. -/
def valueRevealingTags : List String := ["description:", "misp-event:", "stix-type:"]

/-- Whether a tag starts, letter for letter, with one of these families. -/
def revealing (tag : String) : Bool := valueRevealingTags.any fun family => startsWith tag family

def hashedTags (tags : List String) : List String := tags.filter fun tag => !revealing tag

/-! ### What becomes of them -/

/-- The single-valued taxonomy that a tag is under, its name written letter for letter. -/
def taxonomyOf (tag : String) : Option String := ((splitOnce ':' tag).map (·.1)).filter singleValued.contains

theorem conflicts_eq (tags : List String) (candidate : String) :
    conflicts tags candidate = (taxonomyOf candidate).any fun name => tags.any fun tag => taxonomyOf tag = some name := by
  rw [conflicts, taxonomyOf]
  cases parted : splitOnce ':' candidate with
  | none => rfl
  | some known =>
      obtain ⟨name, value⟩ := known
      simp only [Option.map_some, Option.filter_some]
      cases single : singleValued.contains name with
      | false => rfl
      | true =>
          rw [if_pos rfl, Option.any_some, Bool.true_and]
          refine congrArg tags.any (funext fun tag => ?_)
          rw [taxonomyOf]
          cases splitOnce ':' tag with
          | none => simp
          | some known =>
              simp only [Option.any_some, Option.map_some, Option.filter_some]
              refine decide_eq_decide.mpr ⟨?_, fun kept => ?_⟩
              · rintro rfl
                rw [if_pos single]
              · split at kept
                · exact Option.some.inj kept
                · cases kept

/-- Of an event's tags those are passed on that are under no such taxonomy, and of the others the first
under each that the attribute has no tag under. -/
theorem inherit_eq (tags eventTags : List String) :
    inherit_ tags eventTags = tags ++ FirstOfEach.pass taxonomyOf (tags.filterMap taxonomyOf) eventTags := by
  induction eventTags generalizing tags with
  | nil => simp [inherit_, FirstOfEach.pass]
  | cons next rest ih =>
      have step : inherit_ tags (next :: rest) =
          inherit_ (if conflicts tags next then tags else tags ++ [next]) rest := rfl
      rw [step, conflicts_eq, FirstOfEach.pass]
      cases here : taxonomyOf next with
      | none =>
          rw [Option.any_none, if_neg (by simp), ih]
          simp [here]
      | some name =>
          have held : (tags.any fun tag => taxonomyOf tag = some name) = true ↔ name ∈ tags.filterMap taxonomyOf := by
            simp
          rw [Option.any_some, if_congr held rfl rfl]
          dsimp only
          split
          · exact ih tags
          · rw [ih, List.append_assoc, List.singleton_append]
            refine congrArg (fun l => tags ++ next :: l) (FirstOfEach.pass_congr fun known => ?_)
            simp [here, or_comm]

theorem pass_destutter (seen : List String) (tag : String) (tags : List String) :
    FirstOfEach.pass some seen (tags.destutter' (· ≠ ·) tag) = FirstOfEach.pass some seen (tag :: tags) := by
  induction tags generalizing seen tag with
  | nil => rfl
  | cons next rest ih =>
      by_cases same : tag = next
      · subst same
        rw [List.destutter'_cons_neg _ (by simp), ih]
        by_cases known : tag ∈ seen <;> simp [FirstOfEach.pass, known]
      · have step (l : List String) : FirstOfEach.pass some seen (tag :: l) =
            if tag ∈ seen then FirstOfEach.pass some seen l else tag :: FirstOfEach.pass some (tag :: seen) l := rfl
        rw [List.destutter'_cons_pos _ same, step, step, ih, ih]

theorem foldl_pushNew_eq (known tags : List String) :
    tags.foldl Stix.pushNew known = known ++ FirstOfEach.pass some known tags := by
  induction tags generalizing known with
  | nil => simp [FirstOfEach.pass]
  | cons tag rest ih =>
      rw [List.foldl_cons, ih, FirstOfEach.pass, Stix.pushNew]
      dsimp only
      split
      · rfl
      · rw [List.append_assoc, List.singleton_append]
        refine congrArg (fun l => known ++ tag :: l) (FirstOfEach.pass_congr fun other => ?_)
        simp [or_comm]

/-- The first occurrence of each tag stays. -/
theorem dedupe_eq (tags : List String) : dedupe tags = FirstOfEach.keep some tags := by
  rw [dedupe, foldl_pushNew_eq, List.nil_append, FirstOfEach.keep]
  cases tags with
  | nil => rfl
  | cons tag rest => rw [List.destutter_cons', pass_destutter]

theorem mem_dedupe {tags : List String} {tag : String} : tag ∈ dedupe tags ↔ tag ∈ tags := by
  refine ⟨fun member => ?_, fun member => ?_⟩
  · rw [dedupe_eq] at member
    exact FirstOfEach.keep_sublist.mem member
  · obtain ⟨kept, there, same, -⟩ := FirstOfEach.exists_mem_keep member rfl
    rw [dedupe_eq, ← Option.some.inj same]
    exact there

theorem mem_described {attr : Json} {mispType tag : String} {context : EventContext} :
    tag ∈ described attr mispType context ↔ tag = "misp-type:" ++ mispType ∨
      (∃ stixType, stixTypeForMisp mispType = some stixType ∧ tag = "stix-type:" ++ stixType) ∨
      (∃ category, attr.getStr "category" = some category ∧ tag = "misp-category:" ++ sanitizeTag category) ∨
      (∃ event, eventOf attr context = some event ∧ tag = "misp-event:" ++ event) ∨
      ∃ comment, (attr.getStr "comment" = some comment ∧ trim comment ≠ "") ∧ tag = "description:" ++ sanitizeTag comment := by
  simp only [described, List.mem_append, List.mem_singleton, List.mem_map, Option.mem_toList, Option.filter_eq_some_iff,
    decide_eq_true_eq, or_assoc, eq_comm (a := tag)]

theorem mem_tagsOf {attr : Json} {mispType tag : String} {context : EventContext} :
    tag ∈ tagsOf attr mispType context ↔ tag ∈ described attr mispType context ∨ tag ∈ tagNames attr ∨
      tag ∈ FirstOfEach.pass taxonomyOf ((described attr mispType context ++ tagNames attr).filterMap taxonomyOf) context.tags := by
  rw [tagsOf, mem_dedupe, inherit_eq, List.mem_append, List.mem_append, or_assoc]

theorem mem_hashedTags {tags : List String} {tag : String} : tag ∈ hashedTags tags ↔ tag ∈ tags ∧ revealing tag = false := by
  simp [hashedTags]

theorem revealing_append {front rest : String} (apart : ∀ family ∈ valueRevealingTags,
    startsWith front family = false ∧ startsWith family front = false) : revealing (front ++ rest) = false := by
  rw [revealing, List.any_eq_false]
  intro family member starts
  obtain ⟨longer, shorter⟩ := apart family member
  rcases Stix.starts_alike (startsWith_append front rest) starts with alike | alike
  · rw [alike] at longer
    cases longer
  · rw [alike] at shorter
    cases shorter

theorem revealing_family {family : String} (member : family ∈ valueRevealingTags) (rest : String) :
    revealing (family ++ rest) = true :=
  List.any_eq_true.mpr ⟨family, member, startsWith_append family rest⟩

/-! ## Attributes -/

mutual

/-- Accepts either one attribute object or an array of them. -/
def attributesIn : Json → List Json
  | .arr items => attributesInAll items
  | .obj fields => [.obj fields]
  | _ => []

def attributesInAll : List Json → List Json
  | [] => []
  | item :: rest => attributesIn item ++ attributesInAll rest

end

section

variable (sha256Hex : String → String) (mapping : Mapping)

/-- The value of an attribute; some publishers only fill in `value1`. -/
def valueOf (attr : Json) : Option String :=
  ((attr.getStr "value").or (attr.getStr "value1")).filter (· ≠ "")

/-- The type and the value of an attribute that is worth recording at all. -/
def worth (attr : Json) : Option (String × String) :=
  if mapping.requireToIds && !truthy (attr.get "to_ids") then none
  else (attr.getStr "type").bind fun mispType => (valueOf attr).map fun value => (mispType, value)

/-- Where the value itself goes. -/
def Mapping.plain (mispType : String) : Option String := (mapping.namespaceFor mispType).filter fun _ => mapping.storeValues

/-- The sighting of the value. -/
def plainSighting (context : EventContext) (attr : Json) : Option Sighting :=
  (worth mapping attr).bind fun (mispType, value) => (mapping.plain mispType).map fun name =>
    { once name value (timestampOf attr) with tags := tagsOf attr mispType context }

/-- The sighting of its digest: of every attribute, mapped or not. -/
def digestSighting (context : EventContext) (attr : Json) : Option Sighting :=
  (worth mapping attr).bind fun (mispType, value) => mapping.hashedNamespace.map fun name =>
    { once name (sha256Hex value) (timestampOf attr) with tags := hashedTags (tagsOf attr mispType context) }

def attributeToSightings (context : EventContext) (attr : Json) : List Sighting :=
  (plainSighting mapping context attr).toList ++ (digestSighting sha256Hex mapping context attr).toList

/-- The attributes in one field. -/
def collect (node : Json) (field : String) : List Json := ((node.get field).map attributesIn).getD []

/-- Every attribute of a message: one on its own, those of an event, and those of its objects. -/
def attributes (message : Json) : List Json :=
  collect message "Attribute" ++ match message.get "Event" with
    | none => []
    | some event => collect event "Attribute" ++ match event.get "Object" with
      | some (.arr objects) => objects.flatMap (collect · "Attribute")
      | _ => []

/-- A single attribute carries its event beside it rather than around it. -/
def contextOf (message : Json) : EventContext := ((message.get "Event").map EventContext.of).getD .default

/-- Pull every sighting out of one message body. -/
def parse (message : Json) : List Sighting :=
  (attributes message).flatMap (attributeToSightings sha256Hex mapping (contextOf message))

variable {sha256Hex mapping} {context : EventContext} {attr : Json} {s : Sighting}

theorem plainSighting_eq_some : plainSighting mapping context attr = some s ↔
    ∃ mispType value name, worth mapping attr = some (mispType, value) ∧ mapping.plain mispType = some name ∧
      s = { once name value (timestampOf attr) with tags := tagsOf attr mispType context } := by
  simp only [plainSighting, Option.bind_eq_some_iff, Option.map_eq_some_iff, Prod.exists]
  exact ⟨fun ⟨mispType, value, known, name, there, same⟩ => ⟨mispType, value, name, known, there, same.symm⟩,
    fun ⟨mispType, value, name, known, there, same⟩ => ⟨mispType, value, known, name, there, same.symm⟩⟩

theorem digestSighting_eq_some : digestSighting sha256Hex mapping context attr = some s ↔
    ∃ mispType value name, worth mapping attr = some (mispType, value) ∧ mapping.hashedNamespace = some name ∧
      s = { once name (sha256Hex value) (timestampOf attr) with tags := hashedTags (tagsOf attr mispType context) } := by
  simp only [digestSighting, Option.bind_eq_some_iff, Option.map_eq_some_iff, Prod.exists]
  exact ⟨fun ⟨mispType, value, known, name, there, same⟩ => ⟨mispType, value, name, known, there, same.symm⟩,
    fun ⟨mispType, value, name, known, there, same⟩ => ⟨mispType, value, known, name, there, same.symm⟩⟩

theorem mem_attributeToSightings : s ∈ attributeToSightings sha256Hex mapping context attr ↔
    plainSighting mapping context attr = some s ∨ digestSighting sha256Hex mapping context attr = some s := by
  simp [attributeToSightings]

end

end Misp

end SightingDB
