import SightingDB.CharacterStrings
import SightingDB.DnsNames
import SightingDB.Lib.Utf8
import SightingDB.Sightings

/-!
Turning a DNS query into an answer: the name is split, the value read as any client would read it, and the sighting told as
an address and as a text. What the DNS library does with names and headers is left to it.
-/
namespace SightingDB
namespace Dns

/-- Labels as they came, the root label left out. -/
structure Name where
  labels : List (List UInt8)
  deriving DecidableEq

inductive OpCode
  | query
  | other (code : UInt8)
  deriving DecidableEq

inductive DnsClass
  | in_
  | other (code : UInt16)
  deriving DecidableEq

inductive RecordType
  | a
  | txt
  | any
  | soa
  | ns
  | other (code : UInt16)
  deriving DecidableEq

inductive ResponseCode
  | noError
  | formErr
  | notImp
  | nxDomain
  | refused
  | other (code : UInt16)
  deriving DecidableEq

structure Metadata where
  id : UInt16
  opCode : OpCode
  authoritative : Bool
  recursionDesired : Bool
  checkingDisabled : Bool
  responseCode : ResponseCode
  deriving DecidableEq

structure Query where
  name : Name
  queryType : RecordType
  queryClass : DnsClass
  deriving DecidableEq

structure Soa where
  mname : Name
  rname : Name
  serial : Nat
  refresh : Nat
  retry : Nat
  expire : Nat
  minimum : UInt32
  deriving DecidableEq

inductive RData
  | a (octets : List UInt8)
  | txt (strings : List String)
  | ns (name : Name)
  | soa (soa : Soa)
  deriving DecidableEq

structure Record where
  name : Name
  ttl : UInt32
  data : RData
  deriving DecidableEq

structure Message where
  metadata : Metadata
  queries : List Query
  answers : List Record
  authorities : List Record
  deriving DecidableEq

/-- What comes from libraries: the header of a response, names put together, and base32. -/
structure Library where
  responseFromRequest : Metadata → Metadata
  fromLabels : List (List UInt8) → Option Name
  appendDomain : Name → Name → Option Name
  base32 : List UInt8 → Option (List UInt8)

/-- A name as lowercase label strings. -/
def labelsOf (name : Name) : List String := name.labels.map fun label => asciiLowercase (Utf8.lossy label)

/-- Everything the responder needs, with the labels of its zone read once. -/
structure Responder where
  zone : Name
  zoneLabels : List String
  exposed : List Exposed
  ttl : UInt32
  shadow : Bool
  read : zoneLabels = labelsOf zone

def Responder.new (zone : Name) (exposed : List Exposed) (ttl : UInt32) (shadow : Bool) : Responder :=
  ⟨zone, labelsOf zone, exposed, ttl, shadow, rfl⟩

inductive Outcome
  | answers (records : List Record)
  | noData
  | nxDomain
  | refused
  deriving DecidableEq

/-- How many times the value was seen, by order of magnitude. -/
def magnitude (count : Nat) : UInt8 :=
  if count = 0 then 0
  else if count = 1 then 1
  else if count ≤ 9 then 2
  else if count ≤ 99 then 3
  else if count ≤ 999 then 4
  else if count ≤ 9999 then 5
  else if count ≤ 99999 then 6
  else if count ≤ 999999 then 7
  else if count ≤ 9999999 then 8
  else 9

/-- Quote a free-form field so spaces in it cannot be mistaken for a separator. -/
def quote (value : String) : String := "\"" ++ replaceChar '"' (replaceChar '\\' value "\\\\") "\\\"" ++ "\""

/-- What is told of a sighting, as `key=value` pairs. -/
def pairs (view : AttributeView) : String :=
  "count=" ++ toString view.count ++ " first_seen=" ++ toString view.firstSeen ++ " last_seen=" ++ toString view.lastSeen ++
    " consensus=" ++ toString view.consensus ++ " ttl=" ++ toString view.ttl ++ " tags=" ++ quote view.tags

namespace Responder

variable (r : Responder) (library : Library)

def aRecord (name : Name) (view : AttributeView) : Record := ⟨name, r.ttl, .a [127, 0, 0, magnitude view.count]⟩

def txtRecord (name : Name) (view : AttributeView) : Record :=
  ⟨name, r.ttl, .txt ((characterStrings ((pairs view).utf8ByteSize + 1) (pairs view)).getD [])⟩

/-- `b"hostmaster"`. -/
def hostmaster : List UInt8 := "hostmaster".toList.flatMap String.utf8EncodeChar

def soaRecord : Record :=
  let mailbox := (library.fromLabels [hostmaster]).getD ⟨[]⟩
  ⟨r.zone, r.ttl, .soa ⟨r.zone, (library.appendDomain mailbox r.zone).getD r.zone, 1, 3600, 600, 86400, r.ttl⟩⟩

def answerApex : RecordType → Outcome
  | .soa => .answers [r.soaRecord library]
  | .ns => .answers [⟨r.zone, r.ttl, .ns r.zone⟩]
  | _ => .noData

/-- What a value that is there is answered with. -/
def answerFound (query : Query) (view : AttributeView) : Outcome :=
  match query.queryType with
  | .a => .answers [r.aRecord query.name view]
  | .txt => .answers [r.txtRecord query.name view]
  | .any => .answers [r.aRecord query.name view, r.txtRecord query.name view]
  | _ => .noData

def answer (db : Database) (w : World) (query : Query) : Database × Outcome :=
  let qlabels := labelsOf query.name
  if !r.zoneLabels.isSuffixOf qlabels then (db, .refused)
  else if qlabels.length = r.zoneLabels.length then (db, r.answerApex library query.queryType)
  else
    match resolve library.base32 qlabels r.zoneLabels r.exposed with
    | none => (db, .nxDomain)
    | some lookup =>
        match SightingDB.read db w lookup.exposed.namespace_ lookup.value false r.shadow with
        | (db, .ok view) => (db, r.answerFound query view)
        -- Never seen, or the namespace is gone.
        | (db, .error (.valueNotFound _ _)) => (db, .nxDomain)
        | (db, .error (.pathNotFound _ _)) => (db, .nxDomain)
        | (db, .error _) => (db, .refused)

/-- What an outcome makes of the response so far. A negative one carries the SOA record. -/
def finish (response : Message) : Outcome → Message
  | .answers records => { response with metadata.responseCode := .noError, answers := records }
  | .noData => { response with metadata.responseCode := .noError, authorities := [r.soaRecord library] }
  | .nxDomain => { response with metadata.responseCode := .nxDomain, authorities := [r.soaRecord library] }
  | .refused => { response with metadata.responseCode := .refused }

/-- Answer one query. -/
def respond (db : Database) (w : World) (request : Message) : Database × Message :=
  let metadata := { library.responseFromRequest request.metadata with authoritative := true }
  let response : Message := ⟨metadata, [], [], []⟩
  if request.metadata.opCode ≠ .query then (db, { response with metadata.responseCode := .notImp })
  else
    match request.queries.head? with
    | none => (db, { response with metadata.responseCode := .formErr })
    | some query =>
        let response := { response with queries := [query] }
        if query.queryClass ≠ .in_ then (db, { response with metadata.responseCode := .notImp })
        else
          let (db, outcome) := r.answer library db w query
          (db, r.finish library response outcome)

end Responder
end Dns
end SightingDB
