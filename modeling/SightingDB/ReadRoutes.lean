import SightingDB.Exports
import SightingDB.Latest
import SightingDB.PrefixRules
import SightingDB.RequestPaths
import SightingDB.Sightings
import SightingDB.Lib.Oblivious

/-!
The routes that read, from the request to the response: one value or a namespace, a batch,
exports, the names, and the latest writes. Peers are asked for what is not stored here; what
they answer is a parameter.
-/
namespace SightingDB

structure ExportQuery where
  limit : Option Nat
  recursive : Option String
  untyped : Option String
  val : Option String
  deriving DecidableEq

namespace ExportQuery

/-- `untyped()`. -/
def treatment (query : ExportQuery) : Stix.Untyped := if query.untyped = some "include" then .include_ else .skip

/-- `limit()`. -/
def maxValues (query : ExportQuery) : Nat := max 1 (min (query.limit.getD 10000) 100000)

end ExportQuery

structure LatestQuery where
  limit : Option Nat
  since : Option Int
  namespace_ : Option String
  deriving DecidableEq

/-- A request that reads. -/
inductive Lookup
  /-- `/r`, and `/rs` with statistics. -/
  | read (withStats : Bool) (name : String) (query : ReadQuery)
  /-- `/rb`, and `/rbs` with statistics. -/
  | readBulk (withStats : Bool) (items : List BulkSighting)
  | stix (name : String) (query : ExportQuery)
  | stixApi (body : Stix.ExportBody)
  | namespaces (start : Option String)
  | latest (query : LatestQuery)

/-- A peer's answer; the body is `none` when it is no JSON. -/
structure Relayed where
  status : Nat
  headers : List (String × String)
  body : Option Json

/-- What the peers answer. -/
structure Outside where
  /-- To a request sent on to a URL, with the hops it may take and whom it counts for. -/
  answer : String → Lookup → Nat → String → Except ForwardError Relayed
  exports : String → Stix.ExportBody → Option Stix.Reply
  listing : Peer → Option (List String)

inductive ItemAnswer
  | found (view : AttributeView)
  | error (e : ApiError)
  | message (text : String)
  /-- What a mirror answered for this item. -/
  | relayed (entry : Json)

inductive Response
  | keyError (e : KeyError)
  | forbidden (message : String)
  | badRequest (message : String)
  | error (e : ApiError)
  | forwardFailed (e : ForwardError)
  | badGateway (unreachable : List String)
  | relayed (answer : Relayed)
  | count (name : String) (count : ValueCount)
  | page (name : String) (page : Page (String × Merge))
  | payload (state : Merge)
  | view (view : AttributeView)
  | listing (attributes : List AttributeView)
  | items (items : List ItemAnswer)
  | bundle (reply : Stix.Reply)
  | names (names : List String)
  | latest (items : List LatestEntry) (limit capacity : Nat)

/-- A server apart from its database: its site, its settings, and what is outside. -/
structure Service where
  site : Site
  settings : StixSettings
  crates : Crates
  weigh : String → String → Nat
  outside : Outside
  latest : Latest
  world : World

namespace Service

variable (service : Service)

/-- The response to send on refusal. -/
def authorize (headers : Headers) (name : String) : Option Response :=
  match service.site.apiKey headers with
  | .error e => some (.keyError e)
  | .ok apikey => (service.site.refusalFor apikey name .read).map .forbidden

/-- What a key sees of the names. -/
def visible (apikey : Option String) (name : String) : Bool :=
  match apikey with
  | none => true
  | some key => service.site.acl.canRead key name

/-! ## Passing on -/

/-- `Galaxy::forward_read`. -/
def forwardRead (galaxy : Galaxy) (name value : String) (lookup : Lookup) (hops : Nat) : Except ForwardError Relayed :=
  if hops = 0 then .error .tooManyHops
  else match galaxy.readerUrl service.weigh name value with
    | .error e => .error e
    | .ok url => service.outside.answer url lookup hops ""

/-- `Galaxy::forward_to`. -/
def forwardTo (galaxy : Galaxy) (url : String) (lookup : Lookup) (hops : Nat) (origin : String) :
    Except ForwardError Relayed :=
  if hops = 0 then .error .tooManyHops
  else if galaxy.enabledPeers.any (·.url = url) then service.outside.answer url lookup hops origin
  else .error (.unreachable (url ++ " is not a configured peer"))

/-- The shadow of a search that is passed on. -/
def recordSearch (name value : String) (db : Database) : Database :=
  db.write service.world (shadowPrefix ++ name) value service.world.now .default

/-! ## One namespace -/

/-- `do_read`, once the key may read the namespace. -/
def answerRead (withStats : Bool) (name : String) (query : ReadQuery) (db : Database) : Database × Response :=
  match doRead name query with
  | .both => (db, .badRequest
      "count applies to a namespace, not to one value. Drop val= to count, or drop count to read the value.")
  | .count name =>
      let (db, count) := db.valueCount service.world name
      (db, match count with
        | some count => .count name count
        | none => .error (.pathNotFound name ""))
  | .page name offset limit =>
      let (db, page) := db.mergePage service.world name offset limit
      (db, match page with
        | some page => .page name page
        | none => .error (.pathNotFound name ""))
  | .payload name value =>
      let (db, payload) := db.mergePayload service.world name value
      (db, match payload with
        | some state => .payload state
        | none => .error (.valueNotFound name value))
  | .value name value withShadow =>
      let (db, result) := SightingDB.read db service.world name value withStats withShadow
      (db, match result with
        | .ok view => .view view
        | .error e => .error e)
  | .listing name =>
      if withStats then (db, .badRequest "Error: val= not found! Use /r/<namespace> to list a whole namespace.")
      else
        let (db, result) := SightingDB.readNamespace db service.world name
        (db, match result with
          | .ok views => .listing views
          | .error e => .error e)

/-- `read` and `read_with_stats`. A read that is passed on leaves its shadow here. -/
def read (headers : Headers) (withStats : Bool) (name : String) (query : ReadQuery) (db : Database) : Database × Response :=
  match service.authorize headers name with
  | some refused => (db, refused)
  | none =>
      match service.site.shouldForward headers name with
      | none => service.answerRead withStats name query db
      | some (_, none) => (db, .forwardFailed .tooManyHops)
      | some (galaxy, some hops) =>
          let db := match query.noshadow, query.val with
            | none, some value => service.recordSearch name value db
            | _, _ => db
          let lookup := .read withStats name { query with noshadow := some (query.noshadow.getD "") }
          (db, match service.forwardRead galaxy name (query.val.getD "") lookup hops with
            | .ok answer => .relayed answer
            | .error e => .forwardFailed e)

/-! ## A batch -/

/-- An item answered here, or left to the mirror at a URL. -/
inductive Placed
  | answered (answer : ItemAnswer)
  | at_ (url : String)

/-- Read one item from this server's own database. -/
def readHere (withStats : Bool) (item : BulkSighting) (db : Database) : Database × ItemAnswer :=
  let (db, result) := SightingDB.read db service.world item.namespace_ item.value withStats (!item.noshadow)
  (db, match result with
    | .ok view => .found view
    | .error e => .error e)

/-- One item of a batch: read here, or found a mirror. -/
def place (withStats : Bool) (hops : Option Nat) (item : BulkSighting) (db : Database) : Database × Placed :=
  match if service.site.elsewhere item.namespace_ then service.site.galaxy else none with
  | none =>
      let (db, answer) := service.readHere withStats item db
      (db, .answered answer)
  | some galaxy =>
      if hops = none then (db, .answered (.message ForwardError.tooManyHops.text))
      else match galaxy.readerUrl service.weigh item.namespace_ item.value with
        | .ok url => (if item.noshadow then db else service.recordSearch item.namespace_ item.value db, .at_ url)
        | .error e => (db, .answered (.message e.text))

/-- Items by the mirror that will serve them, each under its index. -/
def grouped (placed : List Placed) : List (String × List Nat) :=
  placed.zipIdx.foldl (fun groups entry => match entry.1 with
    | .answered _ => groups
    | .at_ url => Network.intoGroup groups url entry.2) []

/-- A sub-batch, asking for no shadow, and what its mirror answers item by item. -/
def fetch (galaxy : Galaxy) (withStats : Bool) (hops : Nat) (origin : String) (items : List BulkSighting)
    (group : String × List Nat) : List (Nat × ItemAnswer) :=
  let sub := group.2.filterMap fun index => items[index]?.map fun item => { item with noshadow := true }
  let parsed := match service.forwardTo galaxy group.1 (.readBulk withStats sub) hops origin with
    | .ok answer => answer.body.bind fun body => (body.get "items").bind Json.asArray
    | .error _ => none
  group.2.zipIdx.map fun entry => (entry.1, match parsed.bind (·[entry.2]?) with
    | some found => .relayed found
    | none => .message ("No answer from " ++ group.1 ++ " for this item."))

/-- `do_read_bulk`. The whole batch is authorized first. -/
def readBulk (headers : Headers) (withStats : Bool) (items : List BulkSighting) (db : Database) : Database × Response :=
  match items.findSome? fun item => service.authorize headers item.namespace_ with
  | some refused => (db, refused)
  | none =>
      let hops := service.site.galaxy.bind fun galaxy => headers.hopsLeft galaxy.maxHops
      let (db, placed) := Steps.each (service.place withStats hops) items db
      let fetched := match service.site.galaxy with
        | none => []
        | some galaxy => (grouped placed).flatMap
            (service.fetch galaxy withStats (hops.getD 0) (service.site.originToSend headers) items)
      (db, .items (placed.zipIdx.map fun entry => match entry.1 with
        | .answered answer => answer
        | .at_ _ => ((fetched.find? (·.1 = entry.2)).map (·.2)).getD (.message "No answer for this item.")))

/-! ## Exports -/

/-- `expand_subtrees`: what is here at or under the names, each once. -/
def expandSubtrees (headers : Headers) (roots : List String) (db : Database) : List String :=
  match service.site.apiKey headers with
  | .error _ => roots
  | .ok apikey => (roots.flatMap fun root => db.namespacesUnder root (service.visible apikey)).foldl
      (fun found name => if name ∈ found then found else found ++ [name]) []

/-- Here and on the mirrors. -/
def reachableSubtrees (headers : Headers) (roots : List String) (db : Database) : List String :=
  let found := service.expandSubtrees headers roots db
  match service.site.galaxy, service.site.apiKey headers with
  | none, _ => found
  | some _, .error _ => found
  | some galaxy, .ok apikey =>
      ((galaxy.namespacesUnder service.outside.listing roots).foldl (fun found name =>
        if isInternal name || !service.visible apikey name || name ∈ found then found else found ++ [name])
        found).insertionSort (· ≤ ·)

/-- An export of what is stored here. -/
def exportHere (untyped : Stix.Untyped) (filter : String) (limit : Nat) (names : List String) (db : Database) :
    Database × Stix.Export :=
  let (db, spent) := db.exportPages service.world filter limit names
  (db, Stix.exportOf service.crates service.settings untyped spent)

/-- `gathered_export`; no response when all is here, or there is nowhere to ask. -/
def gatheredExport (untyped : Stix.Untyped) (filter : String) (limit : Nat) (wanted : List String) (db : Database) :
    Database × Option Response :=
  let (db', own) := service.exportHere untyped filter limit (wanted.filter service.site.stores.holds) db
  match Stix.gatheredExport service.crates service.site service.weigh (fun _ => own) service.outside.exports wanted
      filter limit untyped with
  | none => (db, none)
  | some (.bundle export_) => (db', some (.bundle (Stix.stixResponse export_)))
  | some .notFound => (db', some (.error (.pathNotFound (wanted.headD "") "")))
  | some (.badGateway unreachable) => (db', some (.badGateway unreachable))

/-- What is gathered, or else what is here, answered as the route does. -/
def exportOrGather (untyped : Stix.Untyped) (filter : String) (limit : Nat) (wanted : List String)
    (answer : Stix.Export → Response) (db : Database) : Database × Response :=
  match service.gatheredExport untyped filter limit wanted db with
  | (db, some response) => (db, response)
  | (db, none) =>
      let (db, own) := service.exportHere untyped filter limit wanted db
      (db, answer own)

/-- The bundle's id, put in place of the one it has. -/
def withId (id : String) : Json → Json
  | .obj fields => .obj (fields.map fun field => if field.1 = "id" then ("id", .str id) else field)
  | other => other

/-- `export_value`: a bundle of one value, under an id of its own. -/
def exportValue (untyped : Stix.Untyped) (name value : String) (db : Database) : Database × Option Stix.Export :=
  let (db, view) := db.view service.world name value 0 false
  (db, view.map fun view =>
    let export_ := Stix.bundleOf service.crates [⟨name, [view], service.settings.typeOfNamespace name⟩]
      service.settings.exportAs untyped
    { export_ with
      bundle := withId ("bundle--" ++ service.crates.uuidFor ("bundle:" ++ name ++ ":" ++ value)) export_.bundle })

/-- `export_stix_value`. -/
def exportStixValue (headers : Headers) (name value : String) (query : ExportQuery) (db : Database) :
    Database × Response :=
  if query.recursive.isSome then
    (db, .badRequest "val= names one value in one namespace, so it cannot be combined with recursive.")
  else if value = "" then (db, .error .emptyValue)
  else match service.site.shouldForward headers name with
    | some (_, none) => (db, .forwardFailed .tooManyHops)
    | some (galaxy, some hops) => (db, match service.forwardRead galaxy name value (.stix name query) hops with
        | .ok answer => .relayed answer
        | .error .noHolder => .error (.pathNotFound name value)
        | .error e => .forwardFailed e)
    | none =>
        let (db, found) := service.exportValue query.treatment name value db
        (db, match found with
          | some export_ => .bundle (Stix.stixResponse export_)
          | none => if db.namespaceExists name then .error (.valueNotFound name value)
              else .error (.pathNotFound name value))

/-- `export_stix`. -/
def exportStix (headers : Headers) (name : String) (query : ExportQuery) (db : Database) : Database × Response :=
  match service.authorize headers name with
  | some refused => (db, refused)
  | none =>
      if startsWith name configPrefix then (db, .error .configNamespace)
      else match query.val with
        | some value => service.exportStixValue headers name value query db
        | none =>
            if query.recursive.isSome then
              let wanted := service.reachableSubtrees headers [name] db
              if wanted = [] then (db, .error (.pathNotFound name ""))
              else service.exportOrGather query.treatment "" query.maxValues wanted
                (fun export_ => .bundle (Stix.stixResponse export_)) db
            else service.exportOrGather query.treatment "" query.maxValues [name] (fun export_ =>
              if export_.missing = [] then .bundle (Stix.stixResponse export_) else .error (.pathNotFound name "")) db

/-- `export_stix_api`. -/
def exportStixApi (headers : Headers) (body : Stix.ExportBody) (db : Database) : Database × Response :=
  let wanted := body.request.wanted
  if wanted = [] then (db, .badRequest "Name at least one namespace to export.")
  else match wanted.findSome? fun name =>
      if startsWith name configPrefix then some (.error .configNamespace) else service.authorize headers name with
    | some refused => (db, refused)
    | none =>
        let found := if body.request.recursive then service.reachableSubtrees headers wanted db else wanted
        if found = [] then (db, .error (.pathNotFound (wanted.headD "") ""))
        else service.exportOrGather body.untyped body.q body.maxValues found (fun export_ =>
          if export_.missing.length = found.length then .error (.pathNotFound (found.headD "") "")
          else .bundle (Stix.stixResponse export_)) db

/-! ## Listings -/

/-- `GET /_api/namespaces`. -/
def namespaces (headers : Headers) (start : Option String) (db : Database) : Database × Response :=
  match service.site.apiKey headers with
  | .error e => (db, .keyError e)
  | .ok apikey => (db, .names (db.namespacesUnder (start.getD "") (service.visible apikey)))

/-- `GET /_api/latest`. -/
def latestWrites (headers : Headers) (query : LatestQuery) (db : Database) : Database × Response :=
  match service.site.apiKey headers with
  | .error e => (db, .keyError e)
  | .ok apikey =>
      let limit := max 1 (min (query.limit.getD Latest.defaultLimit) Latest.maxLimit)
      (db, .latest (service.latest.recent limit query.since (query.namespace_.getD "") (service.visible apikey)) limit
        service.latest.capacity)

def respond (headers : Headers) : Lookup → Database → Database × Response
  | .read withStats name query => service.read headers withStats name query
  | .readBulk withStats items => service.readBulk headers withStats items
  | .stix name query => service.exportStix headers name query
  | .stixApi body => service.exportStixApi headers body
  | .namespaces start => service.namespaces headers start
  | .latest query => service.latestWrites headers query

end Service

end SightingDB
