import SightingDB.Galaxy
import SightingDB.Database

/-!
What a server passes on. Every route that forwards decides from the same things: who asks,
what this server stores, which peers it knows, and how many hops the request has left. Each
gets that last number in its own way.
-/
namespace SightingDB

/-- One sighting of a batch. -/
structure BulkSighting where
  namespace_ : String
  value : String
  timestamp : Option Int
  ttl : Option Nat
  tags : String
  noshadow : Bool
  deriving DecidableEq

structure WriteQuery where
  val : Option String
  timestamp : Option Int
  ttl : Option Nat
  tags : Option String
  deriving DecidableEq

structure ExportRequest where
  namespaces : List String
  namespace_ : Option String
  recursive : Bool
  deriving DecidableEq

/-- The namespaces named, each once. -/
def ExportRequest.wanted (body : ExportRequest) : List String :=
  (body.namespace_.toList ++ body.namespaces).foldl (fun wanted raw =>
    let name := trimSlashes (trim raw)
    if name ≠ "" ∧ name ∉ wanted then wanted ++ [name] else wanted) []

/-- The requests that may be passed on, and the listing one server asks another for. -/
inductive Ask
  /-- `/r`, and `/rs` with statistics. -/
  | read (stats : Bool) (name : String) (val : Option String) (noshadow : Bool)
  | write (name : String) (query : WriteQuery)
  /-- `/rb`, and `/rbs` with statistics. -/
  | readBulk (stats : Bool) (items : List BulkSighting)
  | writeBulk (items : List BulkSighting)
  | stix (name : String) (val : Option String) (recursive : Bool)
  | stixApi (body : ExportRequest)
  | namespaces
  deriving DecidableEq

/-- A server as the handlers see it, its data apart. -/
structure Site where
  stores : StoragePolicy
  node : String
  authenticate : Bool
  acl : Acl
  galaxy : Option Galaxy

/-! ## Authorization -/

/-- What is wrong with the key on a request. -/
inductive KeyError
  | missing
  | notUtf8
  deriving DecidableEq

namespace Site

variable (site : Site)

/-- The key on a request; `none` when authentication is switched off. -/
def apiKey (headers : Headers) : Except KeyError (Option String) :=
  if !site.authenticate then .ok none
  else match headers.authorization with
    | none => .error .missing
    | some none => .error .notUtf8
    | some (some key) => .ok (some key)

/-- Why a key may not reach a namespace, or `none` if it may. -/
def refusalFor (apikey : Option String) (name : String) (access : Access) : Option String :=
  match apikey with
  | none => none
  | some key =>
      let allowed := match access with
        | .read => site.acl.canRead key name
        | .write => site.acl.canWrite key name
      if allowed then none
      else some ("API key is not permitted to " ++ access.verb ++ " this namespace.")

def authorized (headers : Headers) (name : String) (access : Access) : Bool :=
  match site.apiKey headers with
  | .error _ => false
  | .ok apikey => (site.refusalFor apikey name access).isNone

/-! ## Forwarding -/

/-- Not stored here, and not this server's own. -/
def elsewhere (name : String) : Bool := !site.stores.holds name && !isInternal name

/-- Who a write about to be forwarded should be counted for. -/
def originToSend (headers : Headers) : String := headers.originOf.getD site.node

/-- The galaxy to pass a request for a namespace to, and the hops it may take; `none` to
handle it here. -/
def shouldForward (headers : Headers) (name : String) : Option (Galaxy × Option Nat) :=
  if site.stores.holds name then none
  else match site.galaxy with
    | none => none
    | some galaxy => if isInternal name then none else some (galaxy, headers.hopsLeft galaxy.maxHops)

end Site

/-- A request on its way to a peer, and the hops it had left when it was sent. -/
structure Posted where
  url : String
  headers : Headers
  ask : Ask
  hops : Nat
  deriving DecidableEq

/-- The servers, and what stays outside the model: how a value is weighed against a peer,
what is in each server's catalogue, and what its peers answer when asked for theirs. -/
structure Network where
  sites : Nat → Site
  urls : String → Option Nat
  weigh : String → String → Nat
  catalogue : Nat → List String
  listing : Nat → String → List String

namespace Network

variable (net : Network) (s : Nat)

/-- `Galaxy::send`. -/
def send (peer : Peer) (ask : Ask) (hops : Nat) (origin : String) : Posted :=
  ⟨peer.url, .sent peer hops origin, ask, hops⟩

/-- `Galaxy::forward_read`. -/
def forwardRead (galaxy : Galaxy) (name value : String) (ask : Ask) (hops : Nat) : List Posted :=
  if hops = 0 then []
  else match galaxy.readerFor net.weigh name value with
    | none => []
    | some peer => [send peer ask hops ""]

/-- `Galaxy::forward_to`. -/
def forwardTo (galaxy : Galaxy) (url : String) (ask : Ask) (hops : Nat) (origin : String) : List Posted :=
  if hops = 0 then []
  else match galaxy.enabledPeers.find? (·.url = url) with
    | none => []
    | some peer => [send peer ask hops origin]

/-- `Galaxy::forward_write`. -/
def forwardWrite (galaxy : Galaxy) (name : String) (ask : Ask) (hops : Nat) (origin : String) : List Posted :=
  if hops = 0 then [] else (galaxy.liveHolders name).map fun peer => send peer ask hops origin

/-- `Galaxy::forward_batch`. -/
def forwardBatch (galaxy : Galaxy) (names : List String) (ask : Ask) (hops : Nat) (origin : String) : List Posted :=
  if hops = 0 then [] else (galaxy.wanted names).map fun peer => send peer ask hops origin

/-- A single read, or one value's export: passed to the mirror chosen for the value. -/
def readForwards (headers : Headers) (name value : String) (ask : Ask) : List Posted :=
  match (net.sites s).shouldForward headers name with
  | some (galaxy, some hops) => net.forwardRead galaxy name value ask hops
  | _ => []

/-- Put a member into the group of its URL. -/
def intoGroup {α : Type} (groups : List (String × List α)) (url : String) (member : α) : List (String × List α) :=
  if groups.any (·.1 = url) then
    groups.map fun group => if group.1 = url then (group.1, group.2 ++ [member]) else group
  else groups ++ [(url, [member])]

/-- `do_read_bulk`: one sub-batch for each mirror, asking for no shadow. -/
def readBulkForwards (headers : Headers) (stats : Bool) (items : List BulkSighting) : List Posted :=
  match (net.sites s).galaxy with
  | none => []
  | some galaxy =>
      match headers.hopsLeft galaxy.maxHops with
      | none => []
      | some hops =>
          let grouped := items.foldl (fun grouped item =>
            if (net.sites s).elsewhere item.namespace_ then
              match galaxy.readerUrl net.weigh item.namespace_ item.value with
              | .ok url => intoGroup grouped url item
              | .error _ => grouped
            else grouped) []
          grouped.flatMap fun group => forwardTo galaxy group.1
            (.readBulk stats (group.2.map fun item => { item with noshadow := true })) hops
            ((net.sites s).originToSend headers)

/-- `gathered_export`: each mirror is asked for the namespaces it holds. -/
def gatheredExport (wanted : List String) : List Posted :=
  match (net.sites s).galaxy with
  | none => []
  | some galaxy =>
      let grouped := (wanted.filter (net.sites s).elsewhere).foldl (fun grouped name =>
        match galaxy.readerUrl net.weigh name "" with
        | .ok url => intoGroup grouped url name
        | .error _ => grouped) []
      grouped.flatMap fun group => forwardTo galaxy group.1 (.stixApi ⟨group.2, none, false⟩) galaxy.maxHops ""

/-- Whether a name is at or under one of several, the empty one being above all. -/
def isUnder (roots : List String) (name : String) : Bool :=
  roots.any fun root => trimSlashes root = "" || StoragePolicy.isAtOrUnder name (trimSlashes root)

/-- `Galaxy::namespaces_of`: every peer is asked, with a hop of its own. -/
def listingForwards : List Posted :=
  match (net.sites s).galaxy with
  | none => []
  | some galaxy => galaxy.enabledPeers.map fun peer => send peer .namespaces 1 ""

/-- `reachable_subtrees`: what is under the names, here and on the mirrors, that the key may
read. -/
def reachableSubtrees (headers : Headers) (roots : List String) : List String :=
  match (net.sites s).apiKey headers with
  | .error _ => roots
  | .ok apikey =>
      let allowed name := ((net.sites s).refusalFor apikey name .read).isNone
      let here := (net.catalogue s).filter fun name => !isInternal name && isUnder roots name && allowed name
      let there := match (net.sites s).galaxy with
        | none => []
        | some galaxy => (galaxy.enabledPeers.flatMap fun peer => net.listing s peer.url).filter fun name =>
            isUnder roots name && !isInternal name && allowed name
      ((here ++ there).foldl (fun names name => OrderedMap.insert names name ()) ∅).keys

/-- Everything a server sends on for a request. -/
def forwards (headers : Headers) : Ask → List Posted
  | .read stats name val _ =>
      if (net.sites s).authorized headers name .read then
        net.readForwards s headers name (val.getD "") (.read stats name val true)
      else []
  | .write name query =>
      if (net.sites s).authorized headers name .write && query.val.isSome then
        match (net.sites s).shouldForward headers name with
        | some (galaxy, some hops) =>
            forwardWrite galaxy name (.write name query) hops ((net.sites s).originToSend headers)
        | _ => []
      else []
  | .readBulk stats items =>
      if items.all fun item => (net.sites s).authorized headers item.namespace_ .read then
        net.readBulkForwards s headers stats items
      else []
  | .writeBulk items =>
      match (net.sites s).apiKey headers, (net.sites s).galaxy with
      | .ok _, some galaxy =>
          let names := (items.map (·.namespace_)).filter (net.sites s).elsewhere
          match names, headers.hopsLeft galaxy.maxHops with
          | _ :: _, some hops =>
              forwardBatch galaxy names (.writeBulk items) hops ((net.sites s).originToSend headers)
          | _, _ => []
      | _, _ => []
  | .stix name val recursive =>
      if !(net.sites s).authorized headers name .read || startsWith name configPrefix then []
      else match val with
        | some value =>
            if recursive || value = "" then []
            else net.readForwards s headers name value (.stix name val recursive)
        | none =>
            if recursive then net.listingForwards s ++ net.gatheredExport s (net.reachableSubtrees s headers [name])
            else net.gatheredExport s [name]
  | .stixApi body =>
      if body.wanted.isEmpty || body.wanted.any fun name =>
          startsWith name configPrefix || !(net.sites s).authorized headers name .read then []
      else if body.recursive then
        net.listingForwards s ++ net.gatheredExport s (net.reachableSubtrees s headers body.wanted)
      else net.gatheredExport s body.wanted
  | .namespaces => []

end Network

end SightingDB
