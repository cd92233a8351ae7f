import SightingDB.HopBudget
import SightingDB.Sightings
import SightingDB.Acts

/-!
Writes through a galaxy, from the client's request to every copy that is recorded. A server
handles what it stores and passes the rest on; what it passes on is handled the same way
where it arrives. Rejections, activity and the latest writes are left out.
-/
namespace SightingDB

def ApiError.text : ApiError → String
  | .emptyValue => "Refusing to write an empty value."
  | .internalNamespace name => "'" ++ name ++ "' is an internal namespace and is not writable from outside."
  | .notStored name =>
      "This server does not store '" ++ name ++ "'. Its [storage] namespaces list says what it holds."
  | .configNamespace => "No access to _config namespace from outside!"
  | .valueNotFound _ _ => "Value not found"
  | .pathNotFound _ _ => "Path not found"

def ApiError.status : ApiError → Nat
  | .configNamespace | .internalNamespace _ => 403
  | .notStored _ => 421
  | .valueNotFound _ _ | .pathNotFound _ _ => 404
  | .emptyValue => 400

/-! ## Answers -/

inductive ItemStatus
  | ok
  | error
  deriving DecidableEq

/-- What happened to one item of a bulk write. -/
structure BulkWriteItem where
  index : Nat
  namespace_ : String
  value : String
  status : ItemStatus
  count : Option Nat
  new : Option Bool
  error : Option String
  deriving DecidableEq

structure BulkWriteError where
  namespace_ : String
  value : String
  error : String
  deriving DecidableEq

/-- The verdict on a batch: `ok`, `partial` or `failed`. -/
inductive Verdict
  | ok
  | mixed
  | failed
  deriving DecidableEq

structure BulkWriteResponse where
  message : Verdict
  written : Nat
  items : List BulkWriteItem
  errors : List BulkWriteError
  deriving DecidableEq

inductive Body
  | message (text : String)
  | bulk (response : BulkWriteResponse)
  | written (count : Nat) (new : Bool)
  deriving DecidableEq

structure Reply where
  status : Nat
  body : Body
  deriving DecidableEq

def KeyError.reply : KeyError → Reply
  | .missing => ⟨401, .message "Please add the API key in the Authorization headers."⟩
  | .notUtf8 => ⟨400, .message "Authorization header is not valid UTF-8."⟩

/-- What to answer when a request could not be forwarded. -/
def forwardFailed (e : ForwardError) : Reply :=
  let status := match e with
    | .noHolder => 421
    | .tooManyHops => 508
    | _ => 502
  ⟨status, .message e.text⟩

/-! ## One item -/

/-- One bulk item's fate, decided without touching the database. -/
inductive ItemCheck
  | ok (when : Option DateTime)
  | refused (message : String)
  | invalid (message : String)
  deriving DecidableEq

/-- A timestamp that is given must be a representable instant. -/
def timestampToInstant (timestamp : Option Int) : Except String (Option DateTime) :=
  match timestamp with
  | none => .ok none
  | some ts => match DateTime.fromTimestamp ts with
    | some when => .ok (some when)
    | none => .error ("Timestamp out of range: " ++ toString ts)

def checkItem (site : Site) (db : Database) (apikey : Option String) (item : BulkSighting) : ItemCheck :=
  match site.refusalFor apikey item.namespace_ .write with
  | some message => .refused message
  | none => match check db item.namespace_ item.value with
    | .error e => .invalid e.text
    | .ok () => match timestampToInstant item.timestamp with
      | .ok when => .ok when
      | .error message => .invalid message

/-- What became of an item. -/
inductive Outcome
  | ok (count : Option Nat) (new : Option Bool)
  | refused (message : String)
  | failed (message : String)
  deriving DecidableEq

/-- An item of the request with what became of it. -/
structure Line where
  index : Nat
  item : BulkSighting
  outcome : Outcome
  deriving DecidableEq

namespace Line

def report (line : Line) : BulkWriteItem :=
  match line.outcome with
  | .ok count new => ⟨line.index, line.item.namespace_, line.item.value, .ok, count, new, none⟩
  | .refused message | .failed message =>
      ⟨line.index, line.item.namespace_, line.item.value, .error, none, none, some message⟩

def failure (line : Line) : Option BulkWriteError :=
  match line.outcome with
  | .ok _ _ => none
  | .refused message | .failed message => some ⟨line.item.namespace_, line.item.value, message⟩

def isOk (line : Line) : Bool :=
  match line.outcome with
  | .ok _ _ => true
  | _ => false

def isRefused (line : Line) : Bool :=
  match line.outcome with
  | .refused _ => true
  | _ => false

end Line

/-- The verdict of a server that decided every item itself. A batch that was refused all the
way through is a permission failure. -/
def verdict (lines : List Line) : Nat × Verdict :=
  let errors := lines.filterMap (·.failure)
  if errors.isEmpty then (200, .ok)
  else if 0 < lines.countP (·.isOk) then (200, .mixed)
  else if lines.countP (·.isRefused) = errors.length then (403, .failed)
  else (400, .failed)

/-- The verdict on a batch that was also passed on. -/
def mergedVerdict (lines : List Line) : Nat × Verdict :=
  if (lines.filterMap (·.failure)).isEmpty then (200, .ok)
  else if 0 < lines.countP (·.isOk) then (200, .mixed)
  else (400, .failed)

def bulkReply (verdict : Nat × Verdict) (lines : List Line) : Reply :=
  ⟨verdict.1, .bulk ⟨verdict.2, lines.countP (·.isOk), lines.map (·.report), lines.filterMap (·.failure)⟩⟩

/-! ## The state of a galaxy -/

/-- What becomes of a request on its way: handled and answered, never arrived, or handled
and its answer lost. -/
inductive Fate
  | delivered
  | lost (reason : String)
  | unanswered (reason : String)
  deriving DecidableEq

/-- A galaxy while one request goes through it. A way is the list of the URLs a copy of the
request was sent to, one after the other. -/
structure Traffic extends Network where
  worlds : Nat → World
  fate : List String → Fate

/-- A sighting recorded: where, on which way the request had come, and for which item. -/
structure Record where
  server : Nat
  way : List String
  index : Nat
  deriving DecidableEq

/-- Every server's database, and what has been recorded. -/
structure State (net : Network) where
  dbs : Nat → Database
  log : List Record
  stores : ∀ s, (dbs s).stores = (net.sites s).stores
  node : ∀ s, (dbs s).node = (net.sites s).node

section Config

variable {db : Database} {w : World}

theorem recordWrite_config (origin path value : String) (when : DateTime) (opts : WriteOpts) (tags : String) :
    (db.recordWrite w origin path value when opts tags).1.stores = db.stores ∧
      (db.recordWrite w origin path value when opts tags).1.node = db.node :=
  (recordWrite_moves origin path value when opts tags).config

theorem writeTaggedAs_config (origin : Option String) (name value : String) (when : Option DateTime) (ttl : Option Nat)
    (tags : String) : (writeTaggedAs db w origin name value when ttl tags).1.stores = db.stores ∧
      (writeTaggedAs db w origin name value when ttl tags).1.node = db.node := by
  simp only [writeTaggedAs]
  split
  · exact ⟨rfl, rfl⟩
  · exact recordWrite_config ..

end Config

namespace State

variable {net : Network}

def put (st : State net) (s : Nat) (db : Database)
    (config : db.stores = (st.dbs s).stores ∧ db.node = (st.dbs s).node) : State net where
  dbs := Function.update st.dbs s db
  log := st.log
  stores k := by
    by_cases same : k = s
    · subst same
      simpa using config.1.trans (st.stores k)
    · simpa [same] using st.stores k
  node k := by
    by_cases same : k = s
    · subst same
      simpa using config.2.trans (st.node k)
    · simpa [same] using st.node k

/-- `sighting_writer::write_tagged_as` at a server. -/
def record (st : State net) (w : World) (s : Nat) (way : List String) (origin : Option String) (index : Nat)
    (item : BulkSighting) (when : Option DateTime) : State net × Except ApiError Written :=
  let result := writeTaggedAs (st.dbs s) w origin item.namespace_ item.value when item.ttl item.tags
  let st := st.put s result.1 (writeTaggedAs_config ..)
  match result.2 with
  | .ok written => ({ st with log := st.log ++ [⟨s, way, index⟩] }, .ok written)
  | .error e => (st, .error e)

/-- A value counted in a server's own tally. -/
def tallyUp (st : State net) (w : World) (s : Nat) (value : String) : State net :=
  st.put s ((st.dbs s).write w allNamespace value w.now .default) (recordWrite_config ..)

end State

/-! ## Handlers -/

/-- A write request: `/w` or `/wb`. -/
inductive Call
  | write (name : String) (query : WriteQuery)
  | writeBulk (items : List BulkSighting)
  deriving DecidableEq

def Call.ask : Call → Ask
  | .write name query => .write name query
  | .writeBulk items => .writeBulk items

/-- The item of a single write. -/
def WriteQuery.item (query : WriteQuery) (name value : String) : BulkSighting :=
  ⟨name, value, query.timestamp, query.ttl, query.tags.getD "", false⟩

namespace Traffic

variable (net : Traffic) (s : Nat) (way : List String) (headers : Headers)

/-- A batch is worked through in order. -/
def eachItem {σ : Type} (step : Nat → BulkSighting → σ → σ × Outcome) :
    Nat → List BulkSighting → σ → σ × List Line
  | _, [], st => (st, [])
  | index, item :: rest, st =>
      let (st, outcome) := step index item st
      let (st, lines) := eachItem step (index + 1) rest st
      (st, ⟨index, item, outcome⟩ :: lines)

/-- An item this server decides: recorded if it passes. -/
def writeItem (apikey : Option String) (index : Nat) (item : BulkSighting) (st : State net.toNetwork) :
    State net.toNetwork × Outcome :=
  match checkItem (net.sites s) (st.dbs s) apikey item with
  | .ok when =>
      match st.record (net.worlds s) s way headers.originOf index item when with
      | (st, .ok done) => (st, .ok (some done.count) (some done.new))
      | (st, .error e) => (st, .failed e.text)
  | .refused message => (st, .refused message)
  | .invalid message => (st, .failed message)

/-- An item of someone else's: taken from the first mirror that accepted it, and counted in
this server's tally if it was new there. -/
def mergeItem (peerItems : List (List BulkWriteItem)) (index : Nat) (item : BulkSighting) (st : State net.toNetwork) :
    State net.toNetwork × Outcome :=
  let entries := peerItems.filterMap (·[index]?)
  match entries.find? (·.status = .ok) with
  | some entry =>
      let st := if entry.new = some true && countsTowardsConsensus entry.namespace_ then
          st.tallyUp (net.worlds s) s entry.value
        else st
      (st, .ok entry.count entry.new)
  | none =>
      let message := if (net.sites s).galaxy.any fun galaxy => (galaxy.holders item.namespace_).isEmpty then
          ForwardError.noHolder.text
        else (entries.findSome? (·.error)).getD "no server holding this namespace accepted it"
      (st, .failed message)

/-- Combine what this server wrote with what the mirrors said. -/
def mergedBatch (apikey : Option String) (items : List BulkSighting) (answers : List (String × Reply))
    (st : State net.toNetwork) : State net.toNetwork × Reply :=
  let peerItems := answers.filterMap fun answer => match answer.2.body with
    | .bulk response => some response.items
    | _ => none
  let (st, lines) := eachItem (fun index item st =>
    if (net.sites s).stores.holds item.namespace_ || isInternal item.namespace_ then
      net.writeItem s way headers apikey index item st
    else net.mergeItem s peerItems index item st) 0 items st
  (st, bulkReply (mergedVerdict lines) lines)

/-- Sending a request to a peer: the state after, and the answer. -/
abbrev Post (net : Traffic) := Peer → Headers → State net.toNetwork → State net.toNetwork × Except ForwardError Reply

variable {net}

/-- Send to one peer after the other: the answers, and the last error. -/
def postAll (post : Post net) (hops : Nat) (origin : String) :
    List Peer → State net.toNetwork → State net.toNetwork × List (String × Reply) × Option ForwardError
  | [], st => (st, [], none)
  | peer :: rest, st =>
      let (st, answer) := post peer (.sent peer hops origin) st
      let (st, answers, error) := postAll post hops origin rest st
      match answer with
      | .ok answer => (st, (peer.url, answer) :: answers, error)
      | .error e => (st, answers, some (error.getD e))

/-- `Galaxy::forward_batch`: the whole batch to every live peer that holds any part of it. -/
def forwardBatch (post : Post net) (galaxy : Galaxy) (names : List String) (hops : Nat) (origin : String)
    (st : State net.toNetwork) : State net.toNetwork × Except ForwardError (List (String × Reply)) :=
  if hops = 0 then (st, .error .tooManyHops)
  else
    let wanted := galaxy.wanted names
    if wanted.isEmpty then (st, .error .noHolder)
    else
      let (st, answers, error) := postAll post hops origin wanted st
      if answers.isEmpty then (st, .error (error.getD .noHolder)) else (st, .ok answers)

/-- `Galaxy::forward_write`: to every live mirror of the namespace. -/
def forwardWrite (post : Post net) (galaxy : Galaxy) (name : String) (hops : Nat) (origin : String)
    (st : State net.toNetwork) : State net.toNetwork × Except ForwardError (List (String × Reply)) :=
  if hops = 0 then (st, .error .tooManyHops)
  else if (galaxy.holders name).isEmpty then (st, .error .noHolder)
  else if (galaxy.liveHolders name).isEmpty then (st, .error (.allDown name))
  else
    let (st, answers, error) := postAll post hops origin (galaxy.liveHolders name) st
    if answers.isEmpty then (st, .error (error.getD (.allDown name))) else (st, .ok answers)

/-- `write_bulk`. -/
def writeBulk (post : Post net) (items : List BulkSighting) (st : State net.toNetwork) : State net.toNetwork × Reply :=
  match (net.sites s).apiKey headers with
  | .error e => (st, e.reply)
  | .ok apikey =>
      let names := (items.map (·.namespace_)).filter (net.sites s).elsewhere
      match names, (net.sites s).galaxy with
      | _ :: _, some galaxy =>
          match headers.hopsLeft galaxy.maxHops with
          | none => (st, forwardFailed .tooManyHops)
          | some hops =>
              match forwardBatch post galaxy names hops ((net.sites s).originToSend headers) st with
              | (st, .error e) => (st, forwardFailed e)
              | (st, .ok answers) => net.mergedBatch s way headers apikey items answers st
      | _, _ =>
          let (st, lines) := eachItem (net.writeItem s way headers apikey) 0 items st
          (st, bulkReply (verdict lines) lines)

/-- `validate_bulk`: what `write_bulk` says of its own items, with nothing recorded. -/
def validateBulk (items : List BulkSighting) (st : State net.toNetwork) : State net.toNetwork × Reply :=
  match (net.sites s).apiKey headers with
  | .error e => (st, e.reply)
  | .ok apikey =>
      let (st, lines) := eachItem (fun _ item (st : State net.toNetwork) =>
        (st, match checkItem (net.sites s) (st.dbs s) apikey item with
          | .ok _ => .ok none none
          | .refused message => .refused message
          | .invalid message => .failed message)) 0 items st
      (st, bulkReply (verdict lines) lines)

/-- Count a forwarded write in this server's own tally, if it was new where it was taken. -/
def noteConsensus (name value : String) (answer : Reply) (st : State net.toNetwork) : State net.toNetwork :=
  match answer.body with
  | .written _ true => if countsTowardsConsensus name then st.tallyUp (net.worlds s) s value else st
  | _ => st

/-- `write`. -/
def write (post : Post net) (name : String) (query : WriteQuery) (st : State net.toNetwork) :
    State net.toNetwork × Reply :=
  match (net.sites s).apiKey headers with
  | .error e => (st, e.reply)
  | .ok apikey =>
      match (net.sites s).refusalFor apikey name .write, query.val with
      | some message, _ => (st, ⟨403, .message message⟩)
      | none, none => (st, ⟨400, .message "Did not receive a val= argument in the query string."⟩)
      | none, some value =>
          match (net.sites s).shouldForward headers name with
          | some (_, none) => (st, forwardFailed .tooManyHops)
          | some (galaxy, some hops) =>
              match forwardWrite post galaxy name hops ((net.sites s).originToSend headers) st with
              | (st, .error e) => (st, forwardFailed e)
              | (st, .ok answers) =>
                  match answers.find? fun answer => 200 ≤ answer.2.status && answer.2.status < 300 with
                  | some (_, answer) => (noteConsensus s name value answer st, answer)
                  | none => (st, forwardFailed (.allDown name))
          | none =>
              match timestampToInstant query.timestamp with
              | .error message => (st, ⟨400, .message message⟩)
              | .ok when =>
                  match st.record (net.worlds s) s way headers.originOf 0 (query.item name value) when with
                  | (st, .ok done) => (st, ⟨200, .written done.count done.new⟩)
                  | (st, .error e) => (st, ⟨e.status, .message e.text⟩)

variable (net)

/-- What becomes of a request sent to a URL. -/
def deliver (way : List String) (url : String)
    (handle : Nat → State net.toNetwork → State net.toNetwork × Reply) (st : State net.toNetwork) :
    State net.toNetwork × Except ForwardError Reply :=
  match net.fate way, net.urls url with
  | .lost reason, _ => (st, .error (.unreachable reason))
  | _, none => (st, .error (.unreachable "no such server"))
  | .delivered, some server =>
      let (st, reply) := handle server st
      (st, .ok reply)
  | .unanswered reason, some server => ((handle server st).1, .error (.unreachable reason))

/-- A server handles a request, and the servers it is passed on to do the same. A request
with `n` hops left needs `n + 1` turns at most. -/
def serve (call : Call) : Nat → Nat → List String → Headers → State net.toNetwork → State net.toNetwork × Reply
  | 0, _, _, _, st => (st, forwardFailed .tooManyHops)
  | turns + 1, s, way, headers, st =>
      let post : Post net := fun peer headers st =>
        net.deliver (way ++ [peer.url]) peer.url
          (fun server st => serve call turns server (way ++ [peer.url]) headers st) st
      match call with
      | .write name query => write s way headers post name query st
      | .writeBulk items => writeBulk s way headers post items st

/-- A client's request to a server, with as many turns as its hops can take. -/
def request (call : Call) (headers : Headers) (st : State net.toNetwork) : State net.toNetwork × Reply :=
  net.serve call (net.hopLimit s + 1) s [] headers st

/-! ## Turns -/

section Turns

variable {net} {call : Call} {turns s hops : Nat} {way : List String} {headers : Headers} {st : State net.toNetwork}
  {post post' : Post net} {origin : String}

theorem postAll_congr (same : ∀ peer st, post peer (.sent peer hops origin) st = post' peer (.sent peer hops origin) st)
    (peers : List Peer) : postAll post hops origin peers st = postAll post' hops origin peers st := by
  induction peers generalizing st with
  | nil => rfl
  | cons peer rest ih => simp only [postAll, same, ih]

/-- Two ways of sending that agree on what is sent with the hops a request has left. -/
def Agree (post post' : Post net) (hops : Nat) : Prop :=
  hops ≠ 0 → ∀ peer origin st, post peer (.sent peer hops origin) st = post' peer (.sent peer hops origin) st

theorem forwardBatch_congr (agree : Agree post post' hops) (galaxy : Galaxy) (names : List String) :
    forwardBatch post galaxy names hops origin st = forwardBatch post' galaxy names hops origin st := by
  by_cases none : hops = 0
  · simp [forwardBatch, none]
  · simp only [forwardBatch, postAll_congr fun peer st => agree none peer origin st]

theorem forwardWrite_congr (agree : Agree post post' hops) (galaxy : Galaxy) (name : String) :
    forwardWrite post galaxy name hops origin st = forwardWrite post' galaxy name hops origin st := by
  by_cases none : hops = 0
  · simp [forwardWrite, none]
  · simp only [forwardWrite, postAll_congr fun peer st => agree none peer origin st]

theorem writeBulk_congr (agree : Agree post post' ((headers.hopsLeft (net.hopLimit s)).getD 0)) (items : List BulkSighting) :
    writeBulk s way headers post items st = writeBulk s way headers post' items st := by
  simp only [writeBulk]
  split
  · rfl
  · split
    · rename_i galaxy _ known
      split
      · rfl
      · rename_i hops left
        have given : (headers.hopsLeft (net.hopLimit s)).getD 0 = hops := by
          simp [Network.hopLimit, known, left]
        rw [given] at agree
        rw [forwardBatch_congr agree]
    · rfl

theorem write_congr (agree : Agree post post' ((headers.hopsLeft (net.hopLimit s)).getD 0)) (name : String)
    (query : WriteQuery) : write s way headers post name query st = write s way headers post' name query st := by
  simp only [write]
  split
  · rfl
  · split
    · rfl
    · rfl
    · split
      · rfl
      · rename_i galaxy hops decided
        rw [Network.shouldForward_hops decided] at agree
        rw [forwardWrite_congr agree]
      · rfl

/-- More turns than the hops can take change nothing. -/
theorem serve_turns (enough : (headers.hopsLeft (net.hopLimit s)).getD 0 < turns) :
    net.serve call (turns + 1) s way headers st = net.serve call turns s way headers st := by
  induction turns generalizing s way headers st with
  | zero => cases enough
  | succ turns ih =>
      -- A copy has one hop less left than the request.
      have agree : @Agree net
          (fun peer headers st => net.deliver (way ++ [peer.url]) peer.url
            (fun server st => net.serve call (turns + 1) server (way ++ [peer.url]) headers st) st)
          (fun peer headers st => net.deliver (way ++ [peer.url]) peer.url
            (fun server st => net.serve call turns server (way ++ [peer.url]) headers st) st)
          ((headers.hopsLeft (net.hopLimit s)).getD 0) := by
        intro some_ peer origin st
        dsimp only
        congr 1
        funext server st
        refine ih ?_
        rw [@Headers.hopsLeft_of_left (.sent peer _ origin) _ rfl]
        omega
      cases call with
      | write name query => exact write_congr agree name query
      | writeBulk items => exact writeBulk_congr agree items

end Turns

end Traffic

end SightingDB
