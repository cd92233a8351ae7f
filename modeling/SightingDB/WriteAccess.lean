import SightingDB.Deliveries
import SightingDB.Durability
import SightingDB.KeyChanges
import SightingDB.ReadRoutes
import SightingDB.SnapshotText

/-!
Every request that reaches what is stored, as one server handles it: those of the data interface
and those the browser makes of the management interface. What the peers answer is a parameter.
A namespace changes only for a key that may write it. Rejections, activity and the latest writes
are left out.
-/
namespace SightingDB

/-! ## Requests -/

/-- Tidy a namespace typed by a person. -/
def cleanNamespace (typed : String) : Except Refusal String :=
  let cleaned := joinWith '/' (((splitOnChar '/' typed).map trim).filter (· ≠ ""))
  if cleaned = "" then .error ⟨400, "A namespace needs a name."⟩
  else match validateNamespace cleaned with
    | .error e => .error ⟨400, e⟩
    | .ok () => .ok cleaned

structure NewValues where
  namespace_ : String
  values : List String
  timestamp : Option Int
  ttl : Option Nat
  tags : String
  deriving DecidableEq

structure TagChange where
  namespace_ : String
  value : String
  tags : String
  deriving DecidableEq

inductive Errand
  | lookup (lookup : Lookup)
  | write (name : String) (query : WriteQuery)
  | writeBulk (items : List BulkSighting)
  | validateBulk (items : List BulkSighting)
  /-- `/_api/merge`: for each item its namespace, its value and the peer's copy. -/
  | merge (items : List (String × String × Merge))
  | delete (name : String)
  | createNamespace (typed : String)
  | addValues (body : NewValues)
  | setTags (change : TagChange)

/-- Whether it is the management interface that is asked. It demands a key whatever the settings. -/
def Errand.managed : Errand → Bool
  | .createNamespace _ | .addValues _ | .setTags _ => true
  | _ => false

/-- Whether the key on a request may write a namespace. -/
def Site.mayWrite (site : Site) (headers : Headers) (managed : Bool) (name : String) : Bool :=
  if managed then match requireAdmin site.acl headers.authorization with
    | .ok key => site.acl.canWrite key name
    | .error _ => false
  else site.authorized headers name .write

/-! ## Answers -/

structure MergeResult where
  index : Nat
  namespace_ : String
  value : String
  status : ItemStatus
  changed : Option Bool
  count : Option Nat
  ignoredSelf : Option Nat
  error : Option String
  deriving DecidableEq

structure MergeResponse where
  message : Verdict
  changed : Nat
  items : List MergeResult
  errors : List BulkWriteError
  deriving DecidableEq

/-- What `add_values` did, value by value. -/
structure WriteReport where
  namespace_ : String
  written : Nat
  counts : List (String × Written)
  errors : List (String × String)
  deriving DecidableEq

structure MirrorOutcome where
  url : String
  ok : Bool
  error : Option String
  deriving DecidableEq

inductive Answered
  | response (response : Response)
  | reply (reply : Reply)
  | refused (refusal : Refusal)
  | relayed (answer : Relayed)
  | merged (status : Nat) (response : MergeResponse)
  | created (name : String)
  | added (status : Nat) (report : WriteReport)
  | tagged (view : AttributeView) (mirrors : Option (List MirrorOutcome))

/-- What the peers make of what this server sends them for a request that changes something. -/
structure Abroad where
  /-- How JSON is read. -/
  json : JsonCodec
  /-- A write passed on, to a peer under the headers it goes out with. -/
  passed : Peer → Headers → Except ForwardError Reply
  /-- A value asked for by its path. -/
  fetched : String → String → Nat → Except ForwardError Relayed
  /-- What is said of an answer that cannot be read. -/
  unreadable : Relayed → String
  /-- A copy pushed to `/_api/merge`. -/
  pushed : Peer → String → String → Merge → Except String Unit

namespace Service

variable (service : Service) (abroad : Abroad) (headers : Headers) (db : Database)

/-! ## Writing -/

/-- What a server stores and what it is called its database says. -/
def storing : Service := { service with site := { service.site with stores := db.stores, node := db.node } }

/-- This server by itself. -/
def standing : Traffic where
  sites _ := (service.storing db).site
  urls _ := none
  weigh := service.weigh
  catalogue _ := []
  listing _ _ := []
  worlds _ := service.world
  fate _ := .delivered

def standing.state : State (service.standing db).toNetwork := ⟨fun _ => db, [], fun _ => rfl, fun _ => rfl⟩

/-- Nothing a peer does with what it is sent is done here. -/
def standing.post : Traffic.Post (service.standing db) := fun peer headers st => (st, abroad.passed peer headers)

/-- `write`. -/
def write (name : String) (query : WriteQuery) : Database × Answered :=
  let (st, reply) := Traffic.write 0 [] headers (standing.post service abroad db) name query (standing.state service db)
  (st.dbs 0, .reply reply)

/-- `write_bulk`. -/
def writeBulk (items : List BulkSighting) : Database × Answered :=
  let (st, reply) := Traffic.writeBulk 0 [] headers (standing.post service abroad db) items (standing.state service db)
  (st.dbs 0, .reply reply)

/-- `validate_bulk`. -/
def validateBulk (items : List BulkSighting) : Database × Answered :=
  let (st, reply) := Traffic.validateBulk 0 headers items (standing.state service db)
  (st.dbs 0, .reply reply)

/-! ## Merging -/

/-- One item of a merge, and whether it was the key that was refused. -/
def mergeItem (apikey : Option String) (entry : (String × String × Merge) × Nat) (db : Database) :
    Database × MergeResult × Bool :=
  let ((name, value, state), index) := entry
  let turnedDown message : MergeResult := ⟨index, name, value, .error, none, none, none, some message⟩
  match service.site.refusalFor apikey name .write with
  | some message => (db, turnedDown message, true)
  | none => match check db name value with
    | .error e => (db, turnedDown e.text, false)
    | .ok () =>
        let (db, outcome) := db.merge service.world name value state
        (db, ⟨index, name, value, .ok, some outcome.changed, some outcome.count, some outcome.ignoredSelf, none⟩, false)

/-- `merge`. -/
def merge (items : List (String × String × Merge)) : Database × Answered :=
  match service.site.apiKey headers with
  | .error e => (db, .reply e.reply)
  | .ok apikey =>
      let (db, results) := Steps.each (service.mergeItem apikey) items.zipIdx db
      let errors := results.filterMap fun r => r.1.error.map fun message => ⟨r.1.namespace_, r.1.value, message⟩
      let (status, message) :=
        if errors.length = 0 then (200, Verdict.ok)
        else if 0 < items.length - errors.length then (200, .mixed)
        else if results.countP (·.2) = errors.length then (403, .failed)
        else (400, .failed)
      (db, .merged status ⟨message, results.countP (·.1.changed = some true), results.map (·.1), errors⟩)

/-- `delete`. -/
def delete (name : String) : Database × Answered :=
  match service.site.apiKey headers with
  | .error e => (db, .reply e.reply)
  | .ok apikey => match service.site.refusalFor apikey name .write with
    | some message => (db, .reply ⟨403, .message message⟩)
    | none =>
        if isInternal name then (db, .response (.error (.internalNamespace name)))
        else match db.delete service.world name with
          | (db, true) => (db, .reply ⟨200, .message "ok"⟩)
          | (db, false) => (db, .response (.error (.pathNotFound name "")))

/-! ## The management interface -/

/-- `require_admin`, `clean_namespace` and `require_write`, one after the other. -/
def admitted (typed : String) : Except Refusal String :=
  match requireAdmin service.site.acl headers.authorization with
  | .error e => .error e
  | .ok key => match cleanNamespace typed with
    | .error e => .error e
    | .ok name =>
        if service.site.acl.canWrite key name then .ok name
        else .error ⟨403, "That key is not permitted to write to '" ++ name ++ "'."⟩

/-- `create_namespace`. -/
def createNamespace (typed : String) : Database × Answered :=
  match service.admitted headers typed with
  | .error e => (db, .refused e)
  | .ok name => match db.createNamespace service.world name with
    | (db, true) => (db, .created name)
    | (db, false) => (db, .refused ⟨409, "'" ++ name ++ "' already exists."⟩)

/-- One value of `add_values`. -/
def addValue (name : String) (when : Option DateTime) (ttl : Option Nat) (tags value : String) (db : Database) :
    Database × String × Except ApiError Written :=
  let (db, result) := writeTaggedAs db service.world none name value when ttl tags
  (db, value, result)

/-- `add_values`. -/
def addValues (body : NewValues) : Database × Answered :=
  match service.admitted headers body.namespace_ with
  | .error e => (db, .refused e)
  | .ok name => match timestampToInstant body.timestamp with
    | .error message => (db, .refused ⟨400, message⟩)
    | .ok when =>
        let values := (body.values.map trim).filter (· ≠ "")
        if values = [] then (db, .refused ⟨400, "No values to add."⟩)
        else
          let (db, results) := Steps.each (service.addValue name when body.ttl body.tags) values db
          let counts := results.filterMap fun r => r.2.toOption.map fun written => (r.1, written)
          let errors := results.filterMap fun r => match r.2 with
            | .ok _ => none
            | .error e => some (r.1, e.text)
          (db, .added (if counts.length = 0 then 400 else 200) ⟨name, counts.length, counts, errors⟩)

/-- A body as a copy of a value. -/
def asPayload (json : JsonCodec) : Json → Option Merge
  | .obj fields => Serde.asState json fields
  | _ => none

/-- `retagged_elsewhere`: a mirror's copy of a value, with the tags it is to have. -/
def retaggedElsewhere (name : String) (change : TagChange) : Except Answered Merge :=
  match service.site.galaxy with
  | none => .error (.refused ⟨404, "No such value."⟩)
  | some galaxy =>
      let path := "/r/" ++ name ++ "?val=" ++ urlencodingOf change.value ++ "&noshadow&for_merge"
      match (galaxy.readerUrl service.weigh name change.value).bind fun url => abroad.fetched url path galaxy.maxHops with
      | .error e => .error (.refused ⟨502, "Could not reach a mirror holding '" ++ name ++ "': " ++ e.text⟩)
      | .ok answer =>
          if 200 ≤ answer.status ∧ answer.status < 300 then match answer.body.bind (asPayload abroad.json) with
            | some payload => .ok { payload with tags := change.tags, tagsAt := service.world.now.timestampMillis }
            | none => .error (.refused ⟨502, "A mirror answered unreadably: " ++ abroad.unreadable answer⟩)
          else .error (.relayed answer)

/-- `spread_tags`: nothing to report where there is no one to offer it to. -/
def spreadTags (name value : String) (payload : Merge) : Option (List MirrorOutcome) :=
  service.site.galaxy.bind fun galaxy =>
    let outcomes := (galaxy.liveHolders name).map fun peer => match abroad.pushed peer name value payload with
      | .ok () => ⟨peer.url, true, none⟩
      | .error e => ⟨peer.url, false, some e⟩
    if outcomes = [] then none else some outcomes

/-- `view_of`. -/
def viewOf (value : String) (payload : Merge) (consensus : Nat) : AttributeView where
  value := value
  firstSeen := payload.firstSeen
  lastSeen := payload.lastSeen
  count := (payload.counts.entries.map (·.2)).sum
  tags := payload.tags
  ttl := payload.ttl
  consensus := consensus
  stats := none

/-- The copy whose tags are set: this server's own where it stores the namespace. -/
def retagged (name : String) (change : TagChange) : Database × Except Answered Merge :=
  if db.holds name then match db.setTags service.world name change.value change.tags with
    | (db, false) => (db, .error (.refused ⟨404, "No such value."⟩))
    | (db, true) => match db.mergePayload service.world name change.value with
      | (db, some payload) => (db, .ok payload)
      | (db, none) => (db, .error (.refused ⟨500, "The value disappeared while being retagged."⟩))
  else (db, service.retaggedElsewhere abroad name change)

/-- `set_tags`. -/
def setTags (change : TagChange) : Database × Answered :=
  match service.admitted headers change.namespace_ with
  | .error e => (db, .refused e)
  | .ok name => match service.retagged abroad db name change with
    | (db, .error answer) => (db, answer)
    | (db, .ok payload) =>
        let mirrors := service.spreadTags abroad name change.value payload
        let (db, consensus) := db.count service.world allNamespace change.value
        let (db, view) := db.view service.world name change.value consensus false
        (db, .tagged (view.getD (viewOf change.value payload consensus)) mirrors)

/-- A request, from its arrival to its answer. -/
def handle : Errand → Database × Answered
  | .lookup lookup =>
      let (db, response) := (service.storing db).respond headers lookup db
      (db, .response response)
  | .write name query => service.write abroad headers db name query
  | .writeBulk items => service.writeBulk abroad headers db items
  | .validateBulk items => service.validateBulk headers db items
  | .merge items => service.merge headers db items
  | .delete name => service.delete headers db name
  | .createNamespace typed => service.createNamespace headers db typed
  | .addValues body => service.addValues headers db body
  | .setTags change => service.setTags abroad headers db change

end Service

/-! ## What a request changes -/

section Reaching

variable {w : World} {may : String → Prop} {db db' db'' : Database}

/-- Changes to the server's own namespaces and to those of a set, and no namespace made where a
shard could not be read. -/
def Scope.upTo (may : String → Prop) : Scope where
  makes name := isInternal name = true ∨ may name
  goes := may
  does name _ := isInternal name = true ∨ may name
  blind := False

/-- With every shard within reach, such changes lead from one database to the other. -/
structure Reaches (w : World) (may : String → Prop) (db db' : Database) : Prop where
  updates : (∀ name, ¬ Blind db w name) → Updates w (.upTo may) db db'

theorem Reaches.refl (db : Database) : Reaches w may db db := ⟨fun _ => .refl⟩

theorem Updates.sighted {scope : Scope} (updates : Updates w scope db db') (sighted : ∀ name, ¬ Blind db w name)
    (name : String) : ¬ Blind db' w name :=
  fun blind => sighted name ⟨updates.evicted blind.1, blind.2.imp_left updates.store.symm.trans⟩

theorem Reaches.trans (first : Reaches w may db db') (second : Reaches w may db' db'') : Reaches w may db db'' := by
  refine ⟨fun sighted => ?_⟩
  have there := first.updates sighted
  exact there.trans (second.updates (there.sighted sighted))

theorem Reaches.of_updates (updates : Updates w (.upTo may) db db') : Reaches w may db db' := ⟨fun _ => updates⟩

theorem reaches_each {α β : Type} {step : α → Database → Database × β} {l : List α}
    (steps : ∀ a ∈ l, ∀ db, Reaches w may db (step a db).1) (db : Database) : Reaches w may db (Steps.each step l db).1 := by
  induction l generalizing db with
  | nil => exact .refl db
  | cons a rest ih =>
      simp only [Steps.each]
      exact (steps a List.mem_cons_self db).trans (ih (fun other member => steps other (List.mem_cons_of_mem a member)) _)

theorem isInternal_all : isInternal allNamespace = true := by decide

theorem reaches_writing {path value : String} (allowed : isInternal path = true ∨ may path)
    (updates : Updates w (.writing path value (Blind db w path ∨ Blind db w allNamespace)) db db') :
    Reaches w may db db' := by
  have own {name : String} (mine : name = path ∨ name = allNamespace) : isInternal name = true ∨ may name := by
    rcases mine with rfl | rfl
    · exact allowed
    · exact .inl isInternal_all
  exact ⟨fun sighted => updates.mono ⟨fun _ => own, fun _ => False.elim, fun _ _ does => own does.1, fun blind =>
    blind.elim (sighted _) (sighted _)⟩⟩

theorem recordWrite_reaches {path : String} (allowed : isInternal path = true ∨ may path) (origin value : String)
    (when : DateTime) (opts : WriteOpts) (tags : String) :
    Reaches w may db (db.recordWrite w origin path value when opts tags).1 :=
  reaches_writing allowed (recordWrite_updates origin path value when opts tags)

theorem writeTaggedAs_reaches {name : String} (allowed : may name) (origin : Option String) (value : String)
    (when : Option DateTime) (ttl : Option Nat) (tags : String) :
    Reaches w may db (writeTaggedAs db w origin name value when ttl tags).1 := by
  simp only [writeTaggedAs]
  split
  · exact .refl db
  · exact recordWrite_reaches (.inr allowed) ..

/-- The shadow of a search. -/
theorem shadow_reaches (name value : String) :
    Reaches w may db (db.write w (shadowPrefix ++ name) value w.now .default) :=
  recordWrite_reaches (.inl (isInternal_of_shadow (startsWith_append shadowPrefix name))) ..

theorem query_reaches (query : Query) : Reaches w may db (query.apply db w).1 := .of_updates (query_updates query)

theorem view_reaches (path value : String) (consensus : Nat) (withStats : Bool) :
    Reaches w may db (db.view w path value consensus withStats).1 :=
  query_reaches (.view path value consensus withStats)

theorem mergePayload_reaches (path value : String) : Reaches w may db (db.mergePayload w path value).1 := by
  have moved := (@namespace_updates w (.upTo may) db path).1
  simp only [Database.mergePayload]
  split <;> (rename_i fetched; rw [fetched] at moved; exact .of_updates moved)

theorem valuePage_reaches (name filter : String) (offset limit : Nat) (withStats : Bool) :
    Reaches w may db (db.valuePage w name filter offset limit withStats).1 := by
  have moved := (@namespace_updates w (.upTo may) db name).1
  simp only [Database.valuePage]
  split
  · rename_i fetched
    rw [fetched] at moved
    exact .of_updates moved
  · rename_i fetched
    rw [fetched] at moved
    exact .of_updates (moved.trans (withConsensus_updates _))

theorem exportPages_reaches (filter : String) (budget : Nat) (names : List String) :
    Reaches w may db (db.exportPages w filter budget names).1 := by
  induction names generalizing db budget with
  | nil => exact .refl db
  | cons name rest ih =>
      simp only [Database.exportPages]
      split
      · exact .refl db
      · have paged := @valuePage_reaches w may db name filter 0 budget false
        split
        · rename_i fetched
          rw [fetched] at paged
          exact paged.trans (ih _)
        · rename_i fetched
          rw [fetched] at paged
          exact paged.trans (ih _)

theorem read_reaches (name value : String) (withStats withShadow : Bool) :
    Reaches w may db (SightingDB.read db w name value withStats withShadow).1 := by
  simp only [SightingDB.read]
  split
  · exact .refl db
  · have counted : Reaches w may db (db.count w allNamespace value).1 := .of_updates (count_updates allNamespace value)
    generalize db.count w allNamespace value = fetched at counted ⊢
    obtain ⟨db₁, consensus⟩ := fetched
    have viewed := @view_reaches w may db₁ name value consensus withStats
    dsimp only at counted ⊢
    generalize db₁.view w name value consensus withStats = looked at viewed ⊢
    obtain ⟨db₂, found⟩ := looked
    dsimp only at viewed ⊢
    split
    · exact (counted.trans viewed).trans (shadow_reaches name value)
    · exact counted.trans viewed

theorem readNamespace_reaches (name : String) : Reaches w may db (SightingDB.readNamespace db w name).1 := by
  simp only [SightingDB.readNamespace]
  split
  · exact .refl db
  · exact query_reaches (.namespaceViews name)

end Reaching

theorem Site.mayWrite_of_not_refused {site : Site} {headers : Headers} {apikey : Option String} {name : String}
    (keyed : site.apiKey headers = .ok apikey) (let_in : site.refusalFor apikey name .write = none) :
    site.mayWrite headers false name = true := by
  simp [Site.mayWrite, Site.authorized, keyed, let_in]

/-! ### Passing on -/

namespace Traffic

variable {net : Traffic} {s : Nat} {way : List String} {headers : Headers} {st : State net.toNetwork} {apikey : Option String}

/-- What happens to a server's own data. -/
abbrev Leads (net : Traffic) (s : Nat) (headers : Headers) (st st' : State net.toNetwork) : Prop :=
  Reaches (net.worlds s) (fun name => (net.sites s).mayWrite headers false name = true) (st.dbs s) (st'.dbs s)

theorem record_leads {name : String} {origin : Option String} {index : Nat} {item : BulkSighting} {when : Option DateTime}
    (same : item.namespace_ = name) (allowed : (net.sites s).mayWrite headers false name = true) :
    net.Leads s headers st (st.record (net.worlds s) s way origin index item when).1 := by
  subst same
  have recorded := @writeTaggedAs_reaches (net.worlds s) (fun name => (net.sites s).mayWrite headers false name = true) (st.dbs s)
    item.namespace_ allowed origin item.value when item.ttl item.tags
  simp only [Leads, State.record]
  split <;> simpa only [State.put, Function.update_self] using recorded

theorem tallyUp_leads (value : String) : net.Leads s headers st (st.tallyUp (net.worlds s) s value) := by
  simp only [Leads, State.tallyUp, State.put, Function.update_self]
  exact recordWrite_reaches (.inl isInternal_all) ..

theorem writeItem_leads (keyed : (net.sites s).apiKey headers = .ok apikey) (index : Nat) (item : BulkSighting)
    (st : State net.toNetwork) : net.Leads s headers st (net.writeItem s way headers apikey index item st).1 := by
  rw [writeItem_state]
  simp only [checkItem]
  cases let_in : (net.sites s).refusalFor apikey item.namespace_ .write with
  | some message => exact .refl _
  | none =>
      dsimp only
      cases check (st.dbs s) item.namespace_ item.value with
      | error e => exact .refl _
      | ok _ =>
          dsimp only
          cases timestampToInstant item.timestamp with
          | ok when => exact record_leads rfl (Site.mayWrite_of_not_refused keyed let_in)
          | error message => exact .refl _

theorem mergeItem_leads (peerItems : List (List BulkWriteItem)) (index : Nat) (item : BulkSighting) (st : State net.toNetwork) :
    net.Leads s headers st (net.mergeItem s peerItems index item st).1 := by
  simp only [mergeItem]
  split
  · dsimp only
    split
    · exact tallyUp_leads _
    · exact .refl _
  · exact .refl _

/-- What only asks of each item leaves the state alone. -/
theorem eachItem_still {σ : Type} (said : Nat → BulkSighting → σ → Outcome) (index : Nat) (items : List BulkSighting) (st : σ) :
    (eachItem (fun index item st => (st, said index item st)) index items st).1 = st := by
  induction items generalizing index with
  | nil => rfl
  | cons item rest ih => exact ih (index + 1)

theorem eachItem_leads {step : Nat → BulkSighting → State net.toNetwork → State net.toNetwork × Outcome}
    (steps : ∀ index item st, net.Leads s headers st (step index item st).1) (index : Nat) (items : List BulkSighting)
    (st : State net.toNetwork) : net.Leads s headers st (eachItem step index items st).1 := by
  induction items generalizing index st with
  | nil => exact .refl _
  | cons item rest ih =>
      simp only [eachItem]
      exact (steps index item st).trans (ih _ _)

variable {post : Post net} (still : ∀ peer headers st, (post peer headers st).1 = st)

include still

theorem postAll_still (hops : Nat) (origin : String) (peers : List Peer) (st : State net.toNetwork) :
    (postAll post hops origin peers st).1 = st := by
  induction peers generalizing st with
  | nil => rfl
  | cons peer rest ih =>
      simp only [postAll, still]
      split <;> exact ih st

theorem forwardBatch_still (galaxy : Galaxy) (names : List String) (hops : Nat) (origin : String) :
    (forwardBatch post galaxy names hops origin st).1 = st := by
  simp only [forwardBatch]
  split
  · rfl
  · split
    · rfl
    · split <;> exact postAll_still still _ _ _ st

theorem forwardWrite_still (galaxy : Galaxy) (name : String) (hops : Nat) (origin : String) :
    (forwardWrite post galaxy name hops origin st).1 = st := by
  simp only [forwardWrite]
  split
  · rfl
  · split
    · rfl
    · split
      · rfl
      · split <;> exact postAll_still still _ _ _ st

theorem write_leads (name : String) (query : WriteQuery) :
    net.Leads s headers st (write s way headers post name query st).1 := by
  simp only [write]
  split
  · exact .refl _
  · rename_i keyed
    split
    · exact .refl _
    · exact .refl _
    · rename_i value let_in asked
      split
      · exact .refl _
      · rename_i galaxy hops decided
        have same := @forwardWrite_still net st post still galaxy name hops ((net.sites s).originToSend headers)
        generalize forwardWrite post galaxy name hops ((net.sites s).originToSend headers) st = sent at same ⊢
        obtain ⟨st₁, answers⟩ := sent
        obtain rfl : st₁ = st := same
        cases answers with
        | error e => exact .refl _
        | ok answers =>
            dsimp only
            split
            · simp only [noteConsensus]
              split
              · split
                · exact tallyUp_leads _
                · exact .refl _
              · exact .refl _
            · exact .refl _
      · split
        · exact .refl _
        · rename_i when _
          have recorded := @record_leads net s way headers st name headers.originOf 0 (query.item name value) when rfl
            (Site.mayWrite_of_not_refused keyed let_in)
          split <;> (rename_i done; rw [done] at recorded; exact recorded)

theorem writeBulk_leads (items : List BulkSighting) : net.Leads s headers st (writeBulk s way headers post items st).1 := by
  simp only [writeBulk]
  split
  · exact .refl _
  · rename_i apikey keyed
    split
    · split
      · exact .refl _
      · rename_i galaxy _ _ _ hops left
        have same := @forwardBatch_still net st post still galaxy
          ((items.map (·.namespace_)).filter (net.sites s).elsewhere) hops ((net.sites s).originToSend headers)
        generalize forwardBatch post galaxy ((items.map (·.namespace_)).filter (net.sites s).elsewhere) hops
          ((net.sites s).originToSend headers) st = sent at same ⊢
        obtain ⟨st₁, answers⟩ := sent
        obtain rfl : st₁ = st := same
        cases answers with
        | error e => exact .refl _
        | ok answers =>
            refine eachItem_leads (fun index item st => ?_) 0 items st₁
            split
            · exact writeItem_leads keyed index item st
            · exact mergeItem_leads _ index item st
    · exact eachItem_leads (fun index item st => writeItem_leads keyed index item st) 0 items st

end Traffic

/-! ### Route by route -/

namespace Service

variable {service : Service} {abroad : Abroad} {headers : Headers} {may : String → Prop} {db : Database}

theorem answerRead_reaches (withStats : Bool) (name : String) (query : ReadQuery) :
    Reaches service.world may db (service.answerRead withStats name query db).1 := by
  simp only [answerRead]
  split
  · exact .refl db
  · exact query_reaches (.valueCount _)
  · exact query_reaches (.mergePage _ _ _)
  · exact mergePayload_reaches _ _
  · exact read_reaches _ _ _ _
  · split
    · exact .refl db
    · exact readNamespace_reaches _

theorem readRoute_reaches (withStats : Bool) (name : String) (query : ReadQuery) :
    Reaches service.world may db (service.read headers withStats name query db).1 := by
  simp only [Service.read]
  split
  · exact .refl db
  · split
    · exact answerRead_reaches withStats name query
    · exact .refl db
    · split
      · exact shadow_reaches name _
      · exact .refl db

theorem place_reaches (withStats : Bool) (hops : Option Nat) (item : BulkSighting) (db : Database) :
    Reaches service.world may db (service.place withStats hops item db).1 := by
  simp only [place]
  split
  · exact read_reaches _ _ _ _
  · split
    · exact .refl db
    · split
      · dsimp only
        split
        · exact .refl db
        · exact shadow_reaches item.namespace_ item.value
      · exact .refl db

theorem readBulk_reaches (withStats : Bool) (items : List BulkSighting) :
    Reaches service.world may db (service.readBulk headers withStats items db).1 := by
  simp only [readBulk]
  split
  · exact .refl db
  · exact reaches_each (fun item _ db => place_reaches withStats _ item db) db

theorem gatheredExport_reaches (untyped : Stix.Untyped) (filter : String) (limit : Nat) (wanted : List String) :
    Reaches service.world may db (service.gatheredExport untyped filter limit wanted db).1 := by
  have own := @exportPages_reaches service.world may db filter limit (wanted.filter service.site.stores.holds)
  simp only [gatheredExport, exportHere]
  split
  · exact .refl db
  · exact own
  · exact own
  · exact own

theorem exportOrGather_reaches (untyped : Stix.Untyped) (filter : String) (limit : Nat) (wanted : List String)
    (answer : Stix.Export → Response) :
    Reaches service.world may db (service.exportOrGather untyped filter limit wanted answer db).1 := by
  have gathered := @gatheredExport_reaches service may db untyped filter limit wanted
  simp only [exportOrGather]
  generalize service.gatheredExport untyped filter limit wanted db = fetched at gathered ⊢
  obtain ⟨db₁, _ | response⟩ := fetched
  · exact gathered.trans (exportPages_reaches filter limit wanted)
  · exact gathered

theorem exportStixValue_reaches (name value : String) (query : ExportQuery) :
    Reaches service.world may db (service.exportStixValue headers name value query db).1 := by
  simp only [exportStixValue]
  split
  · exact .refl db
  · split
    · exact .refl db
    · split
      · exact .refl db
      · exact .refl db
      · exact view_reaches name value 0 false

theorem respond_reaches (lookup : Lookup) : Reaches service.world may db (service.respond headers lookup db).1 := by
  cases lookup with
  | read withStats name query => exact readRoute_reaches withStats name query
  | readBulk withStats items => exact readBulk_reaches withStats items
  | stix name query =>
      simp only [respond, exportStix]
      split
      · exact .refl db
      · split
        · exact .refl db
        · split
          · exact exportStixValue_reaches name _ query
          · split
            · split
              · exact .refl db
              · exact exportOrGather_reaches _ _ _ _ _
            · exact exportOrGather_reaches _ _ _ _ _
  | stixApi body =>
      simp only [respond, exportStixApi]
      split
      · exact .refl db
      · split
        · exact .refl db
        · generalize (if body.request.recursive = true then service.reachableSubtrees headers body.request.wanted db
            else body.request.wanted) = found
          split
          · exact .refl db
          · exact exportOrGather_reaches _ _ _ _ _
  | namespaces start =>
      simp only [respond, namespaces]
      split <;> exact .refl db
  | latest query =>
      simp only [respond, latestWrites]
      split <;> exact .refl db

/-! ### Changes -/

/-- What the key on a request may write. -/
abbrev allows (service : Service) (headers : Headers) (managed : Bool) (name : String) : Prop :=
  service.site.mayWrite headers managed name = true

theorem mergeItem_reaches {apikey : Option String} (keyed : service.site.apiKey headers = .ok apikey)
    (entry : (String × String × Merge) × Nat) (db : Database) :
    Reaches service.world (service.allows headers false) db (service.mergeItem apikey entry db).1 := by
  obtain ⟨⟨name, value, state⟩, index⟩ := entry
  simp only [mergeItem]
  split
  · exact .refl db
  · rename_i let_in
    split
    · exact .refl db
    · exact reaches_writing (.inr (Site.mayWrite_of_not_refused keyed let_in)) (merge_updates name value state)

theorem merge_reaches (items : List (String × String × Merge)) :
    Reaches service.world (service.allows headers false) db (service.merge headers db items).1 := by
  simp only [merge]
  split
  · exact .refl db
  · rename_i keyed
    exact reaches_each (fun entry _ db => mergeItem_reaches keyed entry db) db

theorem delete_reaches (name : String) : Reaches service.world (service.allows headers false) db (service.delete headers db name).1 := by
  simp only [delete]
  split
  · exact .refl db
  · rename_i keyed
    split
    · exact .refl db
    · rename_i let_in
      split
      · exact .refl db
      · have deleted : Reaches service.world (service.allows headers false) db (db.delete service.world name).1 :=
          .of_updates (delete_updates (Site.mayWrite_of_not_refused keyed let_in) fun _ _ => .inl isInternal_all)
        split <;> (rename_i gone; rw [gone] at deleted; exact deleted)

theorem allows_of_admitted {typed name : String} (admitted : service.admitted headers typed = .ok name) :
    service.allows headers true name := by
  simp only [Service.admitted] at admitted
  split at admitted
  · cases admitted
  · rename_i key who
    split at admitted
    · cases admitted
    · split at admitted
      · rename_i can
        obtain rfl := Except.ok.inj admitted
        simp [allows, Site.mayWrite, who, can]
      · cases admitted

theorem createNamespace_reaches (typed : String) :
    Reaches service.world (service.allows headers true) db (service.createNamespace headers db typed).1 := by
  simp only [createNamespace]
  split
  · exact .refl db
  · rename_i name admitted
    have made : Reaches service.world (service.allows headers true) db (db.createNamespace service.world name).1 :=
      ⟨fun sighted => createNamespace_updates (.inr (allows_of_admitted admitted)) (sighted name)⟩
    split <;> (rename_i created; rw [created] at made; exact made)

theorem addValue_reaches {name : String} (allowed : may name) (when : Option DateTime) (ttl : Option Nat) (tags value : String)
    (db : Database) : Reaches service.world may db (service.addValue name when ttl tags value db).1 :=
  writeTaggedAs_reaches allowed none value when ttl tags

theorem addValues_reaches (body : NewValues) :
    Reaches service.world (service.allows headers true) db (service.addValues headers db body).1 := by
  simp only [addValues]
  split
  · exact .refl db
  · rename_i name admitted
    split
    · exact .refl db
    · split
      · exact .refl db
      · exact reaches_each (fun value _ db => addValue_reaches (allows_of_admitted admitted) _ body.ttl body.tags value db) db

theorem retagged_reaches {name : String} (allowed : may name) (change : TagChange) :
    Reaches service.world may db (service.retagged abroad db name change).1 := by
  simp only [retagged]
  split
  · have set_ : Reaches service.world may db (db.setTags service.world name change.value change.tags).1 :=
      .of_updates (setTags_updates (.inr allowed))
    split
    · rename_i missed
      rw [missed] at set_
      exact set_
    · rename_i db₁ found
      rw [found] at set_
      have fetched := set_.trans (mergePayload_reaches name change.value)
      split <;> (rename_i payload; rw [payload] at fetched; exact fetched)
  · exact .refl db

theorem setTags_reaches (change : TagChange) :
    Reaches service.world (service.allows headers true) db (service.setTags abroad headers db change).1 := by
  simp only [setTags]
  split
  · exact .refl db
  · rename_i name admitted
    have tagged := @retagged_reaches service abroad _ db name (allows_of_admitted admitted) change
    split
    · rename_i turned
      rw [turned] at tagged
      exact tagged
    · rename_i db₁ payload turned
      rw [turned] at tagged
      have counted := tagged.trans (.of_updates (count_updates allNamespace change.value))
      exact counted.trans (view_reaches name change.value _ false)

theorem validateBulk_leads (items : List BulkSighting) : (service.validateBulk headers db items).1 = db := by
  simp only [validateBulk, Traffic.validateBulk]
  split
  · rfl
  · exact congrArg (fun st : State (service.standing db).toNetwork => st.dbs 0) (Traffic.eachItem_still _ 0 items _)

/-- A request changes the server's own namespaces and those its key may write. -/
theorem handle_reaches (errand : Errand) :
    Reaches service.world (service.allows headers errand.managed) db (service.handle abroad headers db errand).1 := by
  cases errand with
  | lookup lookup => exact @respond_reaches (service.storing db) headers _ db lookup
  | write name query =>
      exact @Traffic.write_leads (service.standing db) 0 [] headers (standing.state service db) (standing.post service abroad db)
        (fun _ _ _ => rfl) name query
  | writeBulk items =>
      exact @Traffic.writeBulk_leads (service.standing db) 0 [] headers (standing.state service db) (standing.post service abroad db)
        (fun _ _ _ => rfl) items
  | validateBulk items =>
      have same := @validateBulk_leads service headers db items
      simp only [handle, same]
      exact .refl db
  | merge items => exact merge_reaches items
  | delete name => exact delete_reaches name
  | createNamespace typed => exact createNamespace_reaches typed
  | addValues body => exact addValues_reaches body
  | setTags change => exact setTags_reaches change

end Service

/-! ## What is held -/

section Holding

variable {names : ShardFiles} {dir : Dir} {db db' : Database} {now : DateTime} {may : String → Prop} {name : String}

/-- A store whose shards can all be read, and a namespace that is not in two places. -/
structure AtHand (names : ShardFiles) (dir : Dir) (name : String) (db : Database) : Prop where
  store : db.store = true
  whole : ∀ s, db.evicted s = true → readShardFile names dir (fun _ => true) s = some (fileOf names dir s) ∧
    ∀ n, ((fileOf names dir s).get n).isSome = true → shardOf n = s
  apart : db.evicted (shardOf name) = true → db.namespaces.get name = none

theorem AtHand.of_consistent {exempt : String → Prop} (consistent : Consistent names dir exempt db) (name : String) :
    AtHand names dir name db where
  store := consistent.store
  whole s away := by
    obtain ⟨meta_, known, -⟩ := evicted_iff.mp away
    have used := consistent.inPlay s meta_ known
    refine ⟨readShardFile_eq consistent used, fun n there => ?_⟩
    obtain ⟨vals, found⟩ := Option.isSome_iff_exists.mp there
    exact fileOf_own consistent used found
  apart away := by
    obtain ⟨meta_, known, gone⟩ := evicted_iff.mp away
    exact (consistent.gone _ meta_ known gone).2.1 name rfl

theorem AtHand.sighted (near : AtHand names dir name db) (n : String) : ¬ Blind db (.sound names dir now) n := by
  rintro ⟨away, unstored | unread⟩
  · exact absurd (near.store.symm.trans unstored) nofun
  · exact absurd ((near.whole _ away).1.symm.trans unread) nofun

/-- What is in memory of a namespace, and whether its shard is, decide what is held of it. -/
theorem AtHand.same (near : AtHand names dir name db) (store : db'.store = db.store)
    (evicted : ∀ s, db'.evicted s = true → db.evicted s = true) (node : db'.node = db.node)
    (here : db'.evicted (shardOf name) = db.evicted (shardOf name)) (memory : db'.namespaces.get name = db.namespaces.get name) :
    AtHand names dir name db' ∧ held names dir db' name = held names dir db name := by
  refine ⟨⟨store.trans near.store, fun s away => near.whole s (evicted s away), fun away => ?_⟩, ?_⟩
  · rw [memory]
    exact near.apart (here ▸ away)
  · simp only [held, memory, here, node]

theorem AtHand.update (near : AtHand names dir name db) (kept : isInternal name = false) (barred : ¬ may name)
    (update : Update (.sound names dir now) (.upTo may) db db') :
    AtHand names dir name db' ∧ held names dir db' name = held names dir db name := by
  have config := (update.move (Scope.allows_loses _)).config
  have store := Updates.store (.single update)
  have away : ∀ s, db'.evicted s = true → db.evicted s = true := fun s => Updates.evicted (.single update)
  have other {n : String} (open_ : isInternal n = true ∨ may n) : name ≠ n := by
    rintro rfl
    rcases open_ with internal | allowed
    · exact absurd (kept.symm.trans internal) (by decide)
    · exact barred allowed
  cases update with
  | touch shard => exact near.same store away config.2 (evicted_touch ..) (by simp)
  | @pageIn _ shard gone paged =>
      rcases pageIn_cases paged with rfl | ⟨data, read, memory, -, node, -, shards⟩
      · exact ⟨near, rfl⟩
      · obtain ⟨file, own⟩ := near.whole shard gone
        obtain rfl : data = fileOf names dir shard := Option.some.inj (read.symm.trans file)
        have found : db'.namespaces.get name =
            (((fileOf names dir shard).get name).map fun vals => Namespace.fromValues vals db.node).or (db.namespaces.get name) := by
          rw [memory, get_extend, OrderedMap.get_mapValues]
        by_cases mine : shard = shardOf name
        · subst mine
          have back : db'.evicted (shardOf name) = false := by simp [Database.evicted, shards]
          refine ⟨⟨store.trans near.store, fun s gone => near.whole s (away s gone), fun gone => ?_⟩, ?_⟩
          · exact absurd (back.symm.trans gone) (by decide)
          · rw [held, held, found, near.apart gone, back, gone, if_pos rfl]
            cases (fileOf names dir (shardOf name)).get name <;> rfl
        · have elsewhere : (fileOf names dir shard).get name = none := by
            cases there : (fileOf names dir shard).get name with
            | none => rfl
            | some vals => exact absurd (own name (by rw [there]; rfl)).symm mine
          refine near.same store away config.2 ?_ (by rw [found, elsewhere]; rfl)
          simp [Database.evicted, shards, Ne.symm mine]
  | @register n allowed here =>
      have here := here.resolve_right id
      refine near.same store away config.2 ?_ (by simp [OrderedMap.get_insert, other allowed])
      cases before : db.evicted (shardOf name) with
      | false =>
          cases after : Database.evicted _ (shardOf name) with
          | false => rfl
          | true => exact absurd ((away _ after).symm.trans before) (by decide)
      | true =>
          have apart : shardOf name ≠ shardOf n := by
            intro same
            rw [same] at before
            exact absurd (before.symm.trans here) (by decide)
          simpa [Database.evicted, Database.catalogue, OrderedMap.get_insert, apart] using before
  | put found e allowed =>
      exact near.same store away config.2 rfl (by simp [Database.put, OrderedMap.get_insert, other allowed])
  | mark found => exact near.same store away config.2 rfl rfl
  | erase allowed =>
      exact near.same store away config.2 rfl (by simp [OrderedMap.get_erase, other (.inr allowed)])
  | uncatalogue n => exact near.same store away config.2 (evicted_uncatalogue ..) (by simp)

theorem AtHand.updates (near : AtHand names dir name db) (kept : isInternal name = false) (barred : ¬ may name)
    (updates : Updates (.sound names dir now) (.upTo may) db db') :
    AtHand names dir name db' ∧ held names dir db' name = held names dir db name := by
  induction updates with
  | refl => exact ⟨near, rfl⟩
  | tail _ update ih =>
      obtain ⟨near, same⟩ := ih
      obtain ⟨near, step⟩ := near.update kept barred update
      exact ⟨near, step.trans same⟩

end Holding

/-! ## Runs -/

/-- A request as it finds the server: its settings and keys, the clock, and what the peers do. -/
structure Handling where
  service : Service
  abroad : Abroad
  headers : Headers
  errand : Errand

namespace Handling

/-- Whether the request's key may write a namespace. -/
def mayWrite (call : Handling) (name : String) : Bool :=
  call.service.site.mayWrite call.headers call.errand.managed name

def handle (call : Handling) (db : Database) : Database :=
  (call.service.handle call.abroad call.headers db call.errand).1

def run (db : Database) (calls : List Handling) : Database := calls.foldl (fun db call => call.handle db) db

variable {names : ShardFiles} {dir : Dir} {db : Database} {name : String} {call : Handling} {now : DateTime}

theorem handle_keeps (near : AtHand names dir name db) (sound : call.service.world = .sound names dir now)
    (kept : isInternal name = false) (barred : call.mayWrite name = false) :
    AtHand names dir name (call.handle db) ∧ held names dir (call.handle db) name = held names dir db name := by
  have reaches := @Service.handle_reaches call.service call.abroad call.headers db call.errand
  rw [sound] at reaches
  have shut : ¬ call.service.allows call.headers call.errand.managed name := fun allowed =>
    absurd (barred.symm.trans allowed) nofun
  exact near.updates kept shut (reaches.updates near.sighted)

/-- Whatever is asked of a server, by whomever and in whatever order, a namespace that no key among
those presented may write holds at the end what it held at the start. -/
theorem only_writers_change {exempt : String → Prop} (consistent : Consistent names dir exempt db) {calls : List Handling}
    (sound : ∀ call ∈ calls, ∃ now, call.service.world = .sound names dir now) (kept : isInternal name = false)
    (barred : ∀ call ∈ calls, call.mayWrite name = false) :
    held names dir (run db calls) name = held names dir db name := by
  have whole : ∀ (calls : List Handling) (db : Database), AtHand names dir name db →
      (∀ call ∈ calls, ∃ now, call.service.world = .sound names dir now) →
      (∀ call ∈ calls, call.mayWrite name = false) →
      held names dir (run db calls) name = held names dir db name := by
    intro calls
    induction calls with
    | nil => exact fun _ _ _ _ => rfl
    | cons call rest ih =>
        intro db near sound barred
        obtain ⟨now, here⟩ := sound call List.mem_cons_self
        obtain ⟨near, same⟩ := handle_keeps near here kept (barred call List.mem_cons_self)
        have later := ih (call.handle db) near (fun other member => sound other (List.mem_cons_of_mem _ member))
          fun other member => barred other (List.mem_cons_of_mem _ member)
        exact later.trans same
  exact whole calls db (.of_consistent consistent name) sound barred

/-- A server with one key, which may write under `b`. -/
def narrow : Service where
  site := ⟨.storeEverything, "local", true, ⟨OrderedMap.empty.insert "k" [⟨"b", true, true, false, .inr ⟨rfl, .inl rfl⟩⟩]⟩, none⟩
  settings := ⟨⟨[], none⟩, .default⟩
  crates := ⟨id, fun _ => false, fun _ => "", fun _ => none⟩
  weigh _ _ := 0
  outside := ⟨fun _ _ _ _ => .error .noHolder, fun _ _ => none, fun _ => none⟩
  latest := .default
  world := .sample

def withKey (errand : Errand) : Handling where
  service := narrow
  abroad := ⟨JsonText.codec, fun _ _ => .error .noHolder, fun _ _ _ => .error .noHolder, fun _ => "", fun _ _ _ _ => .error ""⟩
  headers := ⟨some (some "k"), .absent, none⟩
  errand := errand

/-- Its key asks for what it may have and for what it may not. -/
def mixed : List Handling :=
  [withKey (.write "b/x" ⟨some "v", none, none, none⟩), withKey (.delete "a/y"),
    withKey (.writeBulk [⟨"a/y", "u", none, none, "", false⟩, ⟨"b/x", "u", none, none, "", false⟩])]

theorem only_writers_change_mixed : ∃ m, Machine.fresh.run .sample [(.unixEpoch, Machine.sightingOf "a/y")] = some m ∧
    (held .sample m.dir m.db "a/y").isSome = true ∧ (held .sample m.dir (run m.db mixed) "b/x").isSome = true ∧
    held .sample m.dir (run m.db mixed) "a/y" = held .sample m.dir m.db "a/y" := by
  have marks : Machine.MarksAll .sample Machine.fresh [(.unixEpoch, Machine.sightingOf "a/y")] := ⟨.inr (by decide), fun _ _ => trivial⟩
  have durable : ∃ m, Machine.fresh.run .sample [(.unixEpoch, Machine.sightingOf "a/y")] = some m ∧ m.dir = ⟨none, ∅⟩ ∧
      m.Durable .sample := ⟨_, rfl, rfl, Machine.run_durable Machine.fresh_durable marks rfl⟩
  obtain ⟨m, ran, dir, durable⟩ := durable
  refine ⟨m, ran, ?_, ?_, only_writers_change durable.consistent (fun call member => ?_) (by decide) ?_⟩
  · obtain rfl := Option.some.inj ran
    decide
  · obtain rfl := Option.some.inj ran
    decide
  · rw [dir]
    simp only [mixed, List.mem_cons, List.not_mem_nil, or_false] at member
    rcases member with rfl | rfl | rfl <;> exact ⟨.unixEpoch, rfl⟩
  · decide

end Handling

end SightingDB
