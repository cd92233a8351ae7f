import SightingDB.Exchange
import SightingDB.Lib.Distinct

/-!
Where a write ends up. What a server does with a request depends on its configuration only,
so the sightings a request leaves behind can be read off the wiring of the galaxy: a copy
arrives along a way, and every item the server there accepts is recorded.
-/
namespace SightingDB

/-- Whether a server would record an item for a key: permitted, writable and stored there. -/
def Site.accepts (site : Site) (apikey : Option String) (item : BulkSighting) : Bool :=
  (site.refusalFor apikey item.namespace_ .write).isNone && item.value ≠ "" && !isInternal item.namespace_ &&
    site.stores.holds item.namespace_ && (timestampToInstant item.timestamp).toOption.isSome

/-- The items of a request. -/
def Call.items : Call → List BulkSighting
  | .write name query => (query.val.map (query.item name)).toList
  | .writeBulk items => items

namespace Traffic

variable (net : Traffic) (call : Call)

/-- Where a copy sent along a way arrives. -/
def arrivesAt (way : List String) (url : String) : Option Nat :=
  match net.fate way with
  | .lost _ => none
  | _ => net.urls url

/-- Whether the sender hears back. -/
def answers (way : List String) (url : String) : Bool := net.fate way = .delivered && (net.urls url).isSome

/-- Whether a request is one a server tries to pass on. -/
def passesOn (s : Nat) (headers : Headers) : Bool :=
  match call with
  | .write name _ => ((net.sites s).shouldForward headers name).isSome
  | .writeBulk items => (items.any fun item => (net.sites s).elsewhere item.namespace_) && (net.sites s).galaxy.isSome

/-- Whether a server comes to the items it stores: a single write it does not pass on, a
batch it does not pass on or to which a peer has answered. -/
def settles (s : Nat) (way : List String) (headers : Headers) : Bool :=
  !net.passesOn call s headers || match call with
    | .write _ _ => false
    | .writeBulk _ => (net.forwards s headers call.ask).any fun posted =>
        net.answers (way ++ [posted.url]) posted.url

/-- The items a server accepts, counted from an index on. -/
def accepted (site : Site) (apikey : Option String) : Nat → List BulkSighting → List Nat
  | _, [] => []
  | index, item :: rest =>
      (if site.accepts apikey item then [index] else []) ++ accepted site apikey (index + 1) rest

/-- The items a server records of a request that has come to it along a way. -/
def taken (s : Nat) (way : List String) (headers : Headers) : List Nat :=
  match (net.sites s).apiKey headers with
  | .error _ => []
  | .ok apikey => if net.settles call s way headers then accepted (net.sites s) apikey 0 call.items else []

/-- What a request leaves behind, in the order in which it is recorded. -/
def plan : Nat → Nat → List String → Headers → List Record
  | 0, _, _, _ => []
  | turns + 1, s, way, headers =>
      ((net.forwards s headers call.ask).flatMap fun posted =>
        match net.arrivesAt (way ++ [posted.url]) posted.url with
        | none => []
        | some server => plan turns server (way ++ [posted.url]) posted.headers) ++
      (net.taken call s way headers).map fun index => ⟨s, way, index⟩

end Traffic

/-! ## One item -/

section Items

variable {net : Traffic} {s : Nat} {way : List String} {headers : Headers} {st : State net.toNetwork}
  {apikey : Option String} {index : Nat} {item : BulkSighting}

/-- The checks before a write are about the configuration. -/
theorem check_eq {db : Database} {site : Site} (stores : db.stores = site.stores) (name value : String) :
    check db name value = if value = "" then .error .emptyValue
      else if isInternal name then .error (.internalNamespace name)
      else if !site.stores.holds name then .error (.notStored name) else .ok () := by
  simp [check, Database.holds, stores]

theorem checkItem_accepts {db : Database} {site : Site} (stores : db.stores = site.stores) :
    (∃ when, checkItem site db apikey item = .ok when ∧ check db item.namespace_ item.value = .ok ()) ∧
        site.accepts apikey item = true ∨
      (∀ when, checkItem site db apikey item ≠ .ok when) ∧ site.accepts apikey item = false := by
  simp only [checkItem, check_eq stores, Site.accepts]
  cases refused : site.refusalFor apikey item.namespace_ .write with
  | some message => exact .inr ⟨fun _ => ItemCheck.noConfusion, rfl⟩
  | none =>
      by_cases empty : item.value = ""
      · exact .inr ⟨by simp [empty], by simp [empty]⟩
      · cases internal : isInternal item.namespace_ with
        | true => exact .inr ⟨by simp [empty], by simp⟩
        | false =>
            cases holds : site.stores.holds item.namespace_ with
            | false => exact .inr ⟨by simp [empty], by simp⟩
            | true =>
                cases when : timestampToInstant item.timestamp with
                | ok instant => exact .inl ⟨⟨instant, by simp [empty]⟩, by simp [empty, Except.toOption]⟩
                | error message => exact .inr ⟨by simp [empty], by simp [Except.toOption]⟩

theorem record_log {w : World} {origin : Option String} {when : Option DateTime}
    (passes : check (st.dbs s) item.namespace_ item.value = .ok ()) :
    (st.record w s way origin index item when).1.log = st.log ++ [⟨s, way, index⟩] ∧
      ∃ done, (st.record w s way origin index item when).2 = .ok done := by
  simp only [State.record, writeTaggedAs, passes, State.put]
  exact ⟨trivial, _, rfl⟩

/-- An item that passes is recorded, and nothing else happens. -/
theorem writeItem_state : (net.writeItem s way headers apikey index item st).1 =
    match checkItem (net.sites s) (st.dbs s) apikey item with
    | .ok when => (st.record (net.worlds s) s way headers.originOf index item when).1
    | _ => st := by
  simp only [Traffic.writeItem]
  cases checkItem (net.sites s) (st.dbs s) apikey item with
  | ok when =>
      dsimp only
      generalize st.record (net.worlds s) s way headers.originOf index item when = result
      obtain ⟨_, _ | _⟩ := result <;> rfl
  | refused message => rfl
  | invalid message => rfl

/-- A server records the items it accepts and no others. -/
theorem writeItem_log : (net.writeItem s way headers apikey index item st).1.log =
      st.log ++ (if (net.sites s).accepts apikey item then [⟨s, way, index⟩] else []) := by
  rcases @checkItem_accepts apikey item _ _ (st.stores s) with ⟨⟨when, ok, passes⟩, accepts⟩ | ⟨never, refuses⟩
  · rw [writeItem_state, ok, if_pos accepts]
    exact (record_log passes).1
  · rw [writeItem_state, refuses, if_neg Bool.false_ne_true, List.append_nil]
    cases checked : checkItem (net.sites s) (st.dbs s) apikey item with
    | ok when => exact absurd checked (never when)
    | refused message => rfl
    | invalid message => rfl

theorem mergeItem_log (peerItems : List (List BulkWriteItem)) :
    (net.mergeItem s peerItems index item st).1.log = st.log := by
  simp only [Traffic.mergeItem]
  split
  · dsimp only
    split <;> rfl
  · rfl

/-- What each item adds to the log, the batch adds. -/
theorem eachItem_log {step : Nat → BulkSighting → State net.toNetwork → State net.toNetwork × Outcome}
    (steps : ∀ index item st, (step index item st).1.log =
      st.log ++ (if (net.sites s).accepts apikey item then [⟨s, way, index⟩] else []))
    (items : List BulkSighting) : (Traffic.eachItem step index items st).1.log =
      st.log ++ (Traffic.accepted (net.sites s) apikey index items).map fun index => ⟨s, way, index⟩ := by
  induction items generalizing index st with
  | nil => simp [Traffic.eachItem, Traffic.accepted]
  | cons item rest ih =>
      simp only [Traffic.eachItem, Traffic.accepted]
      rw [ih, steps]
      by_cases accepts : (net.sites s).accepts apikey item = true <;> simp [accepts]

end Items

/-! ## Passing on -/

namespace Traffic

section Passing

variable {net : Traffic} {call : Call} {s turns hops : Nat} {way : List String} {headers : Headers}
  {st : State net.toNetwork} {origin : String} {post : Post net} {sent : String → Headers → List Record}
  {heard : String → Bool}

/-- A request passed on leaves behind what it leaves where it arrives. -/
structure Posts (post : Post net) (sent : String → Headers → List Record) (heard : String → Bool) : Prop where
  log : ∀ peer headers st, (post peer headers st).1.log = st.log ++ sent peer.url headers
  answer : ∀ peer headers st, (post peer headers st).2.toOption.isSome = heard peer.url

theorem postAll_log (posts : Posts post sent heard) (peers : List Peer) :
    (postAll post hops origin peers st).1.log = st.log ++ peers.flatMap (fun peer => sent peer.url (.sent peer hops origin)) ∧
      (postAll post hops origin peers st).2.1.isEmpty = !peers.any fun peer => heard peer.url := by
  induction peers generalizing st with
  | nil => simp [postAll]
  | cons peer rest ih =>
      have log := posts.log peer (.sent peer hops origin) st
      have answer := posts.answer peer (.sent peer hops origin) st
      simp only [postAll]
      cases first : post peer (.sent peer hops origin) st with
      | mk st₁ result =>
          rw [first] at log answer
          obtain ⟨log', answers⟩ := @ih st₁
          dsimp only at log ⊢
          cases result with
          | ok reply =>
              have heard₁ : heard peer.url = true := answer.symm
              exact ⟨by simp [log', log], by simp [heard₁]⟩
          | error e =>
              have heard₁ : heard peer.url = false := answer.symm
              exact ⟨by simp [log', log], by simpa [heard₁] using answers⟩

theorem forwardBatch_log (posts : Posts post sent heard) (galaxy : Galaxy) (names : List String) :
    (forwardBatch post galaxy names hops origin st).1.log = st.log ++
        (if hops = 0 then [] else (galaxy.wanted names).flatMap fun peer => sent peer.url (.sent peer hops origin)) ∧
      (forwardBatch post galaxy names hops origin st).2.toOption.isSome =
        (decide (hops ≠ 0) && (galaxy.wanted names).any fun peer => heard peer.url) := by
  by_cases none : hops = 0
  · simp [forwardBatch, none, Except.toOption]
  · obtain ⟨log, answers⟩ := @postAll_log net hops st origin post sent heard posts (galaxy.wanted names)
    simp only [forwardBatch, none, if_false]
    cases asked : (galaxy.wanted names).isEmpty with
    | true => simp [List.isEmpty_iff.mp asked, Except.toOption]
    | false =>
        simp only [Bool.false_eq_true, if_false]
        cases heard₁ : (galaxy.wanted names).any fun peer => heard peer.url with
        | true => simpa [answers, heard₁, none, Except.toOption] using log
        | false => simpa [answers, heard₁, Except.toOption] using log

theorem forwardWrite_log (posts : Posts post sent heard) (galaxy : Galaxy) (name : String) :
    (forwardWrite post galaxy name hops origin st).1.log = st.log ++
      (if hops = 0 then [] else (galaxy.liveHolders name).flatMap fun peer => sent peer.url (.sent peer hops origin)) := by
  by_cases none : hops = 0
  · simp [forwardWrite, none]
  · obtain ⟨log, _⟩ := @postAll_log net hops st origin post sent heard posts (galaxy.liveHolders name)
    simp only [forwardWrite, none, if_false]
    split
    · rename_i nobody
      simp [Galaxy.liveHolders, List.isEmpty_iff.mp nobody]
    · split
      · rename_i nobody
        simp [List.isEmpty_iff.mp nobody]
      · split <;> exact log

theorem deliver_posts (handles : ∀ server headers way' st, (net.serve call turns server way' headers st).1.log =
      st.log ++ net.plan call turns server way' headers) :
    Posts (fun peer headers st => net.deliver (way ++ [peer.url]) peer.url
        (fun server st => net.serve call turns server (way ++ [peer.url]) headers st) st)
      (fun url headers => match net.arrivesAt (way ++ [url]) url with
        | none => []
        | some server => net.plan call turns server (way ++ [url]) headers)
      (fun url => net.answers (way ++ [url]) url) := by
  constructor <;> intro peer headers st
  · simp only [deliver, arrivesAt]
    cases net.fate (way ++ [peer.url]) <;> cases net.urls peer.url <;> simp [handles]
  · simp only [deliver, answers]
    cases net.fate (way ++ [peer.url]) <;> cases net.urls peer.url <;> simp [Except.toOption]

/-- Of a batch that was passed on, a server still records what it accepts itself. -/
theorem mergedBatch_log (apikey : Option String) (items : List BulkSighting) (answers : List (String × Reply)) :
    (net.mergedBatch s way headers apikey items answers st).1.log = st.log ++
      (accepted (net.sites s) apikey 0 items).map fun index => ⟨s, way, index⟩ := by
  refine eachItem_log (fun index item st => ?_) items
  split
  · exact writeItem_log
  · rename_i foreign
    have refuses : (net.sites s).accepts apikey item = false := by
      simp only [Bool.or_eq_true, not_or, Bool.not_eq_true] at foreign
      simp [Site.accepts, foreign.1]
    simpa [refuses] using mergeItem_log _

theorem any_elsewhere (site : Site) (items : List BulkSighting) : (items.any fun item => site.elsewhere item.namespace_) =
    !((items.map (·.namespace_)).filter site.elsewhere).isEmpty := by
  induction items with
  | nil => rfl
  | cons item rest ih => cases here : site.elsewhere item.namespace_ <;> simp [here, ih]

/-- What the copies leave behind, peer by peer. -/
theorem flatMap_send (sent : String → Headers → List Record) (peers : List Peer) (ask : Ask) (hops : Nat) (origin : String) :
    (if hops = 0 then [] else peers.map fun peer => Network.send peer ask hops origin).flatMap
        (fun posted => sent posted.url posted.headers) =
      if hops = 0 then [] else peers.flatMap fun peer => sent peer.url (.sent peer hops origin) := by
  split
  · rfl
  · simp [List.flatMap_map, Network.send]

/-- A batch that is passed on is settled once somebody has answered. -/
theorem settles_passed {apikey : Option String} (posts : Posts post sent fun url => net.answers (way ++ [url]) url)
    {items : List BulkSighting} {name : String} {rest : List String} {galaxy : Galaxy}
    (key : (net.sites s).apiKey headers = .ok apikey) (known : (net.sites s).galaxy = some galaxy)
    (names : (items.map (·.namespace_)).filter (net.sites s).elsewhere = name :: rest)
    (left : headers.hopsLeft galaxy.maxHops = some hops) :
    net.settles (.writeBulk items) s way headers =
      (forwardBatch post galaxy (name :: rest) hops ((net.sites s).originToSend headers) st).2.toOption.isSome := by
  obtain ⟨_, answers⟩ := @forwardBatch_log net hops st ((net.sites s).originToSend headers) post sent _
    posts galaxy (name :: rest)
  have heard : (Network.forwardBatch galaxy (name :: rest) (.writeBulk items) hops
      ((net.sites s).originToSend headers)).any (fun posted => net.answers (way ++ [posted.url]) posted.url) =
      (decide (hops ≠ 0) && (galaxy.wanted (name :: rest)).any fun peer =>
        net.answers (way ++ [peer.url]) peer.url) := by
    simp only [Network.forwardBatch]
    split <;> simp_all [List.any_map, Network.send, Function.comp_def]
  rw [answers, ← heard]
  simp [settles, passesOn, any_elsewhere, known, Network.forwards, Call.ask, key, names, left]

/-- A batch leaves behind what its copies do, and then what is recorded here. -/
theorem writeBulk_log (posts : Posts post sent fun url => net.answers (way ++ [url]) url) (items : List BulkSighting) :
    (writeBulk s way headers post items st).1.log = st.log ++
      (((net.forwards s headers (.writeBulk items)).flatMap fun posted => sent posted.url posted.headers) ++
        (net.taken (.writeBulk items) s way headers).map fun index => ⟨s, way, index⟩) := by
  simp only [writeBulk, taken, Network.forwards]
  cases key : (net.sites s).apiKey headers with
  | error e => simp
  | ok apikey =>
      have local_ : (eachItem (net.writeItem s way headers apikey) 0 items st).1.log = st.log ++
          (accepted (net.sites s) apikey 0 items).map fun index => ⟨s, way, index⟩ :=
        eachItem_log (fun _ _ _ => writeItem_log) items
      cases known : (net.sites s).galaxy with
      | none => simp [settles, passesOn, known, local_, Call.items]
      | some galaxy =>
          have any := any_elsewhere (net.sites s) items
          cases names : (items.map (·.namespace_)).filter (net.sites s).elsewhere with
          | nil => simp [settles, passesOn, any, names, local_, Call.items]
          | cons name rest =>
              dsimp only
              cases left : headers.hopsLeft galaxy.maxHops with
              | none => simp [settles, passesOn, any, known, Network.forwards, Call.ask, key, names, left]
              | some hops =>
                  obtain ⟨log, answers⟩ := @forwardBatch_log net hops st ((net.sites s).originToSend headers) post sent _
                    posts galaxy (name :: rest)
                  have copies := flatMap_send sent (galaxy.wanted (name :: rest)) (.writeBulk items) hops
                    ((net.sites s).originToSend headers)
                  have settled := @settles_passed net s hops way headers st post sent apikey posts items name rest galaxy
                    key known names left
                  dsimp only
                  rw [settled, Network.forwardBatch, copies]
                  cases passed : forwardBatch post galaxy (name :: rest) hops ((net.sites s).originToSend headers) st with
                  | mk st₁ result =>
                      rw [passed] at log
                      cases result with
                      | error e => simpa [Except.toOption] using log
                      | ok replies =>
                          have merged := @mergedBatch_log net s way headers st₁ apikey items replies
                          rw [log] at merged
                          simpa [Except.toOption, Call.items, List.append_assoc] using merged

theorem noteConsensus_log (name value : String) (answer : Reply) : (noteConsensus s name value answer st).log = st.log := by
  simp only [noteConsensus]
  split
  · split <;> rfl
  · rfl

/-- Recording at a server is refused where the server does not accept the item. -/
theorem record_log_accepts {apikey : Option String} {item : BulkSighting} {when : Option DateTime}
    (permitted : (net.sites s).refusalFor apikey item.namespace_ .write = none)
    (instant : timestampToInstant item.timestamp = .ok when) :
    (st.record (net.worlds s) s way headers.originOf 0 item when).1.log = st.log ++
      (accepted (net.sites s) apikey 0 [item]).map fun index => ⟨s, way, index⟩ := by
  rcases @checkItem_accepts apikey item _ _ (st.stores s) with ⟨⟨_, _, passes⟩, accepts⟩ | ⟨never, refuses⟩
  · rw [(record_log passes).1]
    simp [accepted, accepts]
  · have fails : ∃ e, check (st.dbs s) item.namespace_ item.value = .error e := by
      cases checked : check (st.dbs s) item.namespace_ item.value with
      | error e => exact ⟨e, rfl⟩
      | ok _ => exact absurd (by simp [checkItem, permitted, checked, instant]) (never when)
    obtain ⟨e, fails⟩ := fails
    simp [accepted, refuses, State.record, writeTaggedAs, fails, State.put]

/-- A single write leaves behind what its copies do, or else what is recorded here. -/
theorem write_log (posts : Posts post sent fun url => net.answers (way ++ [url]) url) (name : String)
    (query : WriteQuery) : (write s way headers post name query st).1.log = st.log ++
      (((net.forwards s headers (.write name query)).flatMap fun posted => sent posted.url posted.headers) ++
        (net.taken (.write name query) s way headers).map fun index => ⟨s, way, index⟩) := by
  rcases keyed : (net.sites s).apiKey headers with e | apikey
  · simp [write, taken, Network.forwards, Site.authorized, keyed]
  · rcases refused : (net.sites s).refusalFor apikey name .write with _ | message
    · rcases val : query.val with _ | value
      · simp [write, taken, Network.forwards, Site.authorized, keyed, refused, val, Call.items, accepted]
      · have items : (Call.write name query).items = [query.item name value] := by simp [Call.items, val]
        rcases decided : (net.sites s).shouldForward headers name with _ | ⟨galaxy, _ | hops⟩
        · simp only [write, taken, Network.forwards, Site.authorized, keyed, refused, val, settles, passesOn, decided, items]
          cases instant : timestampToInstant query.timestamp with
          | error message => simp [accepted, Site.accepts, WriteQuery.item, instant, Except.toOption]
          | ok when =>
              have log := @record_log_accepts net s way headers st apikey (query.item name value) when refused instant
              dsimp only
              generalize st.record (net.worlds s) s way headers.originOf 0 (query.item name value) when = recorded at log ⊢
              obtain ⟨st₁, e | done⟩ := recorded <;> simpa using log
        · simp [write, taken, Network.forwards, Site.authorized, keyed, refused, val, settles, passesOn, decided]
        · have log := @forwardWrite_log net hops st ((net.sites s).originToSend headers) post sent _ posts galaxy name
          have copies := flatMap_send sent (galaxy.liveHolders name) (.write name query) hops
            ((net.sites s).originToSend headers)
          simp only [write, taken, Network.forwards, Site.authorized, keyed, refused, val, settles, passesOn, decided,
            Option.isNone_none, Option.isSome_some, Bool.and_self, if_true, Network.forwardWrite, copies]
          generalize forwardWrite post galaxy name hops ((net.sites s).originToSend headers) st = result at log ⊢
          obtain ⟨st₁, e | replies⟩ := result
          · simpa using log
          · dsimp only at log ⊢
            split
            · simpa [noteConsensus_log] using log
            · simpa using log
    · have none : accepted (net.sites s) apikey 0 (Call.write name query).items = [] := by
        cases val : query.val <;> simp [Call.items, val, accepted, Site.accepts, WriteQuery.item, refused]
      simp [write, taken, Network.forwards, Site.authorized, keyed, refused, none]

/-- What a request leaves behind is what the wiring says. -/
theorem serve_log (net : Traffic) (call : Call) (turns s : Nat) (way : List String) (headers : Headers)
    (st : State net.toNetwork) :
    (net.serve call turns s way headers st).1.log = st.log ++ net.plan call turns s way headers := by
  induction turns generalizing s way headers st with
  | zero => simp [serve, plan]
  | succ turns ih =>
      have posts := @deliver_posts net call turns way fun server headers way st => ih server way headers st
      cases call with
      | write name query => exact write_log posts name query
      | writeBulk items => exact writeBulk_log posts items

end Passing

/-! ## Ways -/

/-- A request that has come to a server along one way comes to another along a longer one. -/
inductive Delivered (net : Traffic) (call : Call) : Nat → List String → Headers → List String → Nat → Headers → Prop
  | here {s : Nat} {way : List String} {headers : Headers} : Delivered net call s way headers way s headers
  | pass {s next server : Nat} {way way' : List String} {headers headers' : Headers} {posted : Posted}
      (sent : posted ∈ net.forwards s headers call.ask)
      (arrives : net.arrivesAt (way ++ [posted.url]) posted.url = some next)
      (onward : Delivered net call next (way ++ [posted.url]) posted.headers way' server headers') :
      Delivered net call s way headers way' server headers'

section Ways

variable {net : Traffic} {call : Call} {s server turns : Nat} {way way' : List String} {headers headers' : Headers}
  {r : Record}

theorem Delivered.extends_ (delivered : Delivered net call s way headers way' server headers') :
    ∃ rest, way' = way ++ rest := by
  induction delivered with
  | here => exact ⟨[], (List.append_nil _).symm⟩
  | pass _ _ _ ih =>
      obtain ⟨rest, whole⟩ := ih
      exact ⟨_, whole.trans (List.append_assoc _ _ _)⟩

/-- Where a request has not been passed on, it is where it came in. -/
theorem Delivered.at_entry (delivered : Delivered net call s [] headers [] server headers') :
    server = s ∧ headers' = headers := by
  cases delivered with
  | here => exact ⟨rfl, rfl⟩
  | pass _ _ onward =>
      obtain ⟨rest, whole⟩ := onward.extends_
      simp at whole

/-- What a request leaves behind: at every server it comes to, the items taken there. -/
theorem mem_plan : r ∈ net.plan call turns s way headers ↔
    r.way.length < way.length + turns ∧ ∃ headers', Delivered net call s way headers r.way r.server headers' ∧
      r.index ∈ net.taken call r.server r.way headers' := by
  induction turns generalizing s way headers with
  | zero =>
      refine ⟨(by simp [plan]), ?_⟩
      rintro ⟨short, headers', delivered, _⟩
      obtain ⟨rest, whole⟩ := delivered.extends_
      simp [whole] at short
  | succ turns ih =>
      simp only [plan, List.mem_append, List.mem_flatMap, List.mem_map]
      constructor
      · rintro (⟨posted, sent, member⟩ | ⟨index, taken, rfl⟩)
        · split at member
          · cases member
          · rename_i next arrives
            obtain ⟨short, headers', delivered, taken⟩ := ih.mp member
            simp only [List.length_append, List.length_singleton] at short
            exact ⟨by omega, headers', .pass sent arrives delivered, taken⟩
        · exact ⟨by dsimp only; omega, headers, .here, taken⟩
      · rintro ⟨short, headers', delivered, taken⟩
        obtain ⟨server, way', index⟩ := r
        cases delivered with
        | here => exact .inr ⟨index, taken, rfl⟩
        | pass sent arrives onward =>
            refine .inl ⟨_, sent, ?_⟩
            rw [arrives]
            refine ih.mpr ⟨?_, headers', onward, taken⟩
            simp only [List.length_append, List.length_singleton]
            dsimp only at short
            omega

theorem mem_accepted {site : Site} {apikey : Option String} {index i : Nat} {items : List BulkSighting} :
    i ∈ accepted site apikey index items ↔ ∃ k item, i = index + k ∧ items[k]? = some item ∧
      site.accepts apikey item = true := by
  induction items generalizing index with
  | nil => simp [accepted]
  | cons first rest ih =>
      simp only [accepted, List.mem_append, ih]
      constructor
      · rintro (here | ⟨k, item, rfl, found, accepts⟩)
        · split at here
          · rename_i accepts
            exact ⟨0, first, List.mem_singleton.mp here, rfl, accepts⟩
          · cases here
        · exact ⟨k + 1, item, by omega, found, accepts⟩
      · rintro ⟨_ | k, item, rfl, found, accepts⟩
        · obtain rfl : first = item := by simpa using found
          exact .inl (by simp [accepts])
        · exact .inr ⟨k, item, by omega, by simpa using found, accepts⟩

theorem accepted_nodup (site : Site) (apikey : Option String) (index : Nat) (items : List BulkSighting) :
    (accepted site apikey index items).Nodup := by
  induction items generalizing index with
  | nil => exact List.nodup_nil
  | cons item rest ih =>
      simp only [accepted]
      split
      · refine List.nodup_cons.mpr ⟨fun again => ?_, ih (index + 1)⟩
        obtain ⟨k, _, same, _⟩ := mem_accepted.mp again
        omega
      · exact ih (index + 1)

theorem taken_nodup : (net.taken call s way headers).Nodup := by
  simp only [taken]
  split
  · exact List.nodup_nil
  · split
    · exact accepted_nodup ..
    · exact List.nodup_nil

end Ways

end Traffic

/-- The holders of one namespace after the other, each peer once. -/
theorem Galaxy.wanted_eq (galaxy : Galaxy) (names : List String) :
    galaxy.wanted names = Distinct.collect Peer.url (names.flatMap galaxy.liveHolders) :=
  List.foldl_flatMap.symm

/-- No peer is asked twice. -/
theorem Galaxy.wanted_nodup (galaxy : Galaxy) (names : List String) : ((galaxy.wanted names).map (·.url)).Nodup := by
  rw [wanted_eq]
  exact Distinct.collect_nodup _

namespace Traffic

section Ways

variable {net : Traffic} {call : Call} {s server turns : Nat} {way way' : List String} {headers headers' : Headers}

theorem forwards_nodup : ((net.forwards s headers call.ask).map (·.url)).Nodup := by
  cases call with
  | write name query =>
      simp only [Call.ask, Network.forwards]
      split
      · split
        · rename_i galaxy hops _
          simp only [Network.forwardWrite]
          split
          · exact List.nodup_nil
          · have live : ((galaxy.liveHolders name).map (·.url)).Nodup :=
              galaxy.apart.sublist ((List.filter_sublist.trans List.filter_sublist).map _)
            simpa [Network.send, Function.comp_def] using live
        · exact List.nodup_nil
      · exact List.nodup_nil
  | writeBulk items =>
      simp only [Call.ask, Network.forwards]
      split
      · split
        · simp only [Network.forwardBatch]
          split
          · exact List.nodup_nil
          · simpa [Network.send, Function.comp_def] using Galaxy.wanted_nodup _ _
        · exact List.nodup_nil
      · exact List.nodup_nil

/-- No copy of an item is recorded twice on the same way. -/
theorem plan_nodup : (net.plan call turns s way headers).Nodup := by
  induction turns generalizing s way headers with
  | zero => exact List.nodup_nil
  | succ turns ih =>
      simp only [plan]
      -- What is recorded further on has come by a longer way, through the URL it was sent to.
      have further : ∀ posted : Posted, ∀ r ∈ (match net.arrivesAt (way ++ [posted.url]) posted.url with
          | none => []
          | some server => net.plan call turns server (way ++ [posted.url]) posted.headers),
          ∃ rest, r.way = way ++ posted.url :: rest := by
        intro posted r member
        split at member
        · cases member
        · obtain ⟨_, _, delivered, _⟩ := mem_plan.mp member
          obtain ⟨rest, whole⟩ := delivered.extends_
          exact ⟨rest, by simpa using whole⟩
      refine List.nodup_append.mpr ⟨List.nodup_flatMap.mpr ⟨?_, ?_⟩, ?_, ?_⟩
      · intro posted _
        split
        · exact List.nodup_nil
        · exact ih
      · refine (List.pairwise_map.mp (@forwards_nodup net call s headers)).imp ?_
        intro one other apart r first second
        obtain ⟨rest, whole⟩ := further one r first
        obtain ⟨rest', whole'⟩ := further other r second
        rw [whole] at whole'
        exact apart (List.cons.inj (List.append_cancel_left whole')).1
      · exact taken_nodup.map fun index index' same => (Record.mk.inj same).2.2
      · intro r first r' second same
        obtain ⟨posted, _, member⟩ := List.mem_flatMap.mp first
        obtain ⟨rest, whole⟩ := further posted r member
        obtain ⟨index, _, rfl⟩ := List.mem_map.mp second
        rw [same] at whole
        simp at whole

/-- A client's request is passed on as often as its server's limit allows, at most. -/
theorem Delivered.short (delivered : Delivered net call s way headers way' server headers') :
    way'.length + (headers'.hopsLeft (net.hopLimit server)).getD 0 ≤
      way.length + (headers.hopsLeft (net.hopLimit s)).getD 0 := by
  induction delivered with
  | here => exact le_refl _
  | @pass s next server way way' headers headers' posted sent arrives onward ih =>
      have plain : net.pace ⟨s, headers, call.ask⟩ = (headers.hopsLeft (net.hopLimit s)).getD 0 := by
        cases call <;> rfl
      rcases Network.forwards_spends sent with ⟨_, listing, _⟩ | ⟨_, spends, _⟩
      · cases call <;> cases listing
      · rw [plain] at spends
        have left : (posted.headers.hopsLeft (net.hopLimit next)).getD 0 + 1 ≤
            (headers.hopsLeft (net.hopLimit s)).getD 0 := by
          rw [Headers.hopsLeft_of_left spends.header]
          exact (Nat.sub_add_cancel spends.positive).le
        simp only [List.length_append, List.length_singleton] at ih
        omega

/-- What a client's request leaves behind: at every server it comes to, the items taken
there, once for every way it comes. -/
theorem request_log (net : Traffic) (call : Call) (s : Nat) {headers : Headers} (client : headers.hops = .absent)
    (st : State net.toNetwork) : ∃ records, (net.request s call headers st).1.log = st.log ++ records ∧ records.Nodup ∧
      ∀ r : Record, r ∈ records ↔ ∃ headers', Delivered net call s [] headers r.way r.server headers' ∧
        r.index ∈ net.taken call r.server r.way headers' := by
  refine ⟨_, serve_log net call _ s [] headers st, plan_nodup, fun r => ?_⟩
  rw [mem_plan]
  refine ⟨fun found => found.2, fun found => ⟨?_, found⟩⟩
  obtain ⟨headers', delivered, _⟩ := found
  have short := delivered.short
  rw [show headers.hopsLeft (net.hopLimit s) = some (net.hopLimit s) by simp [Headers.hopsLeft, client]] at short
  simp only [List.length_nil, Option.getD_some] at short ⊢
  omega

end Ways

end Traffic

end SightingDB
