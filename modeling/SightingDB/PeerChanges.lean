import SightingDB.SavedPeers
import SightingDB.KeyChanges
import Mathlib.Data.List.Nodup

/-!
The peers of a running server: taken from the configuration and the peers file at the start,
changed through the management interface, and probed all the while. A change takes effect before
the file is written.
-/
namespace SightingDB

/-! ## Health -/

/-- What the last probe of one peer found. -/
structure PeerHealth where
  url : String
  online : Bool
  probed : Bool
  lastSeen : Int
  latencyMs : Option Nat
  version : Option String
  error : Option String
  failures : Nat
  catchingUp : Bool
  deriving DecidableEq

/-- What one peer's `/health` said. -/
structure Probed where
  version : Option String
  latencyMs : Nat
  catchingUp : Bool
  deriving DecidableEq

def u32Max : Nat := 4294967295

namespace PeerHealth

def unprobed (url : String) : PeerHealth := ⟨url, false, false, 0, none, none, none, 0, false⟩

/-- What is known after a probe. A failure keeps when the peer was last seen. -/
def probe (known : PeerHealth) (now : Int) : Except String Probed → PeerHealth
  | .ok probed => { known with
      probed := true
      online := true
      lastSeen := now
      latencyMs := some probed.latencyMs
      version := probed.version
      error := none
      failures := 0
      catchingUp := probed.catchingUp }
  | .error e => { known with
      probed := true
      online := false
      latencyMs := none
      error := some e
      failures := min (known.failures + 1) u32Max }

end PeerHealth

/-- The peers and what is known of their health. -/
structure PeerTable where
  peers : List Peer
  health : OrderedMap String PeerHealth
  deriving DecidableEq

namespace PeerTable

def new (peers : List Peer) : PeerTable :=
  ⟨peers, peers.foldl (fun health peer => health.insert peer.url (.unprobed peer.url)) ∅⟩

variable (table : PeerTable)

/-- `Galaxy::health`: every peer's, in the order of the peers. -/
def healths : List PeerHealth := table.peers.map fun peer => (table.health.get peer.url).getD (.unprobed peer.url)

def record (url : String) (now : Int) (outcome : Except String Probed) : PeerTable :=
  { table with health := table.health.insert url (((table.health.get url).getD (.unprobed url)).probe now outcome) }

def addPeer (settings : PeerSettings) (peer : Peer) : Except AddPeer PeerTable :=
  (settings.addPeer table.peers peer).map fun peer => { table with peers := table.peers ++ [peer] }

/-- Drop a peer, and its health with it. -/
def removePeer (url : String) : Option PeerTable :=
  let url := tidyUrl url
  let kept := table.peers.filter (·.url ≠ url)
  if kept.length = table.peers.length then none else some ⟨kept, table.health.erase url⟩

/-- The first peer with an address, changed where it stands. -/
def change (url : String) (f : Peer → Peer) : Option (List Peer) :=
  if table.peers.any (·.url = url) then
    some (table.peers.replaceF fun peer => if peer.url = url then some (f peer) else none)
  else none

/-- Take a peer out of service, or put it back. -/
def setEnabled (url : String) (enabled : Bool) : Option PeerTable :=
  let url := tidyUrl url
  (table.change url fun peer => { peer with enabled := enabled }).map fun peers => ⟨peers, table.health.erase url⟩

/-- Replace a peer's key or namespaces, keeping its place in the order. -/
def updatePeer (peer : Peer) : Option PeerTable :=
  let peer := { peer with url := tidyUrl peer.url, key := trim peer.key }
  if peer.key = "" then none else (table.change peer.url fun _ => peer).map fun peers => { table with peers := peers }

end PeerTable

/-! ## The requests -/

/-- What the requests work with: where the peers file is, and what cannot be changed. -/
structure PeerSite where
  settings : PeerSettings
  path : Option String

/-- The peers, unless there is no `[galaxy]` section, and the text of the peers file. -/
structure PeerServer where
  table : Option PeerTable
  file : Option String
  deriving DecidableEq

/-- One peer as the interface lists it, without its key. -/
structure PeerRow where
  url : String
  namespaces : Option (List String)
  fixed : Bool
  enabled : Bool
  health : PeerHealth
  deriving DecidableEq

structure PeersView where
  peers : List PeerRow
  editable : Bool
  note : Option String
  deriving DecidableEq

/-- A peer as the interface sends it. -/
structure PeerChange where
  url : String
  key : String
  namespaces : Option (List String)
  deriving DecidableEq

inductive PeerRequest
  | list
  | save (change : PeerChange) (replacing : Bool)
  | delete (url : String)
  | setEnabled (url : String) (enabled : Bool)
  deriving DecidableEq

/-- A request as it arrives: the keys there are, the key it carries, and whether the file can be
written while it is answered. -/
structure PeerCall where
  acl : Acl
  authorization : Option (Option String)
  request : PeerRequest
  disk : Except String Unit

namespace PeerSite

variable (site : PeerSite) (s : PeerServer)

def listPeers (call : PeerCall) : Except Refusal PeersView :=
  match requireAdmin call.acl call.authorization with
  | .error refusal => .error refusal
  | .ok _ => match s.table with
    | none => .ok ⟨[], false, some "This server has no [galaxy] section, so it has no peers to manage. Add one with a peers_file and restart; `sightingdb --setup` writes both."⟩
    | some table =>
        let health := table.healths.foldl (fun health known => health.insert known.url known) (∅ : OrderedMap String PeerHealth)
        .ok ⟨table.peers.map fun peer => ⟨peer.url, peer.namespaces, site.settings.isFixed peer.url, peer.enabled,
            (health.get peer.url).getD (.unprobed peer.url)⟩,
          site.path.isSome,
          if site.path.isSome then none
          else some "No peers_file is configured, so peers cannot be edited here. Set peers_file in [galaxy] and restart."⟩

/-- Where peers are written, or why they cannot be. -/
def peersFile : Except Refusal String :=
  if s.table.isNone then
    .error ⟨409, "This server has no [galaxy] section, so it has no galaxy to add to. Add one with a peers_file and restart."⟩
  else match site.path with
    | some path => .ok path
    | none => .error ⟨409, "No peers_file is configured, so peers cannot be edited here. Set peers_file in [galaxy] and restart."⟩

/-- Write the peers the interface owns. The change is in effect whether or not they are written. -/
def savePeers (call : PeerCall) (path : String) (table : PeerTable) : PeerServer × Except Refusal Unit :=
  match call.disk with
  | .ok () => (⟨some table, some (PeersFile.toToml (site.settings.editablePeers table.peers))⟩, .ok ())
  | .error e => (⟨some table, s.file⟩, .error ⟨500, "The galaxy was changed and is in effect now, but " ++ path ++
      " could not be written, so the change will be lost on restart: " ++ e⟩)

/-- What a request to add or change a peer makes of the peers. -/
def saved (table : PeerTable) (change : PeerChange) (replacing : Bool) : Except Refusal PeerTable :=
  -- An empty list of namespaces is everything, and a change leaves a peer in or out of service.
  let namespaces := change.namespaces.filter (· ≠ [])
  let enabled := ((table.peers.find? (·.url = tidyUrl change.url)).map (·.enabled)).getD true
  match validatedPeer change.url change.key namespaces enabled with
  | .error e => .error ⟨400, e⟩
  | .ok peer =>
      if site.settings.isFixed peer.url then
        .error ⟨409, peer.url ++ " is declared in the configuration file. Change it there, or remove it from [galaxy] peers to manage it here."⟩
      else if replacing then match table.updatePeer peer with
        | none => .error ⟨404, peer.url ++ " is not in this galaxy. Add it instead."⟩
        | some table => .ok table
      else match table.addPeer site.settings peer with
        | .error (.invalid message) => .error ⟨400, message⟩
        | .error (.alreadyThere message) => .error ⟨409, message⟩
        | .ok table => .ok table

def deleted (table : PeerTable) (url : String) : Except Refusal PeerTable :=
  if site.settings.isFixed url then
    .error ⟨409, url ++ " is declared in the configuration file, so removing it here would not last: it would come back at the next restart. Remove it from [galaxy] peers instead."⟩
  else match table.removePeer url with
    | none => .error ⟨404, "No such peer."⟩
    | some table => .ok table

def switched (table : PeerTable) (url : String) (enabled : Bool) : Except Refusal PeerTable :=
  if site.settings.isFixed url then
    .error ⟨409, url ++ " is declared in the configuration file, so disabling it here would not last: it would come back at the next restart. Set enabled = false on it in [galaxy] peers instead."⟩
  else match table.setEnabled url enabled with
    | none => .error ⟨404, "No such peer."⟩
    | some table => .ok table

/-- What `save_peer`, `delete_peer` and `set_peer_enabled` share: the change takes effect, is
written, and is answered with the whole list. -/
def edit (call : PeerCall) (f : PeerTable → Except Refusal PeerTable) : PeerServer × Except Refusal PeersView :=
  match requireAdmin call.acl call.authorization with
  | .error refusal => (s, .error refusal)
  | .ok _ => match site.peersFile s with
    | .error refusal => (s, .error refusal)
    | .ok path => match s.table with
      | none => (s, .error ⟨409, "This server has no galaxy."⟩)
      | some table => match f table with
        | .error refusal => (s, .error refusal)
        | .ok table => match site.savePeers s call path table with
          | (s, .error refusal) => (s, .error refusal)
          | (s, .ok ()) => (s, site.listPeers s call)

def handle (call : PeerCall) : PeerServer × Except Refusal PeersView :=
  match call.request with
  | .list => (s, site.listPeers s call)
  | .save change replacing => site.edit s call (site.saved · change replacing)
  | .delete url => site.edit s call (site.deleted · url)
  | .setEnabled url enabled => site.edit s call (site.switched · url enabled)

end PeerSite

/-! ## The start -/

/-- `[galaxy]`, as far as it is checked. -/
structure RawGalaxy where
  peers : List FilePeer
  maxHops : Nat
  healthInterval : Nat
  aclAuthority : Bool
  aclReplaceable : Bool

/-- One peer of the configuration. -/
def RawGalaxy.take (path : String) (peers : List Peer) (raw : FilePeer) : Except String (List Peer) :=
  match validatedPeer raw.url raw.key raw.namespaces (raw.enabled.getD true) with
  | .error e => .error ("[galaxy] " ++ e ++ ", in " ++ path)
  | .ok peer =>
      if peers.any (·.url = peer.url) then .error ("[galaxy] lists peer '" ++ peer.url ++ "' twice, in " ++ path)
      else .ok (peers ++ [peer])

/-- A peer of the file, unless the configuration declares it or it was listed before. -/
def takeSaved (peers : List Peer) (peer : Peer) : List Peer :=
  if peers.any (·.url = peer.url) then peers else peers ++ [peer]

/-- `into_settings`: the peers, and the addresses that are not to be changed. -/
def RawGalaxy.intoSettings (raw : RawGalaxy) (path : String) (file : Option String) : Except String (List Peer × List String) :=
  match raw.peers.foldlM (RawGalaxy.take path) [] with
  | .error e => .error e
  | .ok configured =>
      let peers := (loadFilePeers file).foldl takeSaved configured
      if raw.maxHops = 0 then .error ("[galaxy] max_hops must be at least 1, in " ++ path)
      else if raw.aclAuthority && raw.aclReplaceable then
        .error ("[galaxy] sets both acl_authority and acl_replaceable, in " ++ path ++ ". A server that owns the galaxy's keys cannot also let another server replace them: the two would take turns overwriting each other.")
      else if raw.healthInterval = 0 then .error ("[galaxy] health_interval must be at least 1 second, in " ++ path)
      else .ok (peers, configured.map (·.url))

/-! ## Runs -/

/-- What happens to a running server's peers. A probe ends for a peer that may be gone by then. -/
inductive PeerEvent
  | call (call : PeerCall)
  | probed (url : String) (now : Int) (outcome : Except String Probed)

namespace PeerSite

def step (site : PeerSite) (s : PeerServer) : PeerEvent → PeerServer
  | .call call => (site.handle s call).1
  | .probed url now outcome => { s with table := s.table.map (·.record url now outcome) }

def run (site : PeerSite) (s : PeerServer) (events : List PeerEvent) : PeerServer := events.foldl site.step s

end PeerSite

/-! ## A peer changed where it stands -/

/-- One more peer, under an address of its own. -/
theorem urls_snoc {peers : List Peer} {peer : Peer} (apart : (peers.map (·.url)).Nodup)
    (fresh : ∀ known ∈ peers, known.url ≠ peer.url) : ((peers ++ [peer]).map (·.url)).Nodup := by
  rw [List.map_append, List.nodup_append]
  refine ⟨apart, by simp, fun a mem b single => ?_⟩
  obtain ⟨known, here, rfl⟩ := List.mem_map.mp mem
  rw [List.map_singleton, List.mem_singleton] at single
  rw [single]
  exact fresh known here

namespace PeerTable

section Change

variable {url : String} {f : Peer → Peer}

/-- `change`, on the list. -/
def changed (url : String) (f : Peer → Peer) (peers : List Peer) : List Peer :=
  peers.replaceF fun peer => if peer.url = url then some (f peer) else none

theorem changed_append {configured : List Peer} (apart : ∀ peer ∈ configured, peer.url ≠ url) (added : List Peer) :
    changed url f (configured ++ added) = configured ++ changed url f added := by
  induction configured with
  | nil => rfl
  | cons peer rest ih =>
      have other := apart peer List.mem_cons_self
      have later := ih fun peer mem => apart peer (List.mem_cons_of_mem _ mem)
      rw [changed] at later ⊢
      rw [List.cons_append, List.replaceF, if_neg other, later]
      rfl

theorem changed_urls (same : ∀ peer : Peer, peer.url = url → (f peer).url = url) (peers : List Peer) :
    (changed url f peers).map (·.url) = peers.map (·.url) := by
  induction peers with
  | nil => rfl
  | cons peer rest ih =>
      rw [changed, List.replaceF]
      by_cases here : peer.url = url
      · rw [if_pos here]
        simp [same peer here, here]
      · rw [if_neg here, List.map_cons, List.map_cons]
        exact congrArg _ ih

theorem changed_all {P : Peer → Prop} {peers : List Peer} (before : ∀ peer ∈ peers, P peer)
    (made : ∀ peer ∈ peers, peer.url = url → P (f peer)) : ∀ peer ∈ changed url f peers, P peer := by
  induction peers with
  | nil => exact fun _ mem => by cases mem
  | cons first rest ih =>
      have later := ih (fun peer mem => before peer (List.mem_cons_of_mem _ mem))
        fun peer mem => made peer (List.mem_cons_of_mem _ mem)
      rw [changed, List.replaceF]
      by_cases here : first.url = url
      · rw [if_pos here]
        intro peer mem
        rcases List.mem_cons.mp mem with rfl | mem
        · exact made first List.mem_cons_self here
        · exact before peer (List.mem_cons_of_mem _ mem)
      · rw [if_neg here]
        intro peer mem
        rcases List.mem_cons.mp mem with rfl | mem
        · exact before peer List.mem_cons_self
        · exact later peer mem

theorem change_eq {table : PeerTable} {peers : List Peer} (made : table.change url f = some peers) :
    (∃ peer ∈ table.peers, peer.url = url) ∧ peers = changed url f table.peers := by
  rw [change] at made
  split_ifs at made with there
  exact ⟨by simpa using there, (Option.some.inj made).symm⟩

end Change

/-! ## What every change keeps -/

/-- The peers of the configuration come first and as they were, no address occurs twice, and the
others have passed the checks and are not declared. -/
structure Kept (settings : PeerSettings) (configured : List Peer) (table : PeerTable) (added : List Peer) : Prop where
  peers : table.peers = configured ++ added
  apart : (table.peers.map (·.url)).Nodup
  free : ∀ peer ∈ added, settings.isFixed peer.url = false
  fit : ∀ peer ∈ added, peer.Fit

variable {settings : PeerSettings} {configured added : List Peer} {table table' : PeerTable}

theorem Kept.of_changed (kept : Kept settings configured table added) {url : String} {f : Peer → Peer} {peers : List Peer}
    {health : OrderedMap String PeerHealth} (declared : settings.fixed = configured.map (·.url)) (free : url ∉ settings.fixed)
    (made : table.change url f = some peers) (same : ∀ peer : Peer, peer.url = url → (f peer).url = url)
    (fit : ∀ peer ∈ added, peer.url = url → (f peer).Fit) :
    Kept settings configured ⟨peers, health⟩ (changed url f added) := by
  obtain ⟨-, rfl⟩ := change_eq made
  have apart : ∀ peer ∈ configured, peer.url ≠ url := by
    intro peer mem here
    rw [declared] at free
    exact free (here ▸ List.mem_map_of_mem mem)
  refine ⟨?_, ?_, ?_, changed_all kept.fit fit⟩
  · rw [kept.peers, changed_append apart]
  · rw [changed_urls same]
    exact kept.apart
  · refine changed_all kept.free fun peer mem here => ?_
    rw [same peer here, ← here]
    exact kept.free peer mem

theorem isFixed_eq_false {url : String} : settings.isFixed url = false ↔ tidyUrl url ∉ settings.fixed := by
  simp [PeerSettings.isFixed]

theorem Kept.add (kept : Kept settings configured table added) {url key : String} {namespaces : Option (List String)}
    {enabled : Bool} {peer : Peer} (valid : validatedPeer url key namespaces enabled = .ok peer)
    (made : table.addPeer settings peer = .ok table') : ∃ added', Kept settings configured table' added' := by
  rw [addPeer] at made
  cases passes : settings.addPeer table.peers peer with
  | error e =>
      rw [passes] at made
      cases made
  | ok peer' =>
      rw [passes] at made
      obtain rfl : { table with peers := table.peers ++ [peer'] } = table' := Except.ok.inj made
      obtain ⟨-, -, -, -, fit⟩ := validatedPeer_eq valid
      obtain ⟨same, scheme, key_⟩ := PeerSettings.addPeer_eq passes
      have fresh : (∀ known ∈ table.peers, known.url ≠ peer'.url) ∧ settings.isFixed peer'.url = false := by
        simp only [PeerSettings.addPeer] at passes
        split_ifs at passes with c₁ c₂ c₃ c₄ known fixed
        rw [same]
        exact ⟨by simpa using known, by simpa using fixed⟩
      refine ⟨added ++ [peer'], ?_, ?_, ?_, ?_⟩
      · rw [kept.peers, List.append_assoc]
      · exact urls_snoc kept.apart fresh.1
      · intro other mem
        rcases List.mem_append.mp mem with old | new
        · exact kept.free other old
        · rw [List.mem_singleton.mp new]
          exact fresh.2
      · intro other mem
        rcases List.mem_append.mp mem with old | new
        · exact kept.fit other old
        · rw [List.mem_singleton.mp new]
          rw [same] at scheme key_ ⊢
          exact ⟨scheme, key_, trim_idem _, fit.stores, fit.valid⟩

theorem Kept.update (kept : Kept settings configured table added) (declared : settings.fixed = configured.map (·.url))
    {url key : String} {namespaces : Option (List String)} {enabled : Bool} {peer : Peer}
    (valid : validatedPeer url key namespaces enabled = .ok peer) (free : settings.isFixed peer.url = false)
    (made : table.updatePeer peer = some table') : ∃ added', Kept settings configured table' added' := by
  rw [updatePeer] at made
  dsimp only at made
  split_ifs at made with blank
  obtain ⟨peers, changed, rfl⟩ := Option.map_eq_some_iff.mp made
  obtain ⟨-, -, -, -, fit⟩ := validatedPeer_eq valid
  refine ⟨_, kept.of_changed declared (isFixed_eq_false.mp free) changed (fun _ _ => rfl) fun known mem here => ?_⟩
  -- Only the address is not checked again, and it is the one of the peer that is there.
  exact ⟨here ▸ (kept.fit known mem).scheme, blank, trim_idem _, fit.stores, fit.valid⟩

theorem Kept.setEnabled (kept : Kept settings configured table added) (declared : settings.fixed = configured.map (·.url))
    {url : String} {enabled : Bool} (free : settings.isFixed url = false) (made : table.setEnabled url enabled = some table') :
    ∃ added', Kept settings configured table' added' := by
  obtain ⟨peers, changed, rfl⟩ := Option.map_eq_some_iff.mp made
  refine ⟨_, kept.of_changed declared (isFixed_eq_false.mp free) changed (fun _ here => here) fun known mem _ => ?_⟩
  have fit := kept.fit known mem
  exact ⟨fit.scheme, fit.key, fit.trimmed, fit.stores, fit.valid⟩

theorem Kept.remove (kept : Kept settings configured table added) (declared : settings.fixed = configured.map (·.url))
    {url : String} (free : settings.isFixed url = false) (made : table.removePeer url = some table') :
    ∃ added', Kept settings configured table' added' := by
  rw [removePeer] at made
  split_ifs at made
  obtain rfl := Option.some.inj made
  have apart : ∀ peer ∈ configured, peer.url ≠ tidyUrl url := by
    intro peer mem here
    have none := isFixed_eq_false.mp free
    rw [declared] at none
    exact none (here ▸ List.mem_map_of_mem mem)
  refine ⟨added.filter (·.url ≠ tidyUrl url), ?_, ?_, ?_, ?_⟩
  · rw [kept.peers, List.filter_append, List.filter_eq_self.mpr fun peer mem => by simpa using apart peer mem]
  · exact kept.apart.sublist (List.Sublist.map _ List.filter_sublist)
  · exact fun peer mem => kept.free peer (List.mem_of_mem_filter mem)
  · exact fun peer mem => kept.fit peer (List.mem_of_mem_filter mem)

theorem Kept.editable (kept : Kept settings configured table added) (declared : settings.fixed = configured.map (·.url))
    (tidy : ∀ peer ∈ configured, tidyUrl peer.url = peer.url) : settings.editablePeers table.peers = added := by
  rw [PeerSettings.editablePeers, kept.peers, List.filter_append, List.filter_eq_nil_iff.mpr fun peer mem => ?_,
    List.filter_eq_self.mpr fun peer mem => by simp [kept.free peer mem], List.nil_append]
  have named : peer.url ∈ settings.fixed := declared ▸ List.mem_map_of_mem mem
  simp [PeerSettings.isFixed, tidy peer mem, named]

end PeerTable

/-! ## One request -/

namespace PeerSite

variable {site : PeerSite} {s : PeerServer} {call : PeerCall} {f : PeerTable → Except Refusal PeerTable}

/-- A change is turned down and nothing happens, or it takes effect, and it is answered exactly when
the file was written. -/
theorem edit_cases (tame : ∀ table refusal, f table = .error refusal → refusal.status ≠ 500) :
    ((site.edit s call f).1 = s ∧ ∃ refusal, (site.edit s call f).2 = .error refusal ∧ refusal.status ≠ 500) ∨
      ∃ table table', s.table = some table ∧ f table = .ok table' ∧
        (call.disk = .ok () ∧ (∃ view, (site.edit s call f).2 = .ok view) ∧
            (site.edit s call f).1 = ⟨some table', some (PeersFile.toToml (site.settings.editablePeers table'.peers))⟩ ∨
          (∃ e, call.disk = .error e) ∧ (∃ message, (site.edit s call f).2 = .error ⟨500, message⟩) ∧
            (site.edit s call f).1 = ⟨some table', s.file⟩) := by
  rw [edit]
  cases who : requireAdmin call.acl call.authorization with
  | error refusal =>
      refine .inl ⟨rfl, refusal, rfl, ?_⟩
      rw [requireAdmin.eq_def] at who
      split at who
      · cases who
        decide
      · cases who
        decide
      · split_ifs at who
        cases who
        decide
  | ok caller =>
      dsimp only
      rw [peersFile]
      cases has : s.table with
      | none => exact .inl ⟨rfl, _, rfl, by decide⟩
      | some table =>
          cases here : site.path with
          | none => exact .inl ⟨rfl, _, rfl, by decide⟩
          | some path =>
              simp only [Option.isNone_some, Bool.false_eq_true, if_false]
              cases made : f table with
              | error refusal => exact .inl ⟨rfl, refusal, rfl, tame table refusal made⟩
              | ok table' =>
                  refine .inr ⟨table, table', rfl, made, ?_⟩
                  dsimp only
                  rw [savePeers]
                  cases call.disk with
                  | error e => exact .inr ⟨⟨e, rfl⟩, ⟨_, rfl⟩, rfl⟩
                  | ok _ =>
                      refine .inl ⟨rfl, ?_, rfl⟩
                      dsimp only
                      rw [listPeers, who]
                      exact ⟨_, rfl⟩

theorem saved_tame (change : PeerChange) (replacing : Bool) (table : PeerTable) (refusal : Refusal)
    (refused : site.saved table change replacing = .error refusal) : refusal.status ≠ 500 := by
  rw [saved] at refused
  split at refused
  · cases refused
    simp
  · split_ifs at refused
    · cases refused
      simp
    · split at refused
      · cases refused
        simp
      · cases refused
    · split at refused
      · cases refused
        simp
      · cases refused
        simp
      · cases refused

theorem deleted_tame (url : String) (table : PeerTable) (refusal : Refusal) (refused : site.deleted table url = .error refusal) :
    refusal.status ≠ 500 := by
  rw [deleted] at refused
  split_ifs at refused
  · cases refused
    simp
  · split at refused
    · cases refused
      simp
    · cases refused

theorem switched_tame (url : String) (enabled : Bool) (table : PeerTable) (refusal : Refusal)
    (refused : site.switched table url enabled = .error refusal) : refusal.status ≠ 500 := by
  rw [switched] at refused
  split_ifs at refused
  · cases refused
    simp
  · split at refused
    · cases refused
      simp
    · cases refused

/-! ## What a request keeps -/

variable {configured added : List Peer} {table table' : PeerTable}

theorem saved_keeps (kept : table.Kept site.settings configured added) (declared : site.settings.fixed = configured.map (·.url))
    {change : PeerChange} {replacing : Bool} (made : site.saved table change replacing = .ok table') :
    ∃ added', table'.Kept site.settings configured added' := by
  rw [saved] at made
  split at made
  · cases made
  · rename_i peer valid
    split_ifs at made with fixed replaces
    · split at made
      · cases made
      · rename_i updated
        obtain rfl := Except.ok.inj made
        exact kept.update declared valid (by simpa using fixed) updated
    · split at made
      · cases made
      · cases made
      · rename_i taken
        obtain rfl := Except.ok.inj made
        exact kept.add valid taken

theorem deleted_keeps (kept : table.Kept site.settings configured added) (declared : site.settings.fixed = configured.map (·.url))
    {url : String} (made : site.deleted table url = .ok table') : ∃ added', table'.Kept site.settings configured added' := by
  rw [deleted] at made
  split_ifs at made with fixed
  split at made
  · cases made
  · rename_i removed
    obtain rfl := Except.ok.inj made
    exact kept.remove declared (by simpa using fixed) removed

theorem switched_keeps (kept : table.Kept site.settings configured added) (declared : site.settings.fixed = configured.map (·.url))
    {url : String} {enabled : Bool} (made : site.switched table url enabled = .ok table') :
    ∃ added', table'.Kept site.settings configured added' := by
  rw [switched] at made
  split_ifs at made with fixed
  split at made
  · cases made
  · rename_i switched
    obtain rfl := Except.ok.inj made
    exact kept.setEnabled declared (by simpa using fixed) switched

/-- Where a change comes from. -/
def editOf (site : PeerSite) : PeerRequest → Option (PeerTable → Except Refusal PeerTable)
  | .list => none
  | .save change replacing => some (site.saved · change replacing)
  | .delete url => some (site.deleted · url)
  | .setEnabled url enabled => some (site.switched · url enabled)

theorem handle_eq (site : PeerSite) (s : PeerServer) (call : PeerCall) : site.handle s call =
    match site.editOf call.request with
    | none => (s, site.listPeers s call)
    | some f => site.edit s call f := by
  rw [handle]
  cases call.request <;> rfl

theorem editOf_tame {request : PeerRequest} (edit : site.editOf request = some f) (table : PeerTable) (refusal : Refusal)
    (refused : f table = .error refusal) : refusal.status ≠ 500 := by
  cases request with
  | list => cases edit
  | save change replacing =>
      obtain rfl := Option.some.inj edit
      exact saved_tame change replacing table refusal refused
  | delete url =>
      obtain rfl := Option.some.inj edit
      exact deleted_tame url table refusal refused
  | setEnabled url enabled =>
      obtain rfl := Option.some.inj edit
      exact switched_tame url enabled table refusal refused

theorem editOf_keeps {request : PeerRequest} (edit : site.editOf request = some f)
    (kept : table.Kept site.settings configured added) (declared : site.settings.fixed = configured.map (·.url))
    (made : f table = .ok table') : ∃ added', table'.Kept site.settings configured added' := by
  cases request with
  | list => cases edit
  | save change replacing =>
      obtain rfl := Option.some.inj edit
      exact saved_keeps kept declared made
  | delete url =>
      obtain rfl := Option.some.inj edit
      exact deleted_keeps kept declared made
  | setEnabled url enabled =>
      obtain rfl := Option.some.inj edit
      exact switched_keeps kept declared made

/-- A server whose peers are as they should be. -/
def Stands (site : PeerSite) (configured : List Peer) (s : PeerServer) : Prop :=
  ∃ table added, s.table = some table ∧ table.Kept site.settings configured added

theorem Stands.handle (stands : Stands site configured s) (declared : site.settings.fixed = configured.map (·.url))
    (call : PeerCall) : Stands site configured (site.handle s call).1 := by
  obtain ⟨table, added, has, kept⟩ := stands
  rw [handle_eq]
  cases edit : site.editOf call.request with
  | none => exact ⟨table, added, has, kept⟩
  | some f =>
      dsimp only
      rcases @edit_cases site s call f (editOf_tame edit) with
        ⟨same, -⟩ | ⟨before, table', was, made, effect⟩
      · rw [same]
        exact ⟨table, added, has, kept⟩
      · obtain rfl := Option.some.inj (has.symm.trans was)
        obtain ⟨added', kept'⟩ := editOf_keeps edit kept declared made
        rcases effect with ⟨-, -, after⟩ | ⟨-, -, after⟩
        · rw [after]
          exact ⟨table', added', rfl, kept'⟩
        · rw [after]
          exact ⟨table', added', rfl, kept'⟩

theorem Stands.step (stands : Stands site configured s) (declared : site.settings.fixed = configured.map (·.url))
    (event : PeerEvent) : Stands site configured (site.step s event) := by
  cases event with
  | call call => exact stands.handle declared call
  | probed url now outcome =>
      obtain ⟨table, added, has, kept⟩ := stands
      exact ⟨table.record url now outcome, added, by simp [PeerSite.step, has], kept.peers, kept.apart, kept.free, kept.fit⟩

theorem Stands.run (stands : Stands site configured s) (declared : site.settings.fixed = configured.map (·.url))
    (events : List PeerEvent) : Stands site configured (site.run s events) := by
  induction events generalizing s with
  | nil => exact stands
  | cons event rest ih => exact ih (stands.step declared event)

end PeerSite

/-! ## The start and the restart -/

namespace RawGalaxy

theorem take_apart {path : String} {raws : List FilePeer} {before configured : List Peer}
    (apart : (before.map (·.url)).Nodup) (taken : raws.foldlM (take path) before = .ok configured) :
    (configured.map (·.url)).Nodup := by
  induction raws generalizing before with
  | nil =>
      obtain rfl := Except.ok.inj taken
      exact apart
  | cons raw rest ih =>
      rw [List.foldlM_cons] at taken
      cases first : take path before raw with
      | error e =>
          rw [first] at taken
          cases taken
      | ok next =>
          rw [first] at taken
          refine ih ?_ taken
          rw [take] at first
          split at first
          · cases first
          · rename_i peer valid
            split_ifs at first with known
            obtain rfl := Except.ok.inj first
            exact urls_snoc apart (by simpa using known)

end RawGalaxy

/-- What is taken from the file comes behind the rest, under addresses of its own. -/
theorem takeSaved_spec (saved : List Peer) {peers : List Peer} (apart : (peers.map (·.url)).Nodup) :
    ∃ added, saved.foldl takeSaved peers = peers ++ added ∧ (∀ peer ∈ added, peer ∈ saved) ∧
      ((peers ++ added).map (·.url)).Nodup := by
  induction saved generalizing peers with
  | nil => exact ⟨[], by simp, by simp, by simpa using apart⟩
  | cons peer rest ih =>
      rw [List.foldl_cons, takeSaved]
      split_ifs with known
      · obtain ⟨added, same, from_, nodup⟩ := ih apart
        exact ⟨added, same, fun peer mem => List.mem_cons_of_mem _ (from_ peer mem), nodup⟩
      · have fresh := urls_snoc apart (by simpa using known)
        obtain ⟨added, same, from_, nodup⟩ := ih fresh
        refine ⟨peer :: added, by simpa using same, fun other mem => ?_, by simpa using nodup⟩
        rcases List.mem_cons.mp mem with rfl | mem
        · exact List.mem_cons_self
        · exact List.mem_cons_of_mem _ (from_ other mem)

/-- Peers under addresses of their own are all taken. -/
theorem takeSaved_all {peers saved : List Peer} (apart : ((peers ++ saved).map (·.url)).Nodup) :
    saved.foldl takeSaved peers = peers ++ saved := by
  induction saved generalizing peers with
  | nil => simp
  | cons peer rest ih =>
      have fresh : peers.any (·.url = peer.url) = false := by
        rw [List.any_eq_false]
        intro known mem
        rw [List.map_append, List.nodup_append] at apart
        simpa using apart.2.2 _ (List.mem_map_of_mem mem) _ (List.mem_map_of_mem List.mem_cons_self)
      rw [List.foldl_cons, takeSaved, if_neg (by simp [fresh]), ih (by simpa using apart)]
      simp

theorem fit_of_loaded {file : Option String} {peer : Peer} (mem : peer ∈ loadFilePeers file) : peer.Fit := by
  rw [loadFilePeers.eq_def] at mem
  split at mem
  · cases mem
  · split at mem
    · cases mem
    · obtain ⟨entry, -, checked⟩ := List.mem_filterMap.mp mem
      rw [FilePeer.check] at checked
      cases valid : validatedPeer entry.url entry.key entry.namespaces (entry.enabled.getD true) with
      | error e =>
          rw [valid] at checked
          cases checked
      | ok found =>
          rw [valid] at checked
          obtain rfl := Option.some.inj checked
          exact (validatedPeer_eq valid).2.2.2.2

/-! ## Whole runs -/

section Runs

variable {raw : RawGalaxy} {path : String} {file : Option String} {peers : List Peer} {fixed : List String} {site : PeerSite}

/-- What was started with, and what another file would have been started with. -/
theorem RawGalaxy.intoSettings_eq (started : raw.intoSettings path file = .ok (peers, fixed)) :
    ∃ configured, (configured.map (·.url)).Nodup ∧ peers = (loadFilePeers file).foldl takeSaved configured ∧
      fixed = configured.map (·.url) ∧
      ∀ file', raw.intoSettings path file' = .ok ((loadFilePeers file').foldl takeSaved configured, fixed) := by
  rw [intoSettings] at started
  cases taken : raw.peers.foldlM (RawGalaxy.take path) [] with
  | error e =>
      rw [taken] at started
      cases started
  | ok configured =>
      simp only [taken] at started
      split_ifs at started with hops both interval
      obtain ⟨rfl, rfl⟩ := Prod.mk.inj (Except.ok.inj started)
      refine ⟨configured, RawGalaxy.take_apart (by simp) taken, rfl, rfl, fun file' => ?_⟩
      rw [intoSettings, taken]
      simp only [if_neg hops, if_neg both, if_neg interval]

/-- How a server starts. -/
theorem start_kept (started : raw.intoSettings path file = .ok (peers, fixed)) (tidy : ∀ peer ∈ peers, tidyUrl peer.url = peer.url)
    (declared : site.settings.fixed = fixed) : ∃ configured added, fixed = configured.map (·.url) ∧
      (∀ peer ∈ configured, tidyUrl peer.url = peer.url) ∧ peers = configured ++ added ∧
      (PeerTable.new peers).Kept site.settings configured added ∧
      ∀ file', raw.intoSettings path file' = .ok ((loadFilePeers file').foldl takeSaved configured, fixed) := by
  obtain ⟨configured, apart, same, named, again⟩ := RawGalaxy.intoSettings_eq started
  obtain ⟨added, split, from_, nodup⟩ := takeSaved_spec (loadFilePeers file) apart
  rw [split] at same
  subst same
  refine ⟨configured, added, named, fun peer mem => tidy peer (List.mem_append_left _ mem), rfl, ⟨rfl, nodup, ?_, ?_⟩, again⟩
  · intro peer mem
    rw [PeerTable.isFixed_eq_false, tidy peer (List.mem_append_right _ mem), declared, named]
    rw [List.map_append, List.nodup_append] at nodup
    exact fun here => nodup.2.2 _ here _ (List.mem_map_of_mem mem) rfl
  · exact fun peer mem => fit_of_loaded (from_ peer mem)

/-- A step, and the peers as they were when a change was last answered, or at the start. -/
def PeerSite.track (site : PeerSite) (acc : PeerServer × List Peer) : PeerEvent → PeerServer × List Peer
  | .call call =>
      let handled := site.handle acc.1 call
      (handled.1, if (site.editOf call.request).isSome && handled.2.isOk then (handled.1.table.map (·.peers)).getD [] else acc.2)
  | event => (site.step acc.1 event, acc.2)

/-- What a restart would read. -/
structure Tracked (site : PeerSite) (raw : RawGalaxy) (path : String) (configured : List Peer) (acc : PeerServer × List Peer) : Prop where
  stands : site.Stands configured acc.1
  file : (∀ peer ∈ site.settings.editablePeers acc.2, peer.Writable) →
    raw.intoSettings path acc.1.file = .ok (acc.2, configured.map (·.url))

theorem Tracked.step {configured : List Peer} {acc : PeerServer × List Peer} (tracked : Tracked site raw path configured acc)
    (declared : site.settings.fixed = configured.map (·.url)) (tidy : ∀ peer ∈ configured, tidyUrl peer.url = peer.url)
    (again : ∀ file', raw.intoSettings path file' = .ok ((loadFilePeers file').foldl takeSaved configured, configured.map (·.url)))
    (event : PeerEvent) : Tracked site raw path configured (site.track acc event) ∧
      ((∀ call, event = .call call → call.disk = .ok ()) → acc.1.table.map (·.peers) = some acc.2 →
        (site.track acc event).1.table.map (·.peers) = some (site.track acc event).2) := by
  cases event with
  | probed url now outcome =>
      refine ⟨⟨tracked.stands.step declared (.probed url now outcome), tracked.file⟩, fun _ same => Eq.trans ?_ same⟩
      simp [PeerSite.track, PeerSite.step, Function.comp_def, PeerTable.record]
  | call call =>
      have stands := tracked.stands.handle declared call
      rw [PeerSite.track]
      rw [PeerSite.handle_eq] at stands ⊢
      cases edit : site.editOf call.request with
      | none =>
          rw [edit] at stands
          exact ⟨⟨tracked.stands, tracked.file⟩, fun _ same => same⟩
      | some f =>
          rw [edit] at stands
          dsimp only at stands ⊢
          rcases @PeerSite.edit_cases site acc.1 call f (PeerSite.editOf_tame edit) with
            ⟨unchanged, refusal, refused, -⟩ | ⟨_, table', -, -, ⟨-, ⟨view, answered⟩, effect⟩ | ⟨⟨e, broken⟩, ⟨message, failed⟩, effect⟩⟩
          · rw [refused, unchanged]
            exact ⟨⟨tracked.stands, tracked.file⟩, fun _ same => same⟩
          · rw [effect] at stands ⊢
            rw [answered]
            obtain ⟨table, added, has, kept⟩ := stands
            obtain rfl := Option.some.inj has
            refine ⟨⟨⟨table', added, rfl, kept⟩, fun writable => ?_⟩, fun _ _ => rfl⟩
            have editable := kept.editable declared tidy
            simp only [Option.isSome_some, Except.isOk, Except.toBool, Bool.and_self, if_true, Option.map_some,
              Option.getD_some] at writable ⊢
            rw [editable] at writable ⊢
            have loaded : loadFilePeers (some (PeersFile.toToml added)) = added := by
              rw [PeersFile.loadFilePeers_plain fun peer mem => (writable peer mem).plain]
              have each : ∀ peer ∈ added, peer.asFile.check = some peer := fun peer mem =>
                Peer.checked_again (kept.fit peer mem) (writable peer mem).tidy
              rw [List.filterMap_congr each, List.filterMap_some]
            rw [again, loaded, takeSaved_all (kept.peers ▸ kept.apart), ← kept.peers]
          · rw [effect] at stands ⊢
            rw [failed]
            refine ⟨⟨stands, tracked.file⟩, fun works _ => ?_⟩
            rw [works call rfl] at broken
            cases broken

/-- A server with one peer in its configuration. -/
def ring : RawGalaxy := ⟨[⟨"http://a:1", "k", none, none⟩], 4, 30, false, false⟩

def ringSite : PeerSite := ⟨⟨"0.0.0.0:9999", ["http://a:1"]⟩, some "peers.toml"⟩

def ringPeers : List Peer := [⟨"http://a:1", "k", .storeEverything, true⟩]

def ringAsked (request : PeerRequest) : PeerEvent :=
  .call ⟨⟨OrderedMap.empty.insert "root" [.adminOnly]⟩, some (some "root"), request, .ok ()⟩

/-- A second peer is added and taken out of service, and the first one is not to be removed. -/
def ringEvents : List PeerEvent :=
  [ringAsked (.save ⟨"http://b:2/", "k", none⟩ false), .probed "http://b:2" 1 (.error "no answer"),
    ringAsked (.setEnabled "http://b:2" false), ringAsked (.delete "http://a:1")]

theorem ring_started : ring.intoSettings "sightingdb.toml" none = .ok (ringPeers, ["http://a:1"]) := by decide

end Runs

end SightingDB
