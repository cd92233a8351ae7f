import SightingDB.Galaxy
import SightingDB.Keys
import SightingDB.Lib.TomlWritten
import SightingDB.Lib.Traverse

/-!
Peers added through the management interface, and the file they are kept in. URLs, keys and
subtrees are put between quotes as they stand. What is read back is checked again the way it
was when it was added.
-/
namespace SightingDB

def tidyUrl (url : String) : String := trimEndSlashes (trim url)

def hasScheme (url : String) : Bool := startsWith url "http://" || startsWith url "https://"

/-- Check one peer and normalise it; no list of namespaces is a full mirror. -/
def validatedPeer (url key : String) (namespaces : Option (List String)) (enabled : Bool) : Except String Peer :=
  let url := tidyUrl url
  let key := trim key
  if url = "" then .error "a peer has no url"
  else if !hasScheme url then .error ("peer '" ++ url ++ "' needs an http:// or https:// url")
  else if key = "" then
    .error ("peer '" ++ url ++ "' has no key. The key is what bounds what this server may do there.")
  else
    let stores := namespaces.elim .storeEverything (StoragePolicy.fromPrefixes [])
    match stores.prefixes.mapM validateNamespace with
    | .error e => .error ("in the namespaces for peer '" ++ url ++ "': " ++ e)
    | .ok _ =>
        if stores.isRouter then
          .error ("peer '" ++ url ++ "' declares an empty namespaces list. Leave it out for a full mirror, or name what it holds.")
        else .ok ⟨url, key, stores, enabled⟩

/-! ## Adding a peer -/

/-- What a server's configuration says about its peers: where it listens itself, and the URLs
that are declared there and not to be changed. -/
structure PeerSettings where
  listen : String
  fixed : List String

inductive AddPeer
  | invalid (message : String)
  | alreadyThere (message : String)
  deriving DecidableEq

def hostOf (url : String) : String := trimStartMatches (trimStartMatches url "https://") "http://"

/-- A server listening on every interface answers on localhost too. -/
def isOwnAddress (url listen : String) : Bool :=
  let hostPort := trimEndSlashes (hostOf url)
  if hostPort = listen then true
  else match rsplitOnce ':' listen, rsplitOnce ':' hostPort with
    | some (ownHost, ownPort), some (host, port) =>
        port = ownPort && ["0.0.0.0", "[::]", "::"].contains ownHost &&
          ["127.0.0.1", "localhost", "[::1]", "::1"].contains host
    | _, _ => false

namespace PeerSettings

variable (settings : PeerSettings)

def isFixed (url : String) : Bool := settings.fixed.contains (tidyUrl url)

/-- The peers that belong in the peers file. -/
def editablePeers (peers : List Peer) : List Peer := peers.filter fun peer => !settings.isFixed peer.url

def addPeer (peers : List Peer) (peer : Peer) : Except AddPeer Peer :=
  let peer := { peer with url := tidyUrl peer.url, key := trim peer.key }
  if !hasScheme peer.url then .error (.invalid "a peer URL starts with http:// or https://")
  else if hostOf peer.url = "" then .error (.invalid "a peer URL needs a host")
  else if peer.key = "" then .error (.invalid "a peer needs the key this server will authenticate with there")
  else if isOwnAddress peer.url settings.listen then
    .error (.invalid (peer.url ++ " is this server's own address, which would make it its own mirror"))
  else if peers.any (·.url = peer.url) then .error (.alreadyThere (peer.url ++ " is already in this galaxy"))
  else if settings.isFixed peer.url then
    .error (.alreadyThere (peer.url ++ " is declared in the configuration file, so it cannot be changed here"))
  else .ok peer

/-- The peers a server can come to have: those of its configuration, then any that pass both
checks, one after another. -/
inductive Accepted : List Peer → Prop
  | configured {peers : List Peer} (fixed : ∀ peer ∈ peers, settings.isFixed peer.url = true) : Accepted peers
  | add {peers : List Peer} {url key : String} {namespaces : Option (List String)} {enabled : Bool} {peer peer' : Peer}
      (before : Accepted peers) (valid : validatedPeer url key namespaces enabled = .ok peer)
      (added : settings.addPeer peers peer = .ok peer') : Accepted (peers ++ [peer'])

end PeerSettings

/-! ## The file -/

/-- A peer as the file has it. -/
structure FilePeer where
  url : String
  key : String
  namespaces : Option (List String)
  enabled : Option Bool
  deriving DecidableEq

def textOf : Toml.Scalar → Option String
  | .str text => some text
  | _ => none

def textList : Option Toml.Value → Option (Option (List String))
  | none => some none
  | some (.array items) => (items.mapM textOf).map some
  | some _ => none

def flag : Option Toml.Value → Option (Option Bool)
  | none => some none
  | some (.scalar (.bool b)) => some (some b)
  | some _ => none

def FilePeer.ofTable (fields : List (String × Toml.Value)) : Option FilePeer :=
  match fields.lookup "url", fields.lookup "key", textList (fields.lookup "namespaces"), flag (fields.lookup "enabled") with
  | some (.scalar (.str url)), some (.scalar (.str key)), some namespaces, some enabled => some ⟨url, key, namespaces, enabled⟩
  | _, _, _, _ => none

/-- `PeersFile`: an array of tables, or nothing. -/
def filePeers (doc : Toml.Document) : Option (List FilePeer) :=
  match doc.lookup "peers" with
  | none => some []
  | some (.array tables) => tables.mapM FilePeer.ofTable
  | some (.value (.array [])) => some []
  | some _ => none

def FilePeer.check (entry : FilePeer) : Option Peer :=
  (validatedPeer entry.url entry.key entry.namespaces (entry.enabled.getD true)).toOption

/-- Peers the management interface added, from the text of their file. A malformed file is
skipped, and so is an entry that does not pass. -/
def loadFilePeers : Option String → List Peer
  | none => []
  | some text => match (Toml.document text.toList).bind filePeers with
    | none => []
    | some entries => entries.filterMap FilePeer.check

namespace PeersFile

def fileHeader : List String :=
  ["# Written by the SightingDB management interface. Comments added",
    "# here are replaced the next time a peer is saved.",
    "#",
    "# Peers listed in [galaxy] peers in the main configuration are not",
    "# here and are not editable from the interface.",
    ""]

def namespacesLine (stores : StoragePolicy) : String :=
  "namespaces = [" ++ joinBy ", " (stores.prefixes.map fun name => "\"" ++ name ++ "\"") ++ "]"

def peerLines (peer : Peer) : List String :=
  ["[[peers]]", "url = \"" ++ peer.url ++ "\"", "key = \"" ++ peer.key ++ "\""] ++
    (if peer.stores.everything then [] else [namespacesLine peer.stores]) ++
    (if peer.enabled then [] else ["enabled = false"]) ++ [""]

/-- Render the peers for writing. -/
def toToml (peers : List Peer) : String :=
  String.ofList (Toml.unlines ((fileHeader ++ peers.flatMap peerLines).map String.toList))

end PeersFile

/-! ## What has been accepted -/

/-- What the checks make of a peer: only its address may still be changed by another check. -/
structure Peer.Fit (peer : Peer) : Prop where
  scheme : hasScheme peer.url = true
  key : peer.key ≠ ""
  trimmed : trim peer.key = peer.key
  stores : peer.stores = .storeEverything ∨ peer.stores.everything = false ∧ peer.stores.prefixes ≠ [] ∧
    StoragePolicy.fromPrefixes [] peer.stores.prefixes = peer.stores
  valid : ∀ name ∈ peer.stores.prefixes, validateNamespace name = .ok ()

namespace StoragePolicy

/-- What a list of subtrees is read as: everything, or the tidied subtrees, each once. -/
theorem fromPrefixes_cases (held list : List String) : fromPrefixes held list = storeEverything ∨
    ∃ more, fromPrefixes held list = ⟨held ++ more, false⟩ ∧
      (∀ name ∈ more, name ≠ "" ∧ ∃ raw ∈ list, name = trimSlashes (trim raw)) ∧ (held.Nodup → (held ++ more).Nodup) := by
  induction list generalizing held with
  | nil => exact .inr ⟨[], by simp [fromPrefixes], by simp, by simp⟩
  | cons raw rest ih =>
      rw [fromPrefixes]
      split_ifs with whole known
      · exact .inl rfl
      · rcases ih held with all | ⟨more, same, each, nodup⟩
        · exact .inl all
        · refine .inr ⟨more, same, fun name mem => ?_, nodup⟩
          obtain ⟨some_, raw', here, tidied⟩ := each name mem
          exact ⟨some_, raw', List.mem_cons_of_mem _ here, tidied⟩
      · rcases ih (held ++ [trimSlashes (trim raw)]) with all | ⟨more, same, each, nodup⟩
        · exact .inl all
        · refine .inr ⟨trimSlashes (trim raw) :: more, by simp [same], fun name mem => ?_, fun before => ?_⟩
          · rcases List.mem_cons.mp mem with rfl | mem
            · exact ⟨whole, raw, by simp, rfl⟩
            · obtain ⟨some_, raw', here, tidied⟩ := each name mem
              exact ⟨some_, raw', List.mem_cons_of_mem _ here, tidied⟩
          · have := nodup (List.nodup_append.mpr ⟨before, by simp, fun a here b mem => by
              rw [List.mem_singleton.mp mem]
              exact fun same => known (same ▸ here)⟩)
            simpa using this

/-- Subtrees that are tidy, and each once, are read as they are. -/
theorem fromPrefixes_tidy {held list : List String} (tidy : ∀ name ∈ list, name ≠ "" ∧ trimSlashes (trim name) = name)
    (nodup : (held ++ list).Nodup) : fromPrefixes held list = ⟨held ++ list, false⟩ := by
  induction list generalizing held with
  | nil => simp [fromPrefixes]
  | cons name rest ih =>
      obtain ⟨some_, same⟩ := tidy name (by simp)
      have fresh : name ∉ held := fun mem => List.disjoint_of_nodup_append nodup mem (by simp)
      rw [fromPrefixes, same, if_neg some_, if_neg fresh, ih (fun other mem => tidy other (List.mem_cons_of_mem _ mem))]
      · simp
      · simpa using nodup

end StoragePolicy

theorem validatedPeer_eq {url key : String} {namespaces : Option (List String)} {enabled : Bool} {peer : Peer}
    (valid : validatedPeer url key namespaces enabled = .ok peer) :
    peer.url = tidyUrl url ∧ peer.key = trim key ∧ peer.enabled = enabled ∧
      peer.stores = namespaces.elim .storeEverything (StoragePolicy.fromPrefixes []) ∧ peer.Fit := by
  simp only [validatedPeer] at valid
  generalize stores_ : namespaces.elim .storeEverything (StoragePolicy.fromPrefixes []) = stores at valid ⊢
  cases checked : stores.prefixes.mapM validateNamespace with
  | error e =>
      simp only [checked] at valid
      split_ifs at valid
  | ok _ =>
      simp only [checked] at valid
      split_ifs at valid with empty scheme none router
      obtain rfl := Except.ok.inj valid
      have each : ∀ name ∈ stores.prefixes, validateNamespace name = .ok () := fun name mem => by
        obtain ⟨_, -, ok⟩ := Traverse.exists_right (Traverse.mapM_eq_ok checked) mem
        exact ok
      refine ⟨rfl, rfl, rfl, rfl, by simpa using scheme, none, trim_idem key, ?_, each⟩
      cases namespaces with
      | none => exact .inl stores_.symm
      | some list =>
          rw [Option.elim_some] at stores_
          rcases StoragePolicy.fromPrefixes_cases [] list with all | ⟨more, same, tidy, nodup⟩
          · exact .inl (stores_.symm.trans all)
          · obtain rfl : stores = ⟨more, false⟩ := stores_.symm.trans same
            refine .inr ⟨rfl, by simpa [StoragePolicy.isRouter] using router, ?_⟩
            refine StoragePolicy.fromPrefixes_tidy (fun name mem => ⟨(tidy name mem).1, ?_⟩) (nodup (by simp))
            -- A subtree that passes holds no white space, so only its slashes were ever trimmed.
            obtain ⟨-, raw, -, from_⟩ := tidy name mem
            rw [trim_of_solid fun c at_ => (not_reserved (solid_of_validateNamespace (each name mem) c at_)).1, from_,
              trimSlashes_idem]

theorem PeerSettings.addPeer_eq {settings : PeerSettings} {peers : List Peer} {peer peer' : Peer}
    (added : settings.addPeer peers peer = .ok peer') :
    peer' = { peer with url := tidyUrl peer.url, key := trim peer.key } ∧ hasScheme peer'.url = true ∧ peer'.key ≠ "" := by
  simp only [addPeer] at added
  split_ifs at added with scheme host key own known fixed
  obtain rfl := Except.ok.inj added
  exact ⟨rfl, by simpa using scheme, key⟩

/-- Whoever is written to the file has passed both checks. -/
theorem PeerSettings.Accepted.fit {settings : PeerSettings} {peers : List Peer} (accepted : settings.Accepted peers) :
    ∀ peer ∈ settings.editablePeers peers, peer.Fit := by
  induction accepted with
  | configured fixed =>
      intro peer mem
      obtain ⟨here, editable⟩ := List.mem_filter.mp mem
      simp [fixed peer here] at editable
  | @add peers url key namespaces enabled peer peer' before valid added ih =>
      intro other mem
      rw [editablePeers, List.filter_append, List.mem_append] at mem
      rcases mem with old | new
      · exact ih other old
      · obtain rfl : other = peer' := by simpa using (List.mem_filter.mp new).1
        obtain ⟨-, -, -, -, fit⟩ := validatedPeer_eq valid
        obtain ⟨rfl, scheme, key_⟩ := addPeer_eq added
        exact ⟨scheme, key_, trim_idem _, fit.stores, fit.valid⟩

end SightingDB
