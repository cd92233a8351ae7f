import SightingDB.Acl
import SightingDB.Clock

/-!
The other servers a server knows about: which of them hold a namespace, which one a read
goes to, and the headers a request carries from one server to the next.
-/
namespace SightingDB

structure Peer where
  url : String
  key : String
  stores : StoragePolicy
  enabled : Bool
  deriving DecidableEq

/-- The peers and what is known of their health. The configuration lists no URL twice and
refuses a hop limit of zero. -/
structure Galaxy where
  peers : List Peer
  maxHops : Nat
  /-- Probed, and not answering. -/
  down : String → Bool
  /-- Still pulling what it missed. -/
  catchingUp : String → Bool
  apart : (peers.map (·.url)).Nodup
  positive : 0 < maxHops

/-- `default_max_hops()`. -/
def defaultMaxHops : Nat := 4

theorem defaultMaxHops_pos : 0 < defaultMaxHops := by decide

/-- Why a request could not be forwarded. -/
inductive ForwardError
  | noHolder
  | allDown (name : String)
  | tooManyHops
  | unreachable (reason : String)
  deriving DecidableEq

def ForwardError.text : ForwardError → String
  | .noHolder => "no server in this galaxy stores that namespace"
  | .allDown name => "every server storing '" ++ name ++ "' is unreachable from here"
  | .tooManyHops =>
      "the hop limit was reached: the galaxy is wired in a loop, or is deeper than max_hops allows"
  | .unreachable reason => "could not reach the server holding it: " ++ reason

namespace Galaxy

variable (galaxy : Galaxy)

/-- The peers in use. -/
def enabledPeers : List Peer := galaxy.peers.filter (·.enabled)

/-- Enabled peers that store a namespace, in configured order. -/
def holders (name : String) : List Peer := galaxy.peers.filter fun peer => peer.enabled && peer.stores.holds name

/-- Holders that are answering. One not yet probed counts as usable. -/
def liveHolders (name : String) : List Peer := (galaxy.holders name).filter fun peer => !galaxy.down peer.url

/-- `max_by_key`: of equal weights the last. -/
def heaviest (weight : Peer → Nat) (peers : List Peer) : Option Peer :=
  peers.foldl (fun best peer => match best with
    | none => some peer
    | some known => if weight known ≤ weight peer then some peer else some known) none

theorem heaviest_concat {weight : Peer → Nat} (peers : List Peer) (peer : Peer) :
    heaviest weight (peers ++ [peer]) = match heaviest weight peers with
      | none => some peer
      | some known => if weight known ≤ weight peer then some peer else some known := by
  rw [heaviest, List.foldl_append]
  rfl

theorem heaviest_eq_none {weight : Peer → Nat} {peers : List Peer} : heaviest weight peers = none ↔ peers = [] := by
  induction peers using List.reverseRecOn with
  | nil => exact iff_of_true rfl rfl
  | append_singleton rest peer ih =>
      rw [heaviest_concat]
      refine iff_of_false ?_ (by simp)
      split
      · exact nofun
      · split <;> exact nofun

/-- Which live holder should serve a read. A mirror still catching up is passed over, unless
every one is. -/
def readerFor (weigh : String → String → Nat) (name value : String) : Option Peer :=
  let live := galaxy.liveHolders name
  let current := live.filter fun peer => !galaxy.catchingUp peer.url
  heaviest (fun peer => weigh value peer.url) (if current.isEmpty then live else current)

def readerUrl (weigh : String → String → Nat) (name value : String) : Except ForwardError String :=
  if (galaxy.holders name).isEmpty then .error .noHolder
  else match galaxy.readerFor weigh name value with
    | some peer => .ok peer.url
    | none => .error (.allDown name)

/-- The live holders of any of several namespaces, each once. -/
def wanted (names : List String) : List Peer :=
  names.foldl (fun wanted name => (galaxy.liveHolders name).foldl (fun wanted peer =>
    if wanted.any (·.url = peer.url) then wanted else wanted ++ [peer]) wanted) []

end Galaxy

/-! ## Headers -/

/-- The hops header: how many more hops a forwarded request may take. -/
inductive Hops
  | absent
  | unreadable
  | left (n : Nat)
  deriving DecidableEq

structure Headers where
  /-- Given and not valid UTF-8 is `some none`. -/
  authorization : Option (Option String)
  hops : Hops
  origin : Option String
  deriving DecidableEq

namespace Headers

/-- How many hops a request arriving here may still take. A client's gets the full budget. -/
def hopsLeft (headers : Headers) (max : Nat) : Option Nat :=
  match headers.hops with
  | .absent => some max
  | .unreadable => none
  | .left n => if 0 < n then some n else none

/-- Who a forwarded write should be counted for; honoured on a forwarded request only. -/
def originOf (headers : Headers) : Option String :=
  match headers.hops, headers.origin with
  | .absent, _ => none
  | _, none => none
  | _, some origin => if trim origin = "" then none else some (trim origin)

/-- What a forwarded request carries: the peer's own key, one hop less, and the origin. -/
def sent (peer : Peer) (hops : Nat) (origin : String) : Headers :=
  ⟨some (some peer.key), .left (hops - 1), some origin⟩

/-- A forwarded request may take what its header says, wherever it arrives. -/
theorem hopsLeft_of_left {headers : Headers} {n : Nat} (header : headers.hops = .left n) (max : Nat) :
    (headers.hopsLeft max).getD 0 = n := by
  simp only [hopsLeft, header]
  split_ifs with some_
  · rfl
  · simp only [Option.getD_none]
    omega

end Headers

end SightingDB
