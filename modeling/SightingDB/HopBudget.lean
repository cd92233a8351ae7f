import SightingDB.Routes
import SightingDB.Lib.Chains
import Mathlib.Logic.Relation

/-!
The hop budget. Every forward spends one of the hops its request has left, so that a request
dies in a galaxy wired in a loop. An export that gathers from the mirrors is the exception:
it gives every request it sends the whole budget of the server that sends it.
-/
namespace SightingDB

/-- A request where it has arrived. -/
structure Message where
  server : Nat
  headers : Headers
  ask : Ask
  deriving DecidableEq

def Hops.count : Hops → Nat
  | .left n => n
  | _ => 0

/-- An export of whole namespaces: `/stix` without a value, or `/_api/stix`. -/
def Ask.isExport : Ask → Bool
  | .stix _ none _ => true
  | .stixApi _ => true
  | _ => false

namespace Network

open Chains

variable (net : Network)

/-- The requests that arrive somewhere because this one was passed on. -/
def next (m : Message) : List Message :=
  (net.forwards m.server m.headers m.ask).filterMap fun posted =>
    (net.urls posted.url).map fun server => ⟨server, posted.headers, posted.ask⟩

/-- The configured limit; a server without a galaxy forwards nothing. -/
def hopLimit (server : Nat) : Nat := ((net.sites server).galaxy.map (·.maxHops)).getD 0

/-- What the hop budget promises of a request: along every chain of forwards the header falls
at every step, no chain is longer than the limit of the server the request came to, no send
spends a hop that is not there, and there are finitely many chains. -/
structure Budgeted (start : Message) : Prop where
  falls : ∀ chain, Follows net.next start chain → (chain.map (·.headers.hops.count)).Pairwise (· > ·)
  bounded : ∀ chain, Follows net.next start chain → chain.length ≤ net.hopLimit start.server
  spends : ∀ m, Relation.ReflTransGen (fun m m' => m' ∈ net.next m) start m →
    ∀ posted ∈ net.forwards m.server m.headers m.ask, 0 < posted.hops
  finite : {chain | Follows net.next start chain}.Finite

/-- Wherever an export is passed on to a server that passes it on again, the second server's
limit is below the first's. -/
def LimitsFall (start : Message) : Prop :=
  ∀ m m' m'', Relation.ReflTransGen (fun m m' => m' ∈ net.next m) start m → m' ∈ net.next m → m'' ∈ net.next m' →
    m'.ask.isExport = true → net.hopLimit m'.server < net.hopLimit m.server

/-- The hops a request is given where it is passed on. -/
def pace (m : Message) : Nat :=
  if m.ask.isExport then net.hopLimit m.server else (m.headers.hopsLeft (net.hopLimit m.server)).getD 0

/-! ## What a forward spends -/

/-- A request sent with some hops left, one of them spent. -/
structure Spends (ask : Ask) (hops : Nat) (posted : Posted) : Prop where
  asked : posted.ask = ask
  had : posted.hops = hops
  positive : 0 < hops
  header : posted.headers.hops = .left (hops - 1)

variable {net} {s : Nat} {headers : Headers} {posted : Posted} {galaxy : Galaxy} {ask : Ask} {hops : Nat}
  {origin : String}

theorem send_spends (peer : Peer) (positive : hops ≠ 0) : Spends ask hops (send peer ask hops origin) :=
  ⟨rfl, rfl, Nat.pos_of_ne_zero positive, rfl⟩

theorem forwardRead_spends {name value : String} (member : posted ∈ net.forwardRead galaxy name value ask hops) :
    Spends ask hops posted := by
  simp only [forwardRead] at member
  split_ifs at member with none
  · cases member
  · split at member
    · cases member
    · obtain rfl := List.mem_singleton.mp member
      exact send_spends _ none

theorem forwardTo_spends {url : String} (member : posted ∈ forwardTo galaxy url ask hops origin) :
    Spends ask hops posted := by
  simp only [forwardTo] at member
  split_ifs at member with none
  · cases member
  · split at member
    · cases member
    · obtain rfl := List.mem_singleton.mp member
      exact send_spends _ none

theorem forwardWrite_spends {name : String} (member : posted ∈ forwardWrite galaxy name ask hops origin) :
    Spends ask hops posted := by
  simp only [forwardWrite] at member
  split_ifs at member with none
  · cases member
  · obtain ⟨peer, _, rfl⟩ := List.mem_map.mp member
    exact send_spends peer none

theorem forwardBatch_spends {names : List String} (member : posted ∈ forwardBatch galaxy names ask hops origin) :
    Spends ask hops posted := by
  simp only [forwardBatch] at member
  split_ifs at member with none
  · cases member
  · obtain ⟨peer, _, rfl⟩ := List.mem_map.mp member
    exact send_spends peer none

/-- A request that is forwarded may take what its header, or else the configuration, says. -/
theorem shouldForward_hops {name : String} (decided : (net.sites s).shouldForward headers name = some (galaxy, some hops)) :
    (headers.hopsLeft (net.hopLimit s)).getD 0 = hops := by
  simp only [Site.shouldForward] at decided
  cases known : (net.sites s).galaxy with
  | none =>
      rw [known] at decided
      split_ifs at decided
  | some galaxy' =>
      simp only [known] at decided
      split_ifs at decided
      obtain ⟨rfl, left⟩ := Prod.mk.inj (Option.some.inj decided)
      simp [hopLimit, known, left]

theorem readForwards_spends {name value : String} (member : posted ∈ net.readForwards s headers name value ask) :
    Spends ask ((headers.hopsLeft (net.hopLimit s)).getD 0) posted := by
  simp only [readForwards] at member
  split at member
  · rename_i decided
    rw [shouldForward_hops decided]
    exact forwardRead_spends member
  · cases member

theorem readBulkForwards_spends {stats : Bool} {items : List BulkSighting}
    (member : posted ∈ net.readBulkForwards s headers stats items) :
    ∃ items', Spends (.readBulk stats items') ((headers.hopsLeft (net.hopLimit s)).getD 0) posted := by
  simp only [readBulkForwards] at member
  split at member
  · cases member
  · rename_i galaxy known
    split at member
    · cases member
    · rename_i hops left
      obtain ⟨group, _, sent⟩ := List.mem_flatMap.mp member
      refine ⟨group.2.map fun item => { item with noshadow := true }, ?_⟩
      simp only [hopLimit, known, Option.map_some, Option.getD_some, left]
      exact forwardTo_spends sent

/-- A gathering export does not look at the header. -/
theorem gatheredExport_spends {wanted : List String} (member : posted ∈ net.gatheredExport s wanted) :
    ∃ names, Spends (.stixApi ⟨names, none, false⟩) (net.hopLimit s) posted := by
  simp only [gatheredExport] at member
  split at member
  · cases member
  · rename_i galaxy known
    obtain ⟨group, _, sent⟩ := List.mem_flatMap.mp member
    refine ⟨group.2, ?_⟩
    simp only [hopLimit, known, Option.map_some, Option.getD_some]
    exact forwardTo_spends sent

theorem listingForwards_spends (member : posted ∈ net.listingForwards s) :
    Spends .namespaces 1 posted ∧ 0 < net.hopLimit s := by
  simp only [listingForwards] at member
  split at member
  · cases member
  · rename_i galaxy known
    obtain ⟨peer, _, rfl⟩ := List.mem_map.mp member
    refine ⟨send_spends peer (by decide), ?_⟩
    simp [hopLimit, known, galaxy.positive]

/-- Whether a request asks the peers for their namespaces first. -/
def lists : Ask → Bool
  | .stix _ none recursive => recursive
  | .stixApi body => body.recursive
  | _ => false

/-- Everything a request causes to be sent is a listing, or the request passed on with the
hops it is given there. -/
theorem forwards_spends (member : posted ∈ net.forwards s headers ask) :
    (Spends .namespaces 1 posted ∧ lists ask = true ∧ 0 < net.pace ⟨s, headers, ask⟩) ∨
      ∃ ask', Spends ask' (net.pace ⟨s, headers, ask⟩) posted ∧ ask'.isExport = ask.isExport ∧ lists ask' = false := by
  cases ask with
  | read stats name val noshadow =>
      simp only [forwards] at member
      split_ifs at member
      · exact .inr ⟨_, readForwards_spends member, rfl, rfl⟩
      · cases member
  | write name query =>
      simp only [forwards] at member
      split_ifs at member
      · split at member
        · rename_i decided
          refine .inr ⟨_, ?_, rfl, rfl⟩
          rw [pace, if_neg (by simp [Ask.isExport]), shouldForward_hops decided]
          exact forwardWrite_spends member
        · cases member
      · cases member
  | readBulk stats items =>
      simp only [forwards] at member
      split_ifs at member
      · obtain ⟨items', spends⟩ := readBulkForwards_spends member
        exact .inr ⟨_, spends, rfl, rfl⟩
      · cases member
  | writeBulk items =>
      simp only [forwards] at member
      split at member
      · rename_i known
        split at member
        · rename_i left
          refine .inr ⟨_, ?_, rfl, rfl⟩
          simp only [pace, Ask.isExport, hopLimit, known, Option.map_some, Option.getD_some, left]
          exact forwardBatch_spends member
        · cases member
      · cases member
  | stix name val recursive =>
      cases val with
      | some value =>
          simp only [forwards] at member
          split_ifs at member
          · cases member
          · cases member
          · exact .inr ⟨_, readForwards_spends member, rfl, rfl⟩
      | none =>
          simp only [forwards] at member
          split_ifs at member with _ listing
          · cases member
          · rcases List.mem_append.mp member with listed | gathered
            · exact .inl ⟨(listingForwards_spends listed).1, listing, (listingForwards_spends listed).2⟩
            · obtain ⟨names, spends⟩ := gatheredExport_spends gathered
              exact .inr ⟨_, spends, rfl, rfl⟩
          · obtain ⟨names, spends⟩ := gatheredExport_spends member
            exact .inr ⟨_, spends, rfl, rfl⟩
  | stixApi body =>
      simp only [forwards] at member
      split_ifs at member with _ listing
      · cases member
      · rcases List.mem_append.mp member with listed | gathered
        · exact .inl ⟨(listingForwards_spends listed).1, listing, (listingForwards_spends listed).2⟩
        · obtain ⟨names, spends⟩ := gatheredExport_spends gathered
          exact .inr ⟨_, spends, rfl, rfl⟩
      · obtain ⟨names, spends⟩ := gatheredExport_spends member
        exact .inr ⟨_, spends, rfl, rfl⟩
  | namespaces => cases member

/-! ## Chains -/

section Chains

variable {m m' m'' start : Message} {chain : List Message}

theorem next_spends (one : m' ∈ net.next m) :
    (m'.ask = .namespaces ∧ m'.headers.hops = .left 0 ∧ lists m.ask = true ∧ 0 < net.pace m) ∨
      (m'.headers.hops.count + 1 = net.pace m ∧ m'.headers.hops ≠ .absent ∧ m'.ask.isExport = m.ask.isExport ∧
        lists m'.ask = false) := by
  obtain ⟨posted, sent, arrived⟩ := List.mem_filterMap.mp one
  obtain ⟨server, _, rfl⟩ := Option.map_eq_some_iff.mp arrived
  rcases forwards_spends sent with ⟨spends, listing, positive⟩ | ⟨ask, spends, same, plain⟩
  · exact .inl ⟨spends.asked, spends.header, listing, positive⟩
  · refine .inr ⟨?_, ?_, ?_, ?_⟩
    · dsimp only
      rw [spends.header]
      exact Nat.sub_add_cancel spends.positive
    · dsimp only
      rw [spends.header]
      exact Hops.noConfusion
    · rw [← same, ← spends.asked]
    · rw [← plain, ← spends.asked]

theorem next_namespaces (listing : m.ask = .namespaces) : net.next m = [] := by
  simp [next, listing, forwards]

theorem count_lt_pace (one : m' ∈ net.next m) : m'.headers.hops.count < net.pace m := by
  rcases next_spends one with ⟨_, none, _, positive⟩ | ⟨spent, _⟩
  · rw [none]
    exact positive
  · omega

/-- A request that was passed on is given less where it is passed on again: a header by one,
an export if the limits fall. -/
theorem pace_falls (one : m' ∈ net.next m) (two : m'' ∈ net.next m')
    (falls : m'.ask.isExport = true → net.hopLimit m'.server < net.hopLimit m.server) :
    net.pace m' < net.pace m := by
  rcases next_spends one with ⟨listing, _⟩ | ⟨spent, carried, same, _⟩
  · rw [next_namespaces listing] at two
    cases two
  · cases exports : m'.ask.isExport with
    | true =>
        rw [pace, pace, ← same, exports, if_pos rfl, if_pos rfl]
        exact falls exports
    | false =>
        have given : net.pace m' ≤ m'.headers.hops.count := by
          rw [pace, exports, if_neg (by decide)]
          cases left : m'.headers.hops with
          | absent => exact absurd left carried
          | unreadable => simp [Headers.hopsLeft, left]
          | left n => exact (Headers.hopsLeft_of_left left _).le
        omega

/-- The limits fall, and so the header does, along every chain from what was reached. -/
theorem chain_falls (falls : net.LimitsFall start)
    (reached : Relation.ReflTransGen (fun m m' => m' ∈ net.next m) start m) (follows : Follows net.next m chain) :
    chain.length ≤ net.pace m ∧ (∀ m' ∈ chain, m'.headers.hops.count < net.pace m) ∧
      (chain.map (·.headers.hops.count)).Pairwise (· > ·) := by
  induction chain generalizing m with
  | nil => simp
  | cons first rest ih =>
      obtain ⟨one, onward⟩ := follows
      obtain ⟨short, below, pairwise⟩ := ih (reached.tail one) onward
      have spent := count_lt_pace one
      cases rest with
      | nil =>
          refine ⟨?_, ?_, List.pairwise_singleton _ _⟩
          · simp only [List.length_singleton]
            omega
          · simpa using spent
      | cons second more =>
          have slower := pace_falls one onward.1 (falls m first second reached one onward.1)
          have exact_ : first.headers.hops.count + 1 = net.pace m := by
            rcases next_spends one with ⟨listing, _⟩ | ⟨spent, _⟩
            · exact absurd onward.1 (by simp [next_namespaces listing])
            · exact spent
          refine ⟨?_, ?_, ?_⟩
          · simp only [List.length_cons] at short ⊢
            omega
          · intro m' member
            rcases List.mem_cons.mp member with rfl | later
            · exact spent
            · exact (below m' later).trans slower
          · refine List.pairwise_cons.mpr ⟨?_, pairwise⟩
            intro n member
            obtain ⟨m', later, rfl⟩ := List.mem_map.mp member
            have before := below m' later
            change m'.headers.hops.count < first.headers.hops.count
            omega

/-- Nothing but an export becomes one on the way. -/
theorem limitsFall_of_plain (plain : start.ask.isExport = false) : net.LimitsFall start := by
  intro m m' m'' reached one _ exports
  have still : ∀ m, Relation.ReflTransGen (fun m m' => m' ∈ net.next m) start m → m.ask.isExport = false := by
    intro m reached
    induction reached with
    | refl => exact plain
    | tail _ one ih =>
        rcases next_spends one with ⟨listing, _⟩ | ⟨_, _, same, _⟩
        · rw [listing]
          rfl
        · exact same.trans ih
  exact absurd (exports.symm.trans (still m' (reached.tail one))) (by decide)

/-- A client's request is within the hop budget exactly when the limits fall wherever it is
an export that is passed on and on. -/
theorem hop_budget (net : Network) (server : Nat) (headers : Headers) (client : headers.hops = .absent) (ask : Ask) :
    net.Budgeted ⟨server, headers, ask⟩ ↔ net.LimitsFall ⟨server, headers, ask⟩ := by
  constructor
  · intro budgeted m m' m'' reached one two exports
    obtain ⟨way, onward⟩ := exists_follows reached
    have pairwise := budgeted.falls _ (onward [m', m''] ⟨one, two, trivial⟩)
    rw [List.map_append, List.pairwise_append] at pairwise
    have falls : m''.headers.hops.count < m'.headers.hops.count := by simpa using pairwise.2.1
    rcases next_spends one with ⟨listing, _⟩ | ⟨spent, _, same, plain⟩
    · simp [listing, Ask.isExport] at exports
    · rcases next_spends two with ⟨_, _, listing, _⟩ | ⟨spent', _⟩
      · exact absurd (plain.symm.trans listing) (by decide)
      · rw [pace, ← same, exports, if_pos rfl] at spent
        rw [pace, exports, if_pos rfl] at spent'
        omega
  · intro falls
    have whole : net.pace ⟨server, headers, ask⟩ = net.hopLimit server := by
      simp [pace, Headers.hopsLeft, client]
    have bounded : ∀ chain, Follows net.next ⟨server, headers, ask⟩ chain → chain.length ≤ net.hopLimit server := by
      intro chain follows
      rw [← whole]
      exact (chain_falls falls .refl follows).1
    refine ⟨fun chain follows => (chain_falls falls .refl follows).2.2, bounded, fun m _ posted sent => ?_,
      finite_of_bounded bounded⟩
    rcases forwards_spends sent with ⟨spends, _⟩ | ⟨_, spends, _⟩
    · exact spends.had ▸ spends.positive
    · exact spends.had ▸ spends.positive

/-- Two servers that store nothing, each with the other as a full mirror. -/
def loop : Network where
  sites s := ⟨⟨[], false⟩, "n", false, ⟨∅⟩,
    some ⟨[⟨if s = 0 then "b" else "a", "k", .storeEverything, true⟩], 3, fun _ => false, fun _ => false, by simp,
      by decide⟩⟩
  urls url := if url = "a" then some 0 else if url = "b" then some 1 else none
  weigh _ _ := 0
  catalogue _ := []
  listing _ _ := []

/-- A client's headers. -/
def fromClient : Headers := ⟨none, .absent, none⟩

theorem hop_budget_loop : fromClient.hops = .absent ∧ loop.Budgeted ⟨0, fromClient, .read false "x" (some "v") false⟩ :=
  ⟨rfl, (hop_budget loop 0 fromClient rfl (.read false "x" (some "v") false)).mpr (limitsFall_of_plain rfl)⟩

/-- The export of a namespace that nobody holds, on its way round the loop. -/
def going (server : Nat) : Message :=
  ⟨server, ⟨some (some "k"), .left 2, some ""⟩, .stixApi ⟨["x"], none, false⟩⟩

/-- An export goes round the loop more often than the limit allows, always with the same
header. -/
theorem export_goes_round : ¬ loop.Budgeted ⟨0, fromClient, .stix "x" none false⟩ ∧
    Follows loop.next ⟨0, fromClient, .stix "x" none false⟩ [going 1, going 0, going 1, going 0] := by
  have follows : Follows loop.next ⟨0, fromClient, .stix "x" none false⟩ [going 1, going 0, going 1, going 0] :=
    ⟨by decide, by decide, by decide, by decide, trivial⟩
  exact ⟨fun budgeted => absurd (budgeted.bounded _ follows) (by decide), follows⟩

end Chains

end Network

end SightingDB
