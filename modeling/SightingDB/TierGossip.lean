import SightingDB.TierChanges

/-!
Storage settings passed on to a peer: a live push after each change, which may be lost, and a
periodic offer of every setting the server still holds. A live push carries what a shard works
out to; an offer carries what is set for it. A setting that was cleared is not offered.
-/
namespace SightingDB

/-- A number of seconds in a request. -/
def WindowField.seconds (n : Nat) : WindowField := .number (if fits : n < 2 ^ 64 then some ⟨n, fits⟩ else none)

/-- A storage setting sent to a peer under the key it knows this server by. -/
def tierMessage (key shard : String) (entry : TierEntry) (fault : Option String) : TierRequest :=
  ⟨some (some key), ⟨shard, entry.tier.map Tier.asStr, entry.warmIdle.map .seconds⟩, fault⟩

/-- A change asked of a server, and what becomes of the live push that follows it: it is lost,
or it arrives, and the peer's file can be written or not. -/
structure TierEvent where
  request : TierRequest
  push : Option (Option String)

/-- A server and a peer it administers. -/
structure TierPair where
  server : TierServer
  peer : TierServer

namespace TierPair

/-- `set_tier` with the `push_tier` at its end. -/
def change (key : String) (pair : TierPair) (ev : TierEvent) : TierPair :=
  let (server, answer) := pair.server.setTier ev.request
  match answer, ev.push with
  | .ok reply, some fault =>
      ⟨server, (pair.peer.setTier (tierMessage key reply.shard ⟨some reply.tier, some reply.warmIdle⟩ fault)).1⟩
  | _, _ => ⟨server, pair.peer⟩

def run (key : String) (pair : TierPair) (events : List TierEvent) : TierPair := events.foldl (change key) pair

/-- The periodic offer of `tier_overrides`, all of which arrives. -/
def gossip (key : String) (fault : String → Option String) (pair : TierPair) : TierPair :=
  ⟨pair.server, pair.server.policy.entries.entries.foldl
    (fun peer e => (peer.setTier (tierMessage key e.1 e.2 (fault e.1))).1) pair.peer⟩

end TierPair

/-! ## One message -/

/-- The name a shard's settings are stored under. -/
def storedShard (shard : String) : String := trimSlashes (trim shard)

/-- Whether settings stored under a name can be asked for by that name. -/
def askable (name : String) : Bool := name ≠ "" && !startsWithChar name '_'

/-- The name a message's settings are stored under, if it is taken. -/
def lands (shard : String) : Option String :=
  if askable (storedShard shard) then some (storedShard (shardOf (storedShard shard))) else none

/-- A peer that lets a key change its storage settings. -/
structure TierServer.Trusts (s : TierServer) (key : String) : Prop where
  admin : s.acl.isAdmin key = true
  write : ∀ name, s.acl.canWrite key name = true
  file : s.tiersFile ≠ none

theorem shardOf_solid (name : String) : '/' ∉ (shardOf name).toList := by
  have internal : '/' ∉ internalShard.toList := by decide
  rw [shardOf]
  split_ifs
  · exact internal
  · cases first : firstSegment name with
    | none => exact internal
    | some segment =>
        have mem := List.mem_of_find?_eq_some first
        obtain ⟨cs, part, rfl⟩ := List.mem_map.mp mem
        simpa using sep_not_mem_splitOn part

theorem storedShard_of_solid {shard : String} (solid : '/' ∉ shard.toList) : storedShard shard = trim shard := by
  have trimmed : '/' ∉ (trim shard).toList := fun mem => solid (mem_of_mem_trimWhere (by simpa [trim] using mem))
  exact trimSlashes_of_none trimmed

/-- A name that is a shard's own. -/
def IsShard (name : String) : Prop := trim name = name ∧ '/' ∉ name.toList

theorem isShard_stored {shard : String} (solid : '/' ∉ shard.toList) : IsShard (storedShard shard) := by
  rw [storedShard_of_solid solid]
  exact ⟨trim_idem shard, fun mem => solid (mem_of_mem_trimWhere (by simpa [trim] using mem))⟩

theorem IsShard.stored {name : String} (own : IsShard name) : storedShard name = name :=
  (storedShard_of_solid own.2).trans own.1

theorem IsShard.shardOf_eq {name : String} (own : IsShard name) (asks : askable name = true) : shardOf name = name := by
  obtain ⟨some_, external⟩ : name ≠ "" ∧ startsWithChar name '_' = false := by simpa [askable] using asks
  have first : firstSegment name = some name := by
    simp [firstSegment, splitOnChar, List.splitOn_eq_singleton own.2, some_]
  simp [shardOf, first, external]

theorem lands_solid {shard : String} (solid : '/' ∉ shard.toList) :
    lands shard = if askable (storedShard shard) then some (storedShard shard) else none := by
  have own := isShard_stored solid
  by_cases asks : askable (storedShard shard) = true
  · rw [lands, if_pos asks, if_pos asks, own.shardOf_eq asks, own.stored]
  · rw [lands, if_neg asks, if_neg asks]

namespace TierPolicy

variable {policy : TierPolicy} {shard name : String} {entry : TierEntry}

theorem get_set : (policy.set shard entry).entries.get name =
    if name = storedShard shard then (if entry.isEmpty then none else some entry) else policy.entries.get name := by
  rw [set]
  by_cases none : entry.isEmpty = true
  · simp only [none, if_true, OrderedMap.get_erase]
    rfl
  · simp only [none, Bool.false_eq_true, if_false]
    rw [OrderedMap.get_insert]
    rfl

@[simp] theorem set_defaultTier : (policy.set shard entry).defaultTier = policy.defaultTier := by
  rw [set]
  split_ifs <;> rfl

@[simp] theorem set_warmIdle : (policy.set shard entry).warmIdle = policy.warmIdle := by
  rw [set]
  split_ifs <;> rfl

/-- What an entry works out to. -/
def filled (policy : TierPolicy) (entry : TierEntry) : ResolvedTier :=
  ⟨entry.tier.getD policy.defaultTier, entry.warmIdle.getD policy.warmIdle⟩

theorem resolve_eq (external : shard ≠ internalShard) :
    policy.resolve shard = policy.filled ((policy.entries.get (storedShard shard)).getD ⟨none, none⟩) := by
  rw [resolve, if_neg external]
  rfl

/-- Windows are 64 bits wide. -/
structure Bounded (policy : TierPolicy) : Prop where
  window : ∀ e ∈ policy.entries.entries, ∀ idle ∈ e.2.warmIdle, idle < 2 ^ 64
  idle : policy.warmIdle < 2 ^ 64

end TierPolicy

theorem trim_asStr (tier : Tier) : trim tier.asStr = tier.asStr ∧ isInherited tier.asStr = false := by
  cases tier <;> decide

theorem message_entry {key shard : String} {entry : TierEntry} {fault : Option String}
    (window : ∀ idle ∈ entry.warmIdle, idle < 2 ^ 64) : (tierMessage key shard entry fault).change.entry = .ok entry := by
  obtain ⟨tier, idle⟩ := entry
  have half : (tierMessage key shard ⟨tier, idle⟩ fault).change.tierHalf = .ok tier := by
    cases tier with
    | none => rfl
    | some t => simp [tierMessage, TierChange.tierHalf, trim_asStr t]
  have other : (tierMessage key shard ⟨tier, idle⟩ fault).change.windowHalf = .ok idle := by
    cases idle with
    | none => rfl
    | some n =>
        have fits : WindowField.seconds n = .number (some ⟨n, window n rfl⟩) :=
          congrArg WindowField.number (dif_pos (window n rfl))
        simp only [tierMessage, Option.map_some, TierChange.windowHalf, fits]
  simp only [TierChange.entry, half, other]

namespace TierServer

variable {s : TierServer} {key shard : String} {entry : TierEntry} {fault : Option String}

theorem vet_message (trusts : s.Trusts key) (window : ∀ idle ∈ entry.warmIdle, idle < 2 ^ 64)
    (asks : askable (storedShard shard) = true) :
    s.vet (tierMessage key shard entry fault) = .ok (shardOf (storedShard shard), entry) := by
  obtain ⟨some_, external⟩ : storedShard shard ≠ "" ∧ startsWithChar (storedShard shard) '_' = false := by
    simpa [askable] using asks
  have who : requireAdmin s.acl (tierMessage key shard entry fault).authorization = .ok key := by
    simp [requireAdmin, tierMessage, trusts.admin]
  have name : (tierMessage key shard entry fault).change.name = storedShard shard := rfl
  simp only [vet, who, name, some_, external, message_entry window, trusts.write, trusts.file, TierChange.shard,
    if_false, Bool.false_eq_true, Bool.not_true]

theorem refuse_message (asks : askable (storedShard shard) = false) :
    ∃ e, s.vet (tierMessage key shard entry fault) = .error e := by
  have name : (tierMessage key shard entry fault).change.name = storedShard shard := rfl
  cases who : requireAdmin s.acl (tierMessage key shard entry fault).authorization with
  | error e => exact ⟨e, by simp only [vet, who]⟩
  | ok caller =>
      by_cases none : storedShard shard = ""
      · exact ⟨⟨400, "Name the namespace to change."⟩, by simp only [vet, who, name, none, if_true]⟩
      · have internal : startsWithChar (storedShard shard) '_' = true := by simpa [askable, none] using asks
        exact ⟨⟨400, "Internal namespaces are always hot and cannot be retiered."⟩,
          by simp only [vet, who, name, none, internal, if_false, if_true]⟩

/-- What a message does to the peer that trusts its sender. -/
theorem setTier_message (trusts : s.Trusts key) (window : ∀ idle ∈ entry.warmIdle, idle < 2 ^ 64) :
    let s' := (s.setTier (tierMessage key shard entry fault)).1
    s'.Trusts key ∧ s'.policy.defaultTier = s.policy.defaultTier ∧ s'.policy.warmIdle = s.policy.warmIdle ∧
      ∀ name, s'.policy.entries.get name = if lands shard = some name then
        (if entry.isEmpty then none else some entry) else s.policy.entries.get name := by
  intro s'
  rcases s.setTier_cases (tierMessage key shard entry fault) with ⟨e, refused, handled⟩ |
    ⟨shard', entry', admitted, policy, acl, saved, failed⟩
  · have same : s' = s := congrArg Prod.fst handled
    rw [same]
    refine ⟨trusts, rfl, rfl, fun name => (if_neg fun taken => ?_).symm⟩
    rw [lands] at taken
    split_ifs at taken with asks
    rw [vet_message trusts window asks] at refused
    cases refused
  · have asks : askable (storedShard shard) = true := by
      by_contra not
      obtain ⟨e, refused⟩ := @refuse_message s key _ entry fault
        (Bool.eq_false_iff.mpr not)
      rw [refused] at admitted
      cases admitted
    rw [vet_message trusts window asks] at admitted
    obtain ⟨rfl, rfl⟩ := Prod.mk.inj (Except.ok.inj admitted)
    have file : s'.tiersFile ≠ none := by
      cases outcome : (tierMessage key shard entry fault).fault with
      | none =>
          have := (saved outcome).1
          simp [s', this]
      | some reason =>
          have := (failed (by simp [outcome])).1
          simp [s', this, trusts.file]
    have policy_ : s'.policy = s.policy.set (shardOf (storedShard shard)) entry := policy
    have acl_ : s'.acl = s.acl := acl
    refine ⟨⟨acl_ ▸ trusts.admin, acl_ ▸ trusts.write, file⟩, by simp [policy_], by simp [policy_], fun name => ?_⟩
    rw [policy_, TierPolicy.get_set, lands, if_pos asks]
    by_cases here : name = storedShard (shardOf (storedShard shard))
    · simp [here]
    · simp [here, Ne.symm here]

end TierServer

/-! ## A run of changes -/

/-- A change that was accepted, and whether the push after it arrived. -/
structure TierNote where
  shard : String
  entry : TierEntry
  arrived : Bool
  deriving DecidableEq

/-- The accepted changes among some events. Neither the ACL nor whether there is a file ever
changes, so a server accepts at any time what it would accept at the start. -/
def notes (server : TierServer) (events : List TierEvent) : List TierNote :=
  events.filterMap fun ev => match server.vet ev.request with
    | .ok (shard, entry) => some ⟨shard, entry, ev.request.fault.isNone && ev.push.isSome⟩
    | .error _ => none

/-- The last change to the settings stored under a name. -/
def lastSet (name : String) (ns : List TierNote) : Option TierNote :=
  (ns.filter fun note => storedShard note.shard = name).getLast?

/-- Whether the peer was told of a change under a name, and took it. -/
def TierNote.tells (note : TierNote) (name : String) : Bool :=
  storedShard note.shard = name && note.arrived && askable name

/-- The last change the peer was told of and took. -/
def lastHeard (name : String) (ns : List TierNote) : Option TierNote := (ns.filter (·.tells name)).getLast?

theorem getLast?_filter_concat {α : Type} (p : α → Bool) (l : List α) (x : α) :
    ((l ++ [x]).filter p).getLast? = if p x then some x else (l.filter p).getLast? := by
  by_cases here : p x = true <;> simp [here]

theorem lastSet_concat (name : String) (ns : List TierNote) (note : TierNote) :
    lastSet name (ns ++ [note]) = if name = storedShard note.shard then some note else lastSet name ns := by
  by_cases same : name = storedShard note.shard
  · simp [lastSet, same]
  · simp [lastSet, same, Ne.symm same]

theorem lastHeard_concat (name : String) (ns : List TierNote) (note : TierNote) :
    lastHeard name (ns ++ [note]) = if note.tells name then some note else lastHeard name ns :=
  getLast?_filter_concat _ ns note

theorem shardOf_external {name : String} (some_ : name ≠ "") (slash : startsWithChar name '/' = false)
    (external : startsWithChar name '_' = false) : shardOf name ≠ internalShard := by
  cases shape : name.toList with
  | nil => exact absurd (by simpa using congrArg String.ofList shape) some_
  | cons c rest =>
      have apart : c ≠ '/' ∧ c ≠ '_' := by
        constructor
        · simpa [startsWithChar, shape] using slash
        · simpa [startsWithChar, shape] using external
      cases parts : rest.splitOn '/' with
      | nil => exact absurd parts (List.splitOn_ne_nil _ _)
      | cons first others =>
          have split_ : splitOnChar '/' name = String.ofList (c :: first) :: others.map String.ofList := by
            simp [splitOnChar, shape, List.splitOn_cons_eq_if_modifyHead, apart.1, parts]
          have head : firstSegment name = some (String.ofList (c :: first)) := by
            simp [firstSegment, split_]
          have plain : startsWithChar (String.ofList (c :: first)) '_' = false := by
            simp [startsWithChar, apart.2]
          intro internal
          simp only [shardOf, head, Option.getD_some, plain, Bool.false_eq_true, if_false] at internal
          rw [internal] at plain
          exact absurd plain (by decide)

theorem TierChange.entry_window {change : TierChange} {entry : TierEntry} (stored : change.entry = .ok entry) :
    ∀ idle ∈ entry.warmIdle, idle < 2 ^ 64 := by
  rw [TierChange.entry] at stored
  split at stored
  · cases stored
  · split at stored
    · cases stored
    · rename_i window half
      obtain rfl := Except.ok.inj stored
      intro idle mem
      obtain rfl : window = some idle := mem
      rw [TierChange.windowHalf.eq_def] at half
      split at half
      · cases half
      · rename_i seconds _
        obtain rfl := Option.some.inj (Except.ok.inj half)
        exact seconds.2
      · cases half
      · rename_i text
        split_ifs at half
        · cases half
        · split at half
          · rename_i seconds parsed
            obtain rfl := Option.some.inj (Except.ok.inj half)
            simp only [parseU64] at parsed
            split_ifs at parsed with _ fits
            obtain rfl := Option.some.inj parsed
            exact fits
          · cases half
      · cases half

/-- What is let in. -/
theorem TierServer.vet_shard {s : TierServer} {r : TierRequest} {shard : String} {entry : TierEntry}
    (admitted : s.vet r = .ok (shard, entry)) : '/' ∉ shard.toList ∧ shard ≠ internalShard ∧
      ∀ idle ∈ entry.warmIdle, idle < 2 ^ 64 := by
  obtain ⟨same, stored, -, some_, external⟩ := vet_eq admitted
  rw [same]
  exact ⟨shardOf_solid _, shardOf_external some_ (startsWithChar_trimSlashes _) external, TierChange.entry_window stored⟩

namespace TierServer

variable {s s' : TierServer}

theorem vet_congr (acl : s'.acl = s.acl) (file : s'.tiersFile = none ↔ s.tiersFile = none) (r : TierRequest) :
    s'.vet r = s.vet r := by
  simp only [vet, acl, file]

theorem setTier_kept (s : TierServer) (r : TierRequest) :
    (s.setTier r).1.acl = s.acl ∧ ((s.setTier r).1.tiersFile = none ↔ s.tiersFile = none) := by
  rcases s.setTier_cases r with ⟨e, -, handled⟩ | ⟨shard, entry, admitted, -, acl, saved, failed⟩
  · simp [handled]
  · have configured : s.tiersFile ≠ none := (vet_eq admitted).2.2.1
    refine ⟨acl, ?_⟩
    cases fault : r.fault with
    | none => simp [(saved fault).1, configured]
    | some reason => rw [(failed (by simp [fault])).1]

end TierServer

namespace TierPolicy

variable {policy policy' : TierPolicy} {shard : String} {entry : TierEntry}

theorem filled_congr (defaultTier : policy'.defaultTier = policy.defaultTier) (warmIdle : policy'.warmIdle = policy.warmIdle)
    (entry : TierEntry) : policy'.filled entry = policy.filled entry := by
  rw [filled, filled, defaultTier, warmIdle]

theorem filled_isEmpty (none_ : entry.isEmpty = true) : policy.filled entry = policy.filled ⟨none, none⟩ := by
  obtain ⟨tier, idle⟩ := entry
  obtain ⟨rfl, rfl⟩ : tier = none ∧ idle = none := by simpa [TierEntry.isEmpty] using none_
  rfl

theorem resolve_set (external : shard ≠ internalShard) : (policy.set shard entry).resolve shard = policy.filled entry := by
  rw [resolve_eq external, get_set, if_pos rfl, filled_congr set_defaultTier set_warmIdle]
  by_cases none_ : entry.isEmpty = true
  · rw [if_pos none_, filled_isEmpty none_]
    rfl
  · rw [if_neg none_]
    rfl

theorem Bounded.set (bounded : policy.Bounded) (window : ∀ idle ∈ entry.warmIdle, idle < 2 ^ 64) :
    (policy.set shard entry).Bounded := by
  constructor
  · intro e mem
    rw [TierPolicy.set] at mem
    split_ifs at mem
    · exact bounded.window e (List.mem_of_mem_filter mem)
    · rcases OrderedMap.mem_insertEntry mem with rfl | old
      · exact window
      · exact bounded.window e old
  · rw [set_warmIdle]
    exact bounded.idle

theorem filled_window (bounded : policy.Bounded) (window : ∀ idle ∈ entry.warmIdle, idle < 2 ^ 64) :
    (policy.filled entry).warmIdle < 2 ^ 64 := by
  cases half : entry.warmIdle with
  | none => simpa [filled, half] using bounded.idle
  | some idle => simpa [filled, half] using window idle half

end TierPolicy

/-- What was set for a name, once some changes have been made to a policy. -/
def setFor (policy : TierPolicy) (name : String) (ns : List TierNote) : Option TierEntry :=
  match lastSet name ns with
  | some note => if note.entry.isEmpty then none else some note.entry
  | none => policy.entries.get name

/-- What a peer was told for a name: what the entry works out to. -/
def heardFor (server peer : TierPolicy) (name : String) (ns : List TierNote) : Option TierEntry :=
  match lastHeard name ns with
  | some note => some ⟨some (server.filled note.entry).tier, some (server.filled note.entry).warmIdle⟩
  | none => peer.entries.get name

namespace TierPair

variable {key : String} {start now : TierPair} {ns : List TierNote} {ev : TierEvent}

/-- What a run of changes has done so far. -/
structure Follows (key : String) (start : TierPair) (ns : List TierNote) (now : TierPair) : Prop where
  acl : now.server.acl = start.server.acl
  file : now.server.tiersFile = none ↔ start.server.tiersFile = none
  defaultTier : now.server.policy.defaultTier = start.server.policy.defaultTier
  warmIdle : now.server.policy.warmIdle = start.server.policy.warmIdle
  bounded : now.server.policy.Bounded
  set : ∀ name, now.server.policy.entries.get name = setFor start.server.policy name ns
  trusts : now.peer.Trusts key
  peerTier : now.peer.policy.defaultTier = start.peer.policy.defaultTier
  peerIdle : now.peer.policy.warmIdle = start.peer.policy.warmIdle
  heard : ∀ name, now.peer.policy.entries.get name = heardFor start.server.policy start.peer.policy name ns

theorem notes_concat (server : TierServer) (events : List TierEvent) (ev : TierEvent) :
    notes server (events ++ [ev]) = notes server events ++ notes server [ev] := List.filterMap_append

theorem notes_refused {server : TierServer} {e : Refusal} (refused : server.vet ev.request = .error e) :
    notes server [ev] = [] := by
  simp [notes, refused]

theorem notes_admitted {server : TierServer} {shard : String} {entry : TierEntry}
    (admitted : server.vet ev.request = .ok (shard, entry)) :
    notes server [ev] = [⟨shard, entry, ev.request.fault.isNone && ev.push.isSome⟩] := by
  simp [notes, admitted]

theorem setFor_concat (policy : TierPolicy) (name : String) (ns : List TierNote) (note : TierNote) :
    setFor policy name (ns ++ [note]) = if name = storedShard note.shard then
      (if note.entry.isEmpty then none else some note.entry) else setFor policy name ns := by
  rw [setFor, lastSet_concat]
  split_ifs <;> simp_all [setFor]

theorem heardFor_concat (server peer : TierPolicy) (name : String) (ns : List TierNote) (note : TierNote) :
    heardFor server peer name (ns ++ [note]) = if note.tells name then
      some ⟨some (server.filled note.entry).tier, some (server.filled note.entry).warmIdle⟩
      else heardFor server peer name ns := by
  rw [heardFor, lastHeard_concat]
  split_ifs <;> simp_all [heardFor]

/-- The peer after the push that follows an accepted change. -/
theorem change_admitted {shard : String} {entry : TierEntry} (admitted : now.server.vet ev.request = .ok (shard, entry)) :
    (change key now ev).server = (now.server.setTier ev.request).1 ∧
      (change key now ev).peer = match ev.request.fault, ev.push with
        | none, some fault => (now.peer.setTier (tierMessage key shard ⟨some ((now.server.policy.set shard entry).resolve shard).tier,
            some ((now.server.policy.set shard entry).resolve shard).warmIdle⟩ fault)).1
        | _, _ => now.peer := by
  simp only [change, TierServer.setTier, admitted]
  cases ev.request.fault <;> cases ev.push <;> simp [TierServer.reply]

theorem change_refused {e : Refusal} (refused : now.server.vet ev.request = .error e) : change key now ev = now := by
  simp only [change, TierServer.setTier, refused]

/-- One change more. -/
theorem Follows.change (follows : Follows key start ns now) (ev : TierEvent) :
    Follows key start (ns ++ notes start.server [ev]) (change key now ev) := by
  have same := TierServer.vet_congr follows.acl follows.file ev.request
  cases admitted : now.server.vet ev.request with
  | error e =>
      rw [change_refused admitted, notes_refused (same.symm.trans admitted), List.append_nil]
      exact follows
  | ok found =>
      obtain ⟨shard, entry⟩ := found
      obtain ⟨solid, external, window⟩ := TierServer.vet_shard admitted
      obtain ⟨server_, peer_⟩ := @change_admitted key _ _ _ _ admitted
      have kept := now.server.setTier_kept ev.request
      have policy : (TierPair.change key now ev).server.policy = now.server.policy.set shard entry := by
        rw [server_, TierServer.setTier, admitted]
        cases ev.request.fault <;> rfl
      have worked := @TierPolicy.resolve_set now.server.policy _ entry external
      have fill := TierPolicy.filled_congr follows.defaultTier follows.warmIdle entry
      rw [notes_admitted (same.symm.trans admitted)]
      have told : (TierPair.change key now ev).peer.Trusts key ∧
          (TierPair.change key now ev).peer.policy.defaultTier = now.peer.policy.defaultTier ∧
          (TierPair.change key now ev).peer.policy.warmIdle = now.peer.policy.warmIdle ∧
          ∀ name, (TierPair.change key now ev).peer.policy.entries.get name =
            if (⟨shard, entry, ev.request.fault.isNone && ev.push.isSome⟩ : TierNote).tells name then
              some ⟨some (start.server.policy.filled entry).tier, some (start.server.policy.filled entry).warmIdle⟩
            else now.peer.policy.entries.get name := by
        rw [peer_, worked, fill]
        cases failed : ev.request.fault with
        | some reason => exact ⟨follows.trusts, rfl, rfl, by simp [TierNote.tells]⟩
        | none =>
            cases sent : ev.push with
            | none => exact ⟨follows.trusts, rfl, rfl, by simp [TierNote.tells]⟩
            | some fault =>
                have idle : ∀ idle ∈ some (start.server.policy.filled entry).warmIdle, idle < 2 ^ 64 := by
                  intro idle mem
                  obtain rfl := Option.some.inj mem
                  rw [← fill]
                  exact TierPolicy.filled_window follows.bounded window
                obtain ⟨trusts, tier, idle_, got⟩ := @TierServer.setTier_message _ _ shard
                  ⟨some (start.server.policy.filled entry).tier, some (start.server.policy.filled entry).warmIdle⟩ fault
                  follows.trusts idle
                refine ⟨trusts, tier, idle_, fun name => (got name).trans ?_⟩
                rw [lands_solid solid]
                by_cases here : storedShard shard = name
                · by_cases asks : askable name = true <;> simp [TierNote.tells, TierEntry.isEmpty, here, asks]
                · by_cases asks : askable (storedShard shard) = true <;> simp [TierNote.tells, here, asks]
      obtain ⟨trusts, tier, idle, got⟩ := told
      constructor
      · rw [server_, kept.1, follows.acl]
      · rw [server_, kept.2, follows.file]
      · rw [policy, TierPolicy.set_defaultTier, follows.defaultTier]
      · rw [policy, TierPolicy.set_warmIdle, follows.warmIdle]
      · rw [policy]
        exact follows.bounded.set window
      · intro name
        rw [policy, TierPolicy.get_set, setFor_concat, follows.set]
      · exact trusts
      · rw [tier, follows.peerTier]
      · rw [idle, follows.peerIdle]
      · intro name
        rw [got, heardFor_concat, follows.heard]

theorem run_follows (bounded : start.server.policy.Bounded) (trusts : start.peer.Trusts key) (events : List TierEvent) :
    Follows key start (notes start.server events) (start.run key events) := by
  induction events using List.reverseRecOn with
  | nil => exact ⟨rfl, .rfl, rfl, rfl, bounded, fun _ => rfl, trusts, rfl, rfl, fun _ => rfl⟩
  | append_singleton events ev ih =>
      rw [notes_concat, run, List.foldl_append]
      exact ih.change ev

end TierPair

/-! ## The periodic offer -/

/-- The last of some offers that is stored under a name. -/
def offerFor (name : String) (offers : List (String × TierEntry)) : Option TierEntry :=
  (offers.filter fun e => lands e.1 = some name).getLast?.map Prod.snd

/-- What a server offers for a name. -/
def TierPolicy.offer (policy : TierPolicy) (name : String) : Option TierEntry := offerFor name policy.entries.entries

theorem offerFor_concat (name : String) (offers : List (String × TierEntry)) (e : String × TierEntry) :
    offerFor name (offers ++ [e]) = if lands e.1 = some name then some e.2 else offerFor name offers := by
  rw [offerFor, getLast?_filter_concat]
  by_cases here : lands e.1 = some name
  · simp [here]
  · simp [here, offerFor]

/-- Where every setting is kept under the name of a shard, a shard is offered what is set for it. -/
theorem TierPolicy.offer_eq {policy : TierPolicy} (named : ∀ e ∈ policy.entries.entries, IsShard e.1) (name : String) :
    policy.offer name = if askable name then policy.entries.get name else none := by
  have kept : (policy.entries.entries.filter fun e => lands e.1 = some name) =
      (policy.entries.entries.filter fun e => e.1 = name).filter fun _ => askable name := by
    rw [List.filter_filter]
    refine List.filter_congr fun e mem => ?_
    rw [lands_solid (named e mem).2, (named e mem).stored]
    by_cases here : e.1 = name
    · by_cases asks : askable name = true <;> simp [here, asks]
    · by_cases asks : askable e.1 = true <;> simp [here, asks]
  rw [offer, offerFor, kept, OrderedMap.filter_key name policy.entries.sorted, OrderedMap.get]
  cases OrderedMap.lookup name policy.entries.entries <;> cases askable name <;> simp

namespace TierPair

variable {key : String}

/-- A peer that was offered some settings. -/
theorem offered (fault : String → Option String) {peer : TierServer} (trusts : peer.Trusts key)
    (offers : List (String × TierEntry)) (window : ∀ e ∈ offers, ∀ idle ∈ e.2.warmIdle, idle < 2 ^ 64) :
    let peer' := offers.foldl (fun peer e => (peer.setTier (tierMessage key e.1 e.2 (fault e.1))).1) peer
    peer'.Trusts key ∧ peer'.policy.defaultTier = peer.policy.defaultTier ∧ peer'.policy.warmIdle = peer.policy.warmIdle ∧
      ∀ name, peer'.policy.entries.get name = match offerFor name offers with
        | some entry => if entry.isEmpty then none else some entry
        | none => peer.policy.entries.get name := by
  induction offers using List.reverseRecOn with
  | nil => exact ⟨trusts, rfl, rfl, fun _ => rfl⟩
  | append_singleton offers e ih =>
      obtain ⟨trusts', tier, idle, got⟩ := ih fun e' mem => window e' (by simp [mem])
      obtain ⟨trusts'', tier', idle', got'⟩ := @TierServer.setTier_message _ _ e.1 _ (fault e.1) trusts' (window e (by simp))
      simp only [List.foldl_append, List.foldl_cons, List.foldl_nil]
      refine ⟨trusts'', tier'.trans tier, idle'.trans idle, fun name => ?_⟩
      rw [got', offerFor_concat]
      by_cases here : lands e.1 = some name
      · simp only [if_pos here]
      · simp only [if_neg here]
        exact got name

/-- Whether a peer comes to work out for a name what it was last set to: the last offer stored
under the name carries that, or else the last push that was taken did, or else the peer worked
it out before. -/
def Told (start before : TierPair) (ns : List TierNote) (name : String) : Prop :=
  ∃ last, lastSet name ns = some last ∧
    (match before.server.policy.offer name with
      | some entry => start.server.policy.filled entry
      | none => match lastHeard name ns with
        | some note => start.server.policy.filled note.entry
        | none => start.peer.policy.filled ((start.peer.policy.entries.get name).getD ⟨none, none⟩)) =
      start.server.policy.filled last.entry

theorem lastSet_mem {ns : List TierNote} {note : TierNote} (mem : note ∈ ns) :
    ∃ last ∈ ns, lastSet (storedShard note.shard) ns = some last ∧ storedShard last.shard = storedShard note.shard := by
  have held : note ∈ ns.filter fun n => storedShard n.shard = storedShard note.shard := by simp [mem]
  cases found : lastSet (storedShard note.shard) ns with
  | none =>
      rw [List.getLast?_eq_none_iff.mp found] at held
      cases held
  | some last =>
      have mem' := List.mem_of_getLast? found
      exact ⟨last, (List.mem_filter.mp mem').1, rfl, by simpa using (List.mem_filter.mp mem').2⟩

theorem notes_external {server : TierServer} {events : List TierEvent} {note : TierNote}
    (mem : note ∈ notes server events) : note.shard ≠ internalShard := by
  obtain ⟨ev, -, found⟩ := List.mem_filterMap.mp mem
  cases admitted : server.vet ev.request with
  | error e => simp [admitted] at found
  | ok pair =>
      simp only [admitted, Option.some.injEq] at found
      subst found
      exact (TierServer.vet_shard admitted).2.1

/-- From any settings on either side, whatever is then asked of the server and whichever pushes
are lost: once everything the server holds has been offered, the peer works out for each shard
that was changed what the server does, exactly when it was told. -/
theorem gossip_iff {start : TierPair} (defaultTier : start.peer.policy.defaultTier = start.server.policy.defaultTier)
    (warmIdle : start.peer.policy.warmIdle = start.server.policy.warmIdle) (bounded : start.server.policy.Bounded)
    (trusts : start.peer.Trusts key) (events : List TierEvent) (fault : String → Option String) :
    (∀ note ∈ notes start.server events,
      ((start.run key events).gossip key fault).peer.policy.resolve note.shard =
        ((start.run key events).gossip key fault).server.policy.resolve note.shard) ↔
    ∀ note ∈ notes start.server events,
      Told start (start.run key events) (notes start.server events) (storedShard note.shard) := by
  refine forall₂_congr fun note mem => ?_
  have follows := run_follows bounded trusts events
  have external := notes_external mem
  generalize hns : notes start.server events = ns at *
  generalize hnow : start.run key events = now at *
  obtain ⟨last, -, isLast, -⟩ := lastSet_mem mem
  obtain ⟨-, tier, idle, got⟩ := offered fault follows.trusts _ follows.bounded.window
  have alike : ∀ entry, (now.gossip key fault).peer.policy.filled entry = start.server.policy.filled entry :=
    TierPolicy.filled_congr ((tier.trans follows.peerTier).trans defaultTier) ((idle.trans follows.peerIdle).trans warmIdle)
  have here : (now.gossip key fault).server.policy.resolve note.shard = start.server.policy.filled last.entry := by
    rw [gossip, TierPolicy.resolve_eq external, follows.set, setFor, isLast,
      TierPolicy.filled_congr follows.defaultTier follows.warmIdle]
    by_cases none_ : last.entry.isEmpty = true
    · simp only [none_, if_true]
      exact (TierPolicy.filled_isEmpty none_).symm
    · simp only [if_neg none_]
      rfl
  have there : (now.gossip key fault).peer.policy.resolve note.shard =
      match now.server.policy.offer (storedShard note.shard) with
      | some entry => start.server.policy.filled entry
      | none => match lastHeard (storedShard note.shard) ns with
        | some note => start.server.policy.filled note.entry
        | none => start.peer.policy.filled ((start.peer.policy.entries.get (storedShard note.shard)).getD ⟨none, none⟩) := by
    rw [TierPolicy.resolve_eq external, alike, gossip, got, ← TierPolicy.offer]
    cases now.server.policy.offer (storedShard note.shard) with
    | some entry =>
        by_cases none_ : entry.isEmpty = true
        · simp only [none_, if_true]
          exact (TierPolicy.filled_isEmpty none_).symm
        · simp only [if_neg none_]
          rfl
    | none =>
        simp only [follows.heard, heardFor]
        cases lastHeard (storedShard note.shard) ns with
        | some note => rfl
        | none => exact (TierPolicy.filled_congr defaultTier warmIdle _).symm
  rw [here, there, Told, isLast]
  simp

/-- Two servers with the same admin key and nothing set. -/
def keepers : TierPair := ⟨TierServer.keeper, TierServer.keeper⟩

theorem keeper_trusts : TierServer.keeper.Trusts "k" where
  admin := by decide
  write _ := by
    have held : TierServer.keeper.acl.keys.get "k" = some [.allData, .adminOnly] := by decide
    have everywhere : segments "" = [] := by decide
    simp [Acl.canWrite, Acl.allows, held, Grant.covers, Grant.allData, everywhere]
  file := by decide

theorem gossip_iff_keepers :
    ((keepers.run "k" [⟨TierServer.retier "archive" (some "cold") none, none⟩]).gossip "k" fun _ => none).peer.policy.resolve
        "archive" =
      ((keepers.run "k" [⟨TierServer.retier "archive" (some "cold") none, none⟩]).gossip "k" fun _ => none).server.policy.resolve
        "archive" := by
  have told := (@gossip_iff "k" keepers rfl rfl ⟨by decide, by decide⟩ keeper_trusts
    [⟨TierServer.retier "archive" (some "cold") none, none⟩] fun _ => none).mpr
  exact told (by
    intro note mem
    have only : notes keepers.server [⟨TierServer.retier "archive" (some "cold") none, none⟩] =
      [⟨"archive", ⟨some .cold, none⟩, false⟩] := by decide
    rw [only] at mem ⊢
    obtain rfl := List.mem_singleton.mp mem
    exact ⟨⟨"archive", ⟨some .cold, none⟩, false⟩, by decide, by decide⟩) ⟨"archive", ⟨some .cold, none⟩, false⟩ (by decide)

/-- A shard is made cold and the peer told; the setting is cleared and the push lost. The offer
that follows is empty, and the shard stays cold on the peer. -/
theorem clearing_not_offered :
    let done := (keepers.run "k" [⟨TierServer.retier "archive" (some "cold") none, some none⟩,
      ⟨TierServer.retier "archive" none none, none⟩]).gossip "k" fun _ => none
    done.server.policy.resolve "archive" = ⟨.hot, 3600⟩ ∧ done.peer.policy.resolve "archive" = ⟨.cold, 3600⟩ := by
  decide

end TierPair
end SightingDB
