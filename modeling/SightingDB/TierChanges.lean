import SightingDB.TierFile
import SightingDB.KeyChanges

/-!
Changes to the storage settings of a shard, made through the management interface. The policy
is changed first and the file written from it afterwards. What is read back from the file is
the policy, as long as nothing set means anything to TOML or overflows it.
-/
namespace SightingDB

/-- The window a change asks for, as the request has it. -/
inductive WindowField
  /-- A number, if it is whole, not negative and fits in 64 bits. -/
  | number (seconds : Option (Fin (2 ^ 64)))
  | text (text : String)
  /-- Anything else, as it is shown. -/
  | other (shown : String)
  deriving DecidableEq

structure TierChange where
  namespace_ : String
  tier : Option String
  warmIdle : Option WindowField
  deriving DecidableEq

/-- The words that take the configured default. -/
def isInherited (text : String) : Bool := text = "" || text = "default" || text = "inherit"

namespace TierChange

def tierHalf (change : TierChange) : Except String (Option Tier) :=
  match change.tier.map trim with
  | none => .ok none
  | some text => if isInherited text then .ok none else match Tier.parse text with
    | .error e => .error e
    | .ok tier => .ok (some tier)

def windowHalf (change : TierChange) : Except String (Option Nat) :=
  match change.warmIdle with
  | none => .ok none
  | some (.number (some seconds)) => .ok (some seconds)
  | some (.number none) => .error "warm_idle cannot be negative"
  | some (.text text) =>
      if isInherited (trim text) then .ok none
      else match parseU64 (trim text) with
        | some seconds => .ok (some seconds)
        | none => .error ("'" ++ trim text ++ "' is not a number of seconds")
  | some (.other shown) => .error ("warm_idle should be a number, found " ++ shown)

/-- The settings to store. -/
def entry (change : TierChange) : Except String TierEntry :=
  match change.tierHalf with
  | .error e => .error e
  | .ok tier => match change.windowHalf with
    | .error e => .error e
    | .ok warmIdle => .ok ⟨tier, warmIdle⟩

/-- The namespace asked about, tidied. -/
def name (change : TierChange) : String := trimSlashes (trim change.namespace_)

/-- The shard the settings land on. -/
def shard (change : TierChange) : String := shardOf change.name

end TierChange

namespace TierPolicy

/-- What a shard says for itself; the internal one says nothing. -/
def own (policy : TierPolicy) (shard : String) : TierEntry :=
  if shard = internalShard then ⟨none, none⟩ else policy.entry shard

/-- What a shard will do, in a sentence. -/
def shardEffect (policy : TierPolicy) (shard : String) : String :=
  match policy.idleAllowance shard with
  | none => "'" ++ shard ++ "' and everything under it stays in memory"
  | some 0 => "'" ++ shard ++ "' and everything under it is dropped at the next sweep once idle"
  | some window => "'" ++ shard ++ "' and everything under it is dropped after " ++ toString window ++ "s untouched"

end TierPolicy

structure TierReply where
  shard : String
  tier : Tier
  warmIdle : Nat
  ownTier : Bool
  ownWarmIdle : Bool
  effect : String
  deriving DecidableEq

/-- What a server knows of its storage settings, and who may change them. -/
structure TierServer where
  acl : Acl
  policy : TierPolicy
  /-- The configured file, and the text in it once it exists. -/
  tiersFile : Option (Option String)
  deriving DecidableEq

structure TierRequest where
  authorization : Option (Option String)
  change : TierChange
  /-- Why the file cannot be written, if it cannot. -/
  fault : Option String
  deriving DecidableEq

namespace TierServer

/-- The checks before anything changes: the shard and what to store for it. -/
def vet (s : TierServer) (r : TierRequest) : Except Refusal (String × TierEntry) :=
  match requireAdmin s.acl r.authorization with
  | .error e => .error e
  | .ok caller =>
      if r.change.name = "" then .error ⟨400, "Name the namespace to change."⟩
      else if startsWithChar r.change.name '_' then
        .error ⟨400, "Internal namespaces are always hot and cannot be retiered."⟩
      else match r.change.entry with
        | .error e => .error ⟨400, e⟩
        | .ok entry =>
            if !s.acl.canWrite caller r.change.name then
              .error ⟨403, "That key is not permitted to write to '" ++ r.change.name ++ "'."⟩
            else if s.tiersFile = none then
              .error ⟨409, "No tiers_file is configured, so tiers cannot be changed here. Set tiers_file in [storage] and restart."⟩
            else .ok (r.change.shard, entry)

def reply (policy : TierPolicy) (shard : String) : TierReply where
  shard := shard
  tier := (policy.resolve shard).tier
  warmIdle := (policy.resolve shard).warmIdle
  ownTier := (policy.own shard).tier.isSome
  ownWarmIdle := (policy.own shard).warmIdle.isSome
  effect := policy.shardEffect shard

/-- `set_tier`. When the file cannot be written the policy has changed all the same. -/
def setTier (s : TierServer) (r : TierRequest) : TierServer × Except Refusal TierReply :=
  match s.vet r with
  | .error e => (s, .error e)
  | .ok (shard, entry) =>
      let policy := s.policy.set shard entry
      match r.fault with
      | some reason => ({ s with policy := policy }, .error ⟨500, "Could not write the tier file: " ++ reason⟩)
      | none => ({ s with policy := policy, tiersFile := some (some policy.save) }, .ok (reply policy shard))

def run (s : TierServer) (requests : List TierRequest) : TierServer := requests.foldl (fun s r => (s.setTier r).1) s

end TierServer

/-! ## What a change does to the file -/

/-- Whatever the change stores can be written as it stands. -/
def TierChange.Plain (change : TierChange) : Prop :=
  ∀ entry, change.entry = .ok entry → entry.isEmpty = false →
    Toml.Plain (trimSlashes (trim change.shard)).toList ∧ ∀ idle ∈ entry.warmIdle, idle < 2 ^ 63

namespace TierPolicy

variable {policy : TierPolicy}

theorem writable_set {shard : String} {entry : TierEntry} (writable : policy.Writable)
    (plain : entry.isEmpty = false → Toml.Plain (trimSlashes (trim shard)).toList ∧
      ∀ idle ∈ entry.warmIdle, idle < 2 ^ 63) : (policy.set shard entry).Writable := by
  rw [set]
  split_ifs with none
  · have kept : ∀ e ∈ (policy.entries.erase (trimSlashes (trim shard))).entries, e ∈ policy.entries.entries :=
      fun e mem => List.mem_of_mem_filter mem
    exact ⟨fun e mem => writable.shard e (kept e mem), fun e mem => writable.some_ e (kept e mem),
      fun e mem => writable.window e (kept e mem), writable.idle⟩
  · have some_ : entry.isEmpty = false := by simpa using none
    obtain ⟨shard_, window⟩ := plain some_
    constructor
    · intro e mem
      rcases OrderedMap.mem_insertEntry mem with rfl | old
      · exact shard_
      · exact writable.shard e old
    · intro e mem
      rcases OrderedMap.mem_insertEntry mem with rfl | old
      · exact some_
      · exact writable.some_ e old
    · intro e mem
      rcases OrderedMap.mem_insertEntry mem with rfl | old
      · exact window
      · exact writable.window e old
    · exact writable.idle

end TierPolicy

namespace TierServer

variable {s : TierServer} {r : TierRequest}

theorem vet_eq {shard : String} {entry : TierEntry} (admitted : s.vet r = .ok (shard, entry)) :
    shard = r.change.shard ∧ r.change.entry = .ok entry ∧ s.tiersFile ≠ none ∧ r.change.name ≠ "" ∧
      startsWithChar r.change.name '_' = false := by
  rw [vet] at admitted
  split at admitted
  · cases admitted
  · cases stored : r.change.entry with
    | error e =>
        simp only [stored] at admitted
        split_ifs at admitted
    | ok found =>
        simp only [stored] at admitted
        split_ifs at admitted with empty internal _ configured
        obtain ⟨rfl, rfl⟩ := Prod.mk.inj (Except.ok.inj admitted)
        exact ⟨rfl, rfl, configured, empty, by simpa using internal⟩

/-- Everything a request can do. -/
theorem setTier_cases (s : TierServer) (r : TierRequest) :
    (∃ e, s.vet r = .error e ∧ s.setTier r = (s, .error e)) ∨
    ∃ shard entry, s.vet r = .ok (shard, entry) ∧
      (s.setTier r).1.policy = s.policy.set shard entry ∧ (s.setTier r).1.acl = s.acl ∧
      (r.fault = none → (s.setTier r).1.tiersFile = some (some (s.policy.set shard entry).save) ∧
        (s.setTier r).2 = .ok (reply (s.policy.set shard entry) shard)) ∧
      (r.fault ≠ none → (s.setTier r).1.tiersFile = s.tiersFile ∧ ∃ e, (s.setTier r).2 = .error e) := by
  cases admitted : s.vet r with
  | error e => exact .inl ⟨e, rfl, by rw [setTier, admitted]⟩
  | ok found =>
      obtain ⟨shard, entry⟩ := found
      refine .inr ⟨shard, entry, rfl, ?_⟩
      rw [setTier, admitted]
      cases r.fault <;> simp

theorem setTier_writable (writable : s.policy.Writable) (plain : r.change.Plain) : (s.setTier r).1.policy.Writable := by
  rcases s.setTier_cases r with ⟨e, -, handled⟩ | ⟨shard, entry, admitted, policy, -⟩
  · rw [handled]
    exact writable
  · obtain ⟨same, stored, -⟩ := vet_eq admitted
    rw [policy, same]
    exact TierPolicy.writable_set writable (plain entry stored)

theorem run_writable (writable : s.policy.Writable) {requests : List TierRequest} (plain : ∀ r ∈ requests, r.change.Plain) :
    (s.run requests).policy.Writable := by
  induction requests generalizing s with
  | nil => exact writable
  | cons r rest ih => exact ih (setTier_writable writable (plain r (by simp))) fun q mem => plain q (by simp [mem])

/-- From settings that can be written, and whatever is asked for after, as long as it can be
written too: what is read back from the file the settings are saved to is the settings, and
that file is the one an accepted request leaves. -/
theorem settings_come_back (s : TierServer) (writable : s.policy.Writable) (requests : List TierRequest)
    (plain : ∀ r ∈ requests, r.change.Plain) :
    TierPolicy.load (s.run requests).policy.save = .ok (s.run requests).policy ∧
      ∀ r reply, r.change.Plain → ((s.run requests).setTier r).2 = .ok reply →
        ∃ text, ((s.run requests).setTier r).1.tiersFile = some (some text) ∧
          TierPolicy.load text = .ok ((s.run requests).setTier r).1.policy := by
  have held := run_writable writable plain
  refine ⟨TierPolicy.load_save held, fun r reply_ fine accepted => ?_⟩
  have now := setTier_writable held fine
  rcases (s.run requests).setTier_cases r with ⟨e, -, handled⟩ | ⟨shard, entry, -, policy, -, saved, failed⟩
  · rw [handled] at accepted
    cases accepted
  · cases fault : r.fault with
    | some reason =>
        obtain ⟨-, e, refused⟩ := failed (by simp [fault])
        rw [refused] at accepted
        cases accepted
    | none =>
        refine ⟨_, (saved fault).1, ?_⟩
        rw [policy] at now ⊢
        exact TierPolicy.load_save now

/-- One admin that may write everywhere, on a server with a file for its settings. -/
def keeper : TierServer := ⟨⟨OrderedMap.empty.insert "k" [.allData, .adminOnly]⟩, .default, some none⟩

def retier (shard : String) (tier : Option String) (warmIdle : Option WindowField) : TierRequest :=
  ⟨some (some "k"), ⟨shard, tier, warmIdle⟩, none⟩

theorem settings_come_back_keeper : TierPolicy.load (keeper.run [retier "a/b" (some "Warm") (some (.text "60")),
      retier "c" (some "cold") none]).policy.save =
    .ok (keeper.run [retier "a/b" (some "Warm") (some (.text "60")), retier "c" (some "cold") none]).policy := by
  refine (settings_come_back keeper ?_ _ ?_).1
  · exact ⟨by decide, by decide, by decide, by decide⟩
  · intro r mem entry stored _
    rcases List.mem_cons.mp mem with rfl | last
    · have half : (retier "a/b" (some "Warm") (some (.text "60"))).change.entry = .ok ⟨some .warm, some 60⟩ := by decide
      obtain rfl := Except.ok.inj (half.symm.trans stored)
      exact ⟨by decide, by simp⟩
    · obtain rfl := List.mem_singleton.mp last
      have half : (retier "c" (some "cold") none).change.entry = .ok ⟨some .cold, none⟩ := by decide
      obtain rfl := Except.ok.inj (half.symm.trans stored)
      exact ⟨by decide, by simp⟩

/-- A quote in a shard, or a window past 63 bits, makes the file unreadable. -/
theorem keeper_unreadable :
    TierPolicy.load (keeper.run [retier "a\"b" (some "cold") none]).policy.save = .error .unreadable ∧
    TierPolicy.load (keeper.run [retier "a" none (some (.number (some ⟨2 ^ 63, by decide⟩)))]).policy.save =
      .error .unreadable := by
  have quoted : (keeper.run [retier "a\"b" (some "cold") none]).policy =
      ⟨.hot, OrderedMap.empty.insert "a\"b" ⟨some .cold, none⟩, 3600⟩ := by decide
  have large : (keeper.run [retier "a" none (some (.number (some ⟨2 ^ 63, by decide⟩)))]).policy =
      ⟨.hot, OrderedMap.empty.insert "a" ⟨none, some (2 ^ 63)⟩, 3600⟩ := by decide
  rw [quoted, large]
  constructor
  · refine TierPolicy.load_of_spoilt (by decide) (by decide) (p := ("a\"b", .scalar (.str "cold"))) (by decide) ?_
    decide
  · refine TierPolicy.load_of_spoilt (by decide) (by decide) (p := ("a", .table [("warm_idle", .int (2 ^ 63))])) (by decide) ?_
    decide

end TierServer
end SightingDB
