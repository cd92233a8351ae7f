import SightingDB.Paths
import SightingDB.Lib.OrderedMap

/-!
How long a shard may sit untouched in memory. The internal shard never leaves it.
-/
namespace SightingDB

inductive Tier
  | hot
  | warm
  | cold
  deriving DecidableEq

namespace Tier

def parse (raw : String) : Except String Tier :=
  let name := asciiLowercase (trim raw)
  if name = "hot" then .ok .hot
  else if name = "warm" then .ok .warm
  else if name = "cold" then .ok .cold
  else .error ("unknown tier '" ++ name ++ "', expected hot, warm or cold")

def asStr : Tier → String
  | .hot => "hot"
  | .warm => "warm"
  | .cold => "cold"

@[simp] theorem parse_asStr (tier : Tier) : parse tier.asStr = .ok tier := by
  cases tier <;> decide

end Tier

/-- What one shard says for itself. -/
structure TierEntry where
  tier : Option Tier
  warmIdle : Option Nat
  deriving DecidableEq

def TierEntry.isEmpty (entry : TierEntry) : Bool := entry.tier.isNone && entry.warmIdle.isNone

structure ResolvedTier where
  tier : Tier
  warmIdle : Nat
  deriving DecidableEq

/-- Seconds a shard may be idle; `none` is for ever. -/
def ResolvedTier.idleAllowance (r : ResolvedTier) : Option Nat :=
  match r.tier with
  | .hot => none
  | .warm => some r.warmIdle
  | .cold => some 0

structure TierPolicy where
  defaultTier : Tier
  entries : OrderedMap String TierEntry
  warmIdle : Nat
  deriving DecidableEq

namespace TierPolicy

/-- Everything resident unless asked otherwise. -/
def default : TierPolicy := ⟨.hot, ∅, 3600⟩

def entry (policy : TierPolicy) (shard : String) : TierEntry :=
  (policy.entries.get (trimSlashes (trim shard))).getD ⟨none, none⟩

def resolve (policy : TierPolicy) (shard : String) : ResolvedTier :=
  if shard = internalShard then ⟨.hot, policy.warmIdle⟩
  else
    let entry := policy.entry shard
    ⟨entry.tier.getD policy.defaultTier, entry.warmIdle.getD policy.warmIdle⟩

def idleAllowance (policy : TierPolicy) (shard : String) : Option Nat :=
  (policy.resolve shard).idleAllowance

/-- Set or clear one shard's settings; an empty entry is a removal. -/
def set (policy : TierPolicy) (shard : String) (entry : TierEntry) : TierPolicy :=
  let shard := trimSlashes (trim shard)
  if entry.isEmpty then { policy with entries := policy.entries.erase shard }
  else { policy with entries := policy.entries.insert shard entry }

@[simp] theorem idleAllowance_internal (policy : TierPolicy) :
    policy.idleAllowance internalShard = none := by
  simp [idleAllowance, resolve, ResolvedTier.idleAllowance]

end TierPolicy
end SightingDB
