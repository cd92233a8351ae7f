import SightingDB.TierChanges
import SightingDB.Persistence

/-!
How long a shard waits in memory. Its idle window is unsigned and is compared as a signed number,
with the time it has been idle.
-/
namespace SightingDB

/-- A window that is negative once it is cast, and not yet over. -/
def TierPolicy.Wraps (tiers : TierPolicy) (now : Int) (shard : String) (meta_ : ShardMeta) : Prop :=
  (tiers.resolve shard).tier = .warm ∧ 2 ^ 63 ≤ (tiers.resolve shard).warmIdle ∧
    ((tiers.resolve shard).warmIdle : Int) - 2 ^ 64 ≤ saturatingSub now meta_.lastAccess ∧
    now - meta_.lastAccess < (tiers.resolve shard).warmIdle

/-- The comparison is right below `2 ^ 63`, and from there on says yes to what the cast makes of the
window. -/
theorem asI64_le_saturatingSub {window : Nat} {now last : Int} (passes : asI64 window ≤ saturatingSub now last) :
    (window : Int) ≤ now - last ∨
      2 ^ 63 ≤ window ∧ (window : Int) - 2 ^ 64 ≤ saturatingSub now last ∧ now - last < window := by
  by_cases small : window < 2 ^ 63
  · left
    rw [asI64, if_pos small] at passes
    simp only [saturatingSub, i64Max] at passes
    omega
  · rw [asI64, if_neg small] at passes
    by_cases past : (window : Int) ≤ now - last
    · exact .inl past
    · exact .inr ⟨by omega, passes, by omega⟩

theorem TierPolicy.isIdle_of_wraps {tiers : TierPolicy} {now : Int} {shard : String} {meta_ : ShardMeta}
    (resident : meta_.resident = true) (wraps : tiers.Wraps now shard meta_) : tiers.isIdle now shard meta_ = true := by
  obtain ⟨warm, large, passes, -⟩ := wraps
  have cast : asI64 (tiers.resolve shard).warmIdle = ((tiers.resolve shard).warmIdle : Int) - 2 ^ 64 :=
    if_neg (by omega)
  simp only [isIdle, resident, idleAllowance, ResolvedTier.idleAllowance, warm, Bool.true_and, decide_eq_true_eq]
  rw [cast]
  exact passes

namespace Database

variable {db : Database} {w : World} {now : Int} {shard : String}

/-- Whether an eviction pass takes a shard out of memory. -/
def drops (db : Database) (w : World) (now : Int) (shard : String) : Prop :=
  db.evicted shard = false ∧ (db.evictIdle w now).1.evicted shard = true

/-- A shard that changed since it was last saved must be saved first. -/
def canLeave (db : Database) (w : World) (shard : String) : Prop :=
  (db.shards.get shard).isSome = true ∧ (db.dirty.contains shard = true → w.writable shard = true)

theorem shards_dropShard (db : Database) (shard other : String) : (db.dropShard shard).shards.get other =
    if other = shard then (db.shards.get other).map fun meta_ => { meta_ with resident := false }
    else db.shards.get other := by
  simp only [dropShard]
  cases known : db.shards.get shard with
  | none =>
      split_ifs with same
      · rw [same, known]
        rfl
      · rfl
  | some meta_ =>
      rw [OrderedMap.get_insert]
      split_ifs with same
      · rw [same, known]
        rfl
      · rfl

/-- One step drops one shard, if it can leave, and leaves the others as they are. -/
theorem evictShard_spec (acc : Database × Dir × EvictReport) (next : String) :
    ((evictShard w acc next).1.evicted next = true ↔ acc.1.evicted next = true ∨ acc.1.canLeave w next) ∧
    ∀ other, other ≠ next → (evictShard w acc next).1.evicted other = acc.1.evicted other ∧
      ((evictShard w acc next).1.canLeave w other ↔ acc.1.canLeave w other) := by
  obtain ⟨db, dir, report⟩ := acc
  by_cases stuck : db.dirty.contains next = true ∧ w.writable next = false
  · have kept : evictShard w (db, dir, report) next = (db, dir, { report with failed := report.failed + 1 }) := by
      simp [evictShard, stuck, writeShard]
    rw [kept]
    simp [canLeave, stuck]
  · have ready : db.dirty.contains next = true → w.writable next = true := by
      simpa using stuck
    have gone : (evictShard w (db, dir, report) next).1 = ({ db with dirty := db.dirty.erase next } : Database).dropShard next := by
      cases dirty : db.dirty.contains next with
      | false => simp [evictShard, dirty]
      | true => simp [evictShard, dirty, writeShard, ready dirty]
    rw [gone]
    constructor
    · rw [evicted, shards_dropShard, if_pos rfl]
      cases known : db.shards.get next with
      | none => simp [evicted, canLeave, known]
      | some meta_ => exact iff_of_true rfl (.inr ⟨by simp [known], ready⟩)
    · intro other apart
      have dirty : (({ db with dirty := db.dirty.erase next } : Database).dropShard next).dirty.contains other =
          db.dirty.contains other := by
        simp [dropShard, OrderedMap.contains, OrderedMap.get_erase, apart]
      rw [evicted, canLeave, shards_dropShard, if_neg apart, dirty]
      exact ⟨rfl, Iff.rfl⟩

/-- A pass over several shards drops those that can leave. -/
theorem evicted_foldl {shards : List String} (nodup : shards.Nodup) (acc : Database × Dir × EvictReport) :
    (shards.foldl (evictShard w) acc).1.evicted shard = true ↔
      acc.1.evicted shard = true ∨ shard ∈ shards ∧ acc.1.canLeave w shard := by
  induction shards generalizing acc with
  | nil => simp
  | cons next rest ih =>
      obtain ⟨fresh, nodup⟩ := List.nodup_cons.mp nodup
      obtain ⟨here, others⟩ := @evictShard_spec w acc next
      rw [List.foldl_cons, ih nodup]
      by_cases same : shard = next
      · subst same
        simp [here, fresh]
      · obtain ⟨away, leave⟩ := others shard same
        simp [away, leave, same]

theorem drops_iff : db.drops w now shard ↔ db.store = true ∧ ∃ meta_, db.shards.get shard = some meta_ ∧
    db.tiers.isIdle now shard meta_ = true ∧ (db.dirty.contains shard = true → w.writable shard = true) := by
  rw [drops, evictIdle]
  cases store : db.store with
  | false => simp
  | true =>
      have listed : shard ∈ (db.shards.filter fun shard meta_ => db.tiers.isIdle now shard meta_).keys ↔
          ∃ meta_, db.shards.get shard = some meta_ ∧ db.tiers.isIdle now shard meta_ = true := by
        simp [OrderedMap.mem_keys, Option.filter_eq_some_iff]
      simp only [Bool.not_true, Bool.false_eq_true, if_false]
      rw [evicted_foldl (OrderedMap.keys_nodup _), listed]
      cases known : db.shards.get shard with
      | none => simp [evicted, known]
      | some meta_ =>
          have resident (idle : db.tiers.isIdle now shard meta_ = true) : meta_.resident = true := by
            simp only [TierPolicy.isIdle, Bool.and_eq_true] at idle
            exact idle.1
          simp only [evicted, canLeave, known, Option.some.injEq, exists_eq_left', Option.isSome_some, true_and]
          constructor
          · rintro ⟨here, away | leaves⟩
            · rw [here] at away
              cases away
            · exact leaves
          · rintro ⟨idle, ready⟩
            exact ⟨by simp [resident idle], .inr ⟨idle, ready⟩⟩

/-- A shard that may leave: not hot, not the internal one, and idle for its whole window. -/
def Waited (db : Database) (now : Int) (shard : String) : Prop :=
  shard ≠ internalShard ∧ (db.tiers.resolve shard).tier ≠ .hot ∧
    ∃ meta_ window, db.shards.get shard = some meta_ ∧ db.tiers.idleAllowance shard = some window ∧
      (window : Int) ≤ now - meta_.lastAccess

/-- An eviction pass drops only shards that have waited their window, unless one in memory that can
leave has a window that wraps. -/
theorem warm_waits (db : Database) (w : World) (now : Int) : (∀ shard, db.drops w now shard → db.Waited now shard) ↔
    ∀ shard meta_, db.store = true → db.shards.get shard = some meta_ → meta_.resident = true →
      (db.dirty.contains shard = true → w.writable shard = true) → ¬ db.tiers.Wraps now shard meta_ := by
  constructor
  · intro waits shard meta_ store known resident ready wraps
    obtain ⟨-, -, meta', window, known', allowed, past⟩ :=
      waits shard (drops_iff.mpr ⟨store, meta_, known, TierPolicy.isIdle_of_wraps resident wraps, ready⟩)
    obtain ⟨warm, -, -, early⟩ := wraps
    obtain rfl := Option.some.inj (known'.symm.trans known)
    obtain rfl : (db.tiers.resolve shard).warmIdle = window := by
      simpa [TierPolicy.idleAllowance, ResolvedTier.idleAllowance, warm] using allowed
    omega
  · intro none_ shard dropped
    obtain ⟨store, meta_, known, idle, ready⟩ := drops_iff.mp dropped
    simp only [TierPolicy.isIdle, Bool.and_eq_true] at idle
    obtain ⟨resident, idle⟩ := idle
    refine ⟨?_, ?_, ?_⟩
    · rintro rfl
      simp at idle
    · intro hot
      simp [TierPolicy.idleAllowance, ResolvedTier.idleAllowance, hot] at idle
    · cases allowed : db.tiers.idleAllowance shard with
      | none => simp [allowed] at idle
      | some window =>
          rw [allowed] at idle
          refine ⟨meta_, window, known, rfl, ?_⟩
          rcases asI64_le_saturatingSub (of_decide_eq_true idle) with past | ⟨large, passes, early⟩
          · exact past
          · -- Only a warm shard has a window that large.
            cases tier : (db.tiers.resolve shard).tier with
            | hot => simp [TierPolicy.idleAllowance, ResolvedTier.idleAllowance, tier] at allowed
            | cold =>
                obtain rfl : 0 = window := by
                  simpa [TierPolicy.idleAllowance, ResolvedTier.idleAllowance, tier] using allowed
                simp at large
            | warm =>
                obtain rfl : (db.tiers.resolve shard).warmIdle = window := by
                  simpa [TierPolicy.idleAllowance, ResolvedTier.idleAllowance, tier] using allowed
                exact absurd ⟨tier, large, passes, early⟩ (none_ shard meta_ store known resident ready)

/-- The longest window there is, as the interface takes it. -/
def forever : TierChange := ⟨"feeds", some "warm", some (.number (some ⟨2 ^ 64 - 1, by decide⟩))⟩

/-- One shard, read a moment ago. -/
def justRead : Database :=
  { withNode ⟨0, 0⟩ .storeEverything "n" with
    store := true
    shards := OrderedMap.empty.insert "feeds" ⟨∅, true, 1000⟩
    tiers := TierPolicy.default.set "feeds" ⟨some .warm, some (2 ^ 64 - 1)⟩ }

/-- Asked to stay as long as can be asked, a shard leaves at once. -/
theorem forever_leaves_at_once : forever.entry = .ok ⟨some .warm, some (2 ^ 64 - 1)⟩ ∧ forever.shard = "feeds" ∧
    justRead.drops .sample 1000 "feeds" ∧ ¬ justRead.Waited 1000 "feeds" := by
  have known : justRead.shards.get "feeds" = some ⟨∅, true, 1000⟩ := rfl
  have allowed : justRead.tiers.idleAllowance "feeds" = some (2 ^ 64 - 1) := by decide
  refine ⟨by decide, by decide, drops_iff.mpr ⟨rfl, _, known, by decide, fun _ => rfl⟩, ?_⟩
  rintro ⟨-, -, meta_, window, found, given, past⟩
  obtain rfl := Option.some.inj (found.symm.trans known)
  obtain rfl := Option.some.inj (given.symm.trans allowed)
  simp only at past
  omega

end Database

end SightingDB
