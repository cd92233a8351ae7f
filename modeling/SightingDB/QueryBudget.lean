import SightingDB.Lib.OrderedMap
import SightingDB.Lib.Epochs
import Mathlib.Logic.Function.Basic

/-!
The budget of the DNS service: so many queries for each source and second, counted in shards with
a lock each. A call reads the clock before it takes the lock, so that one that read an earlier
second can come to its shard after one that read a later.
-/
namespace SightingDB
namespace Dns

/-- `SHARDS`. -/
def shardCount : Nat := 16

/-- `u32` counts up to this. -/
def u32Size : Nat := 2 ^ 32

variable {α : Type} [LinearOrder α]

structure Shard (α : Type) [LinearOrder α] where
  window : Nat
  counts : OrderedMap α UInt32

/-- A fixed one-second window per source address. The hash of a source is left open. -/
structure RateLimiter (α : Type) [LinearOrder α] where
  limit : UInt32
  shards : Fin shardCount → Shard α
  hasher : α → Nat

/-- A source that asks, and the second it read. -/
structure Call (α : Type) where
  source : α
  window : Nat
  deriving DecidableEq

namespace RateLimiter

def new (limit : UInt32) (hasher : α → Nat) : RateLimiter α := ⟨limit, fun _ => ⟨0, ∅⟩, hasher⟩

def shardOf (hasher : α → Nat) (source : α) : Fin shardCount := ⟨hasher source % shardCount, Nat.mod_lt _ (by decide)⟩

/-- The second since the start, from a clock in nanoseconds. -/
def readWindow (elapsed : Nat) : Nat := elapsed / 1000000000

/-- What a call does under the lock: empty a shard of another second, and count. -/
def update (limiter : RateLimiter α) (call : Call α) : Bool × RateLimiter α :=
  let i := shardOf limiter.hasher call.source
  let shard := limiter.shards i
  let counts := if shard.window ≠ call.window then ∅ else shard.counts
  let count := (counts.get call.source).getD 0 + 1
  (!(limiter.limit < count),
    { limiter with shards := Function.update limiter.shards i ⟨call.window, counts.insert call.source count⟩ })

/-- A call that has read the clock; without a limit there is nothing to count. -/
def finish (limiter : RateLimiter α) (call : Call α) : Bool × RateLimiter α :=
  if limiter.limit = 0 then (true, limiter) else limiter.update call

def allow (limiter : RateLimiter α) (source : α) (elapsed : Nat) : Bool × RateLimiter α :=
  limiter.finish ⟨source, readWindow elapsed⟩

/-- Calls one after the other, each with whether it is allowed. -/
def answers (limiter : RateLimiter α) : List (Call α) → List (Call α × Bool)
  | [] => []
  | call :: rest => (call, (limiter.finish call).1) :: (limiter.finish call).2.answers rest

end RateLimiter

/-! ## Threads -/

/-- A thread reads the clock for a source, or goes on under the lock with what it read. -/
inductive Act (α : Type)
  | read (thread : Nat) (source : α) (elapsed : Nat)
  | update (thread : Nat)

structure Threads (α : Type) [LinearOrder α] where
  limiter : RateLimiter α
  pending : Nat → Option (Call α)

namespace Threads

def step (threads : Threads α) : Act α → Threads α × Option (Call α × Bool)
  | .read thread source elapsed =>
      ({ threads with pending := Function.update threads.pending thread (some ⟨source, RateLimiter.readWindow elapsed⟩) }, none)
  | .update thread =>
      match threads.pending thread with
      | none => (threads, none)
      | some call =>
          let (allowed, limiter) := threads.limiter.finish call
          (⟨limiter, Function.update threads.pending thread none⟩, some (call, allowed))

/-- The calls that are answered, in the order in which they are. -/
def run (threads : Threads α) : List (Act α) → List (Call α × Bool)
  | [] => []
  | act :: rest => (threads.step act).2.toList ++ (threads.step act).1.run rest

end Threads

/-- The calls of a schedule in the order in which they take the lock. -/
def locked (pending : Nat → Option (Call α)) : List (Act α) → List (Call α)
  | [] => []
  | .read thread source elapsed :: rest =>
      locked (Function.update pending thread (some ⟨source, RateLimiter.readWindow elapsed⟩)) rest
  | .update thread :: rest =>
      match pending thread with
      | none => locked pending rest
      | some call => call :: locked (Function.update pending thread none) rest

/-- What the threads do from the start, with no call under way. -/
def outcomes (limit : UInt32) (hasher : α → Nat) (acts : List (Act α)) : List (Call α × Bool) :=
  Threads.run ⟨.new limit hasher, fun _ => none⟩ acts

/-- What the clock says at each reading. -/
def readings (acts : List (Act α)) : List Nat :=
  acts.filterMap fun
    | .read _ _ elapsed => some elapsed
    | .update _ => none

/-- No more than the limit of one source and second. -/
def WithinBudget (limit : UInt32) (outcomes : List (Call α × Bool)) : Prop :=
  ∀ call, outcomes.count (call, true) ≤ limit.toNat

/-- What every source is told is what it would be told alone. -/
def Independent (limit : UInt32) (hasher : α → Nat) (outcomes : List (Call α × Bool)) : Prop :=
  ∀ source, outcomes.filter (fun o => o.1.source = source) =
    (RateLimiter.new limit hasher).answers ((outcomes.map (·.1)).filter fun call => call.source = source)

/-- A source asks no more often in a second than it may; or the calls of that second come to the shard with none of another
second between them, and are fewer than the count can tell apart. -/
def Spared (limit : UInt32) (hasher : α → Nat) (calls : List (Call α)) (call : Call α) : Prop :=
  calls.count call ≤ limit.toNat ∨
    calls.count call < u32Size ∧
      ∀ before between after, calls = before ++ call :: (between ++ call :: after) → ∀ other ∈ between,
        RateLimiter.shardOf hasher other.source = RateLimiter.shardOf hasher call.source → other.window = call.window

/-! ## One source and its shard -/

open RateLimiter in
/-- What reaches the shard of a source, from the source and from others. -/
def hitsOf (hasher : α → Nat) (source : α) (calls : List (Call α)) : List (Epochs.Hit Nat) :=
  calls.filterMap fun call =>
    if call.source = source then some (.mine call.window)
    else if shardOf hasher call.source = shardOf hasher source then some (.other call.window) else none

/-- What a shard has counted of a source. -/
def RateLimiter.cellOf (limiter : RateLimiter α) (source : α) : Epochs.Cell Nat :=
  ⟨(limiter.shards (shardOf limiter.hasher source)).window,
    (((limiter.shards (shardOf limiter.hasher source)).counts.get source).getD 0).toNat⟩

section Source

variable {limiter : RateLimiter α} {hasher : α → Nat} {limit : UInt32} {source : α} {call : Call α} {calls rest : List (Call α)}

theorem hitsOf_mine (mine : call.source = source) (rest : List (Call α)) :
    hitsOf hasher source (call :: rest) = .mine call.window :: hitsOf hasher source rest :=
  List.filterMap_cons_some (if_pos mine)

theorem hitsOf_other (away : call.source ≠ source) (shared : RateLimiter.shardOf hasher call.source = RateLimiter.shardOf hasher source)
    (rest : List (Call α)) : hitsOf hasher source (call :: rest) = .other call.window :: hitsOf hasher source rest :=
  List.filterMap_cons_some ((if_neg away).trans (if_pos shared))

theorem hitsOf_away (apart : RateLimiter.shardOf hasher call.source ≠ RateLimiter.shardOf hasher source)
    (rest : List (Call α)) : hitsOf hasher source (call :: rest) = hitsOf hasher source rest :=
  List.filterMap_cons_none ((if_neg fun same => apart (congrArg _ same)).trans (if_neg apart))

theorem update_limit (limiter : RateLimiter α) (call : Call α) : (limiter.update call).2.limit = limiter.limit := rfl

theorem update_hasher (limiter : RateLimiter α) (call : Call α) : (limiter.update call).2.hasher = limiter.hasher := rfl

theorem finish_of_limit (limited : limiter.limit ≠ 0) (call : Call α) : limiter.finish call = limiter.update call :=
  if_neg limited

theorem toNat_add_one (n : UInt32) : (n + 1).toNat = (n.toNat + 1) % u32Size := by
  rw [UInt32.toNat_add]
  rfl

/-- What a call finds counted of its source: nothing, in a shard of another second. -/
theorem cellOf_at (limiter : RateLimiter α) (source : α) (window : Nat) :
    (limiter.cellOf source).at window = (((if (limiter.shards (RateLimiter.shardOf limiter.hasher source)).window ≠ window then ∅
      else (limiter.shards (RateLimiter.shardOf limiter.hasher source)).counts).get source).getD 0).toNat := by
  unfold Epochs.Cell.at RateLimiter.cellOf
  dsimp only
  by_cases same : (limiter.shards (RateLimiter.shardOf limiter.hasher source)).window = window
  · rw [if_pos same, if_neg (not_not.mpr same)]
  · rw [if_neg same, if_pos same]
    rfl

/-- A call counts its own source. -/
theorem cellOf_update_self (limiter : RateLimiter α) (call : Call α) :
    (limiter.update call).2.cellOf call.source = (limiter.cellOf call.source).hit u32Size (.mine call.window) := by
  unfold Epochs.Cell.hit
  dsimp only
  rw [cellOf_at, ← toNat_add_one]
  unfold RateLimiter.cellOf RateLimiter.update
  dsimp only
  rw [Function.update_self, OrderedMap.get_insert_self]
  rfl

/-- A call of another source in the same shard may empty it. -/
theorem cellOf_update_other (away : call.source ≠ source)
    (shared : RateLimiter.shardOf limiter.hasher call.source = RateLimiter.shardOf limiter.hasher source) :
    (limiter.update call).2.cellOf source = (limiter.cellOf source).hit u32Size (.other call.window) := by
  unfold Epochs.Cell.hit
  dsimp only
  rw [cellOf_at]
  unfold RateLimiter.cellOf RateLimiter.update
  dsimp only
  rw [shared, Function.update_self, OrderedMap.get_insert_of_ne _ _ (Ne.symm away)]

theorem cellOf_update_away
    (apart : RateLimiter.shardOf limiter.hasher call.source ≠ RateLimiter.shardOf limiter.hasher source) :
    (limiter.update call).2.cellOf source = limiter.cellOf source := by
  unfold RateLimiter.cellOf RateLimiter.update
  dsimp only
  rw [Function.update_of_ne (Ne.symm apart)]

/-- A call is allowed if its source is still within the limit. -/
theorem update_allowed (limiter : RateLimiter α) (call : Call α) : (limiter.update call).1 =
    decide (((limiter.cellOf call.source).at call.window + 1) % u32Size ≤ limiter.limit.toNat) := by
  rw [cellOf_at, ← toNat_add_one]
  unfold RateLimiter.update
  dsimp only
  rw [← decide_not, decide_eq_decide, UInt32.lt_iff_toNat_lt, Nat.not_lt]

/-- What a source is told is what its hits and those of its shard make of its cell. -/
theorem answers_source (limited : limiter.limit ≠ 0) (source : α) (calls : List (Call α)) :
    ((limiter.answers calls).filter fun o => o.1.source = source).map (fun o => (o.1.window, o.2)) =
      Epochs.verdicts u32Size limiter.limit.toNat (limiter.cellOf source) (hitsOf limiter.hasher source calls) := by
  induction calls generalizing limiter with
  | nil => rfl
  | cons call rest ih =>
      have next : (limiter.update call).2.limit ≠ 0 := limited
      have later := ih next
      rw [update_limit, update_hasher] at later
      rw [RateLimiter.answers, finish_of_limit limited]
      by_cases mine : call.source = source
      · subst mine
        rw [hitsOf_mine rfl, List.filter_cons, if_pos (decide_eq_true rfl), List.map_cons, Epochs.verdicts, later,
          cellOf_update_self, update_allowed]
      · rw [List.filter_cons_of_neg (by simpa using mine)]
        by_cases shared : RateLimiter.shardOf limiter.hasher call.source = RateLimiter.shardOf limiter.hasher source
        · rw [hitsOf_other mine shared, Epochs.verdicts, later, cellOf_update_other mine shared]
        · rw [hitsOf_away shared, later, cellOf_update_away shared]

/-! ## Hits and calls -/

/-- A source's own hits are those of its calls alone. -/
theorem hitsOf_filter (hasher : α → Nat) (source : α) (calls : List (Call α)) :
    (hitsOf hasher source calls).filter Epochs.Hit.isMine = hitsOf hasher source (calls.filter fun call => call.source = source) := by
  induction calls with
  | nil => rfl
  | cons call rest ih =>
      by_cases mine : call.source = source
      · have kept : (call :: rest).filter (fun call => call.source = source) =
            call :: rest.filter fun call => call.source = source := List.filter_cons_of_pos (decide_eq_true mine)
        rw [hitsOf_mine mine, kept, hitsOf_mine mine, ← ih]
        rfl
      · rw [List.filter_cons_of_neg (by simpa using mine), ← ih]
        by_cases shared : RateLimiter.shardOf hasher call.source = RateLimiter.shardOf hasher source
        · rw [hitsOf_other mine shared]
          rfl
        · rw [hitsOf_away shared]

theorem count_hitsOf (hasher : α → Nat) (call : Call α) (calls : List (Call α)) :
    (hitsOf hasher call.source calls).count (.mine call.window) = calls.count call := by
  induction calls with
  | nil => rfl
  | cons other rest ih =>
      by_cases mine : other.source = call.source
      · rw [hitsOf_mine mine]
        by_cases same : other.window = call.window
        · have equal : other = call := by
            cases other
            cases call
            exact congrArg₂ Call.mk mine same
          rw [same, equal, List.count_cons_self, List.count_cons_self, ih]
        · have away : (Epochs.Hit.mine other.window).epoch ≠ call.window := same
          rw [Epochs.count_of_ne away, List.count_cons_of_ne fun equal => same (congrArg Call.window equal), ih]
      · rw [List.count_cons_of_ne fun equal => mine (congrArg Call.source equal), ← ih]
        by_cases shared : RateLimiter.shardOf hasher other.source = RateLimiter.shardOf hasher call.source
        · rw [hitsOf_other mine shared, Epochs.count_other]
        · rw [hitsOf_away shared]

/-- A call stands in a schedule where its hit stands among the hits. -/
theorem hitsOf_eq_append_mine {window : Nat} {before after : List (Epochs.Hit Nat)} :
    hitsOf hasher source calls = before ++ .mine window :: after ↔ ∃ front back,
      calls = front ++ ⟨source, window⟩ :: back ∧ hitsOf hasher source front = before ∧ hitsOf hasher source back = after := by
  constructor
  · intro split
    obtain ⟨front, tail, rfl, ahead, later⟩ := List.filterMap_eq_append_iff.mp split
    obtain ⟨skipped, call, back, rfl, none_, here, behind⟩ := List.filterMap_eq_cons_iff.mp later
    have equal : call = ⟨source, window⟩ := by
      by_cases mine : call.source = source
      · rw [if_pos mine, Option.some.injEq, Epochs.Hit.mine.injEq] at here
        cases call
        exact congrArg₂ Call.mk mine here
      · rw [if_neg mine] at here
        split at here <;> cases here
    subst equal
    refine ⟨front ++ skipped, back, (List.append_assoc _ _ _).symm, ?_, behind⟩
    have silent : hitsOf hasher source skipped = [] := List.filterMap_eq_nil_iff.mpr none_
    rw [← ahead, ← List.append_nil (List.filterMap _ front), ← silent]
    exact List.filterMap_append
  · rintro ⟨front, back, rfl, rfl, rfl⟩
    unfold hitsOf
    rw [List.filterMap_append]
    exact congrArg (_ ++ ·) (hitsOf_mine rfl back)

theorem mem_hitsOf {hit : Epochs.Hit Nat} (member : hit ∈ hitsOf hasher source calls) : ∃ call ∈ calls,
    RateLimiter.shardOf hasher call.source = RateLimiter.shardOf hasher source ∧ hit.epoch = call.window := by
  obtain ⟨call, listed, here⟩ := List.mem_filterMap.mp member
  refine ⟨call, listed, ?_⟩
  split at here
  · rename_i mine
    cases here
    exact ⟨congrArg _ mine, rfl⟩
  · split at here
    · rename_i shared
      cases here
      exact ⟨shared, rfl⟩
    · cases here

theorem exists_hit (listed : call ∈ calls)
    (shared : RateLimiter.shardOf hasher call.source = RateLimiter.shardOf hasher source) :
    ∃ hit ∈ hitsOf hasher source calls, hit.epoch = call.window := by
  by_cases mine : call.source = source
  · exact ⟨.mine call.window, List.mem_filterMap.mpr ⟨call, listed, if_pos mine⟩, rfl⟩
  · exact ⟨.other call.window, List.mem_filterMap.mpr ⟨call, listed, (if_neg mine).trans (if_pos shared)⟩, rfl⟩

/-- What a shard's hits keep of a second is what the calls are spared. -/
theorem kept_iff_spared (call : Call α) (calls : List (Call α)) :
    Epochs.Kept u32Size limit.toNat call.window (hitsOf hasher call.source calls) ↔ Spared limit hasher calls call := by
  unfold Epochs.Kept Spared
  rw [count_hitsOf]
  refine or_congr_right (and_congr_right fun _ => ?_)
  constructor
  · intro together before between after split other listed shared
    have later : hitsOf hasher call.source (between ++ call :: after) = _ :=
      hitsOf_eq_append_mine.mpr ⟨between, after, rfl, rfl, rfl⟩
    obtain ⟨hit, member, window⟩ := exists_hit listed shared
    rw [← window]
    exact together _ _ _ (hitsOf_eq_append_mine.mpr ⟨before, _, split, rfl, later⟩) hit member
  · intro spared before between after split hit member
    obtain ⟨front, tail, whole, rfl, later⟩ := hitsOf_eq_append_mine.mp split
    obtain ⟨middle, back, rest, rfl, _⟩ := hitsOf_eq_append_mine.mp later
    obtain ⟨other, listed, shared, window⟩ := mem_hitsOf member
    rw [window]
    exact spared front middle back (whole.trans (by rw [rest])) other listed shared

end Source

/-! ## Any schedule -/

variable {limit : UInt32} {hasher : α → Nat} {acts : List (Act α)}

/-- The threads answer as if the calls came one after the other, in the order in which they take the lock. -/
theorem run_eq (threads : Threads α) (acts : List (Act α)) :
    threads.run acts = threads.limiter.answers (locked threads.pending acts) := by
  induction acts generalizing threads with
  | nil => rfl
  | cons act rest ih =>
      rw [Threads.run, ih]
      cases act with
      | read thread source elapsed => rfl
      | update thread =>
          cases pending : threads.pending thread with
          | none =>
              simp only [Threads.step, locked, pending]
              rfl
          | some call =>
              simp only [Threads.step, locked, pending]
              rfl

theorem answers_calls (limiter : RateLimiter α) (calls : List (Call α)) : (limiter.answers calls).map (·.1) = calls := by
  induction calls generalizing limiter with
  | nil => rfl
  | cons call rest ih => exact congrArg (call :: ·) (ih _)

/-- A source's allowed calls of a second, among its own. -/
theorem count_source (outcomes : List (Call α × Bool)) (call : Call α) : outcomes.count (call, true) =
    Epochs.granted call.window ((outcomes.filter fun o => o.1.source = call.source).map fun o => (o.1.window, o.2)) := by
  unfold Epochs.granted
  induction outcomes with
  | nil => rfl
  | cons outcome rest ih =>
      rw [List.filter_cons, List.count_cons, ih]
      by_cases mine : outcome.1.source = call.source
      · have same : (outcome == (call, true)) = ((outcome.1.window, outcome.2) == (call.window, true)) := by
          obtain ⟨⟨source, window⟩, allowed⟩ := outcome
          obtain rfl : source = call.source := mine
          rw [Bool.eq_iff_iff, beq_iff_eq, beq_iff_eq, Prod.mk.injEq, Prod.mk.injEq]
          exact and_congr_left fun _ => ⟨congrArg Call.window, congrArg (Call.mk call.source)⟩
        rw [if_pos (decide_eq_true mine), List.map_cons, List.count_cons, same]
      · have apart : (outcome == (call, true)) = false := by
          apply beq_false_of_ne
          intro equal
          exact mine (congrArg (fun o => o.1.source) equal)
        have skipped : ¬decide (outcome.1.source = call.source) = true := by simpa using mine
        rw [apart, if_neg skipped, if_neg Bool.false_ne_true, Nat.add_zero]

/-- Calls of one source with the same seconds and the same answers are the same. -/
theorem eq_of_source {β : Type} {source : β} {os os' : List (Call β × Bool)} (mine : ∀ o ∈ os, o.1.source = source)
    (mine' : ∀ o ∈ os', o.1.source = source)
    (same : os.map (fun o => (o.1.window, o.2)) = os'.map fun o => (o.1.window, o.2)) : os = os' := by
  have back : ∀ os : List (Call β × Bool), (∀ o ∈ os, o.1.source = source) →
      (os.map fun o => (o.1.window, o.2)).map (fun o => ((⟨source, o.1⟩ : Call β), o.2)) = os := by
    intro os mine
    rw [List.map_map]
    refine (List.map_congr_left fun o member => ?_).trans (List.map_id os)
    obtain ⟨⟨source', window⟩, allowed⟩ := o
    obtain rfl : source' = source := mine _ member
    rfl
  rw [← back os mine, ← back os' mine', same]

theorem cellOf_new (limit : UInt32) (hasher : α → Nat) (source : α) (window : Nat) :
    ((RateLimiter.new limit hasher).cellOf source).at window = 0 := by
  unfold Epochs.Cell.at
  split <;> rfl

/-- For one source: within the budget in every second, and as if alone. -/
theorem source_iff (some_ : limit ≠ 0) (calls : List (Call α)) (source : α) :
    ((∀ window, ((RateLimiter.new limit hasher).answers calls).count (⟨source, window⟩, true) ≤ limit.toNat) ∧
      ((RateLimiter.new limit hasher).answers calls).filter (fun o => o.1.source = source) =
        (RateLimiter.new limit hasher).answers (calls.filter fun call => call.source = source)) ↔
          ∀ window, Spared limit hasher calls ⟨source, window⟩ := by
  have positive : 0 < limit.toNat := Nat.pos_of_ne_zero fun zero => some_ (UInt32.toNat_inj.mp zero)
  have fits : limit.toNat < u32Size := UInt32.toNat_lt limit
  have limited : (RateLimiter.new limit hasher).limit ≠ 0 := some_
  have whole := answers_source limited source calls
  have alone := answers_source limited source (calls.filter fun call => call.source = source)
  have own : ∀ o ∈ (RateLimiter.new limit hasher).answers (calls.filter fun call => call.source = source),
      o.1.source = source := by
    intro o member
    have listed := List.mem_map_of_mem (f := (·.1)) member
    rw [answers_calls] at listed
    exact of_decide_eq_true (List.mem_filter.mp listed).2
  have kept : ∀ window, Epochs.Kept u32Size limit.toNat window (hitsOf hasher source calls) ↔
      Spared limit hasher calls ⟨source, window⟩ := fun window => kept_iff_spared ⟨source, window⟩ calls
  rw [List.filter_eq_self.mpr fun o member => decide_eq_true (own o member), ← hitsOf_filter] at alone
  rw [← forall_congr' kept, ← Epochs.kept_iff fits positive (cellOf_new limit hasher source)]
  refine and_congr (forall_congr' fun window => ?_) ?_
  · rw [count_source, whole]
    rfl
  · constructor
    · intro same
      rw [← same, whole] at alone
      exact alone
    · intro same
      apply eq_of_source (fun o member => of_decide_eq_true (List.mem_filter.mp member).2) own
      rw [whole, alone]
      exact same

/-- In any schedule of any number of threads, whatever the clock says and whatever shards the sources fall in: no source is
allowed more than the limit in a second, and what it is told does not depend on others, exactly if every source and second is
spared. -/
theorem budget_iff (some_ : limit ≠ 0) (hasher : α → Nat) (acts : List (Act α)) :
    (WithinBudget limit (outcomes limit hasher acts) ∧ Independent limit hasher (outcomes limit hasher acts)) ↔
      ∀ call, Spared limit hasher (locked (fun _ => none) acts) call := by
  unfold outcomes WithinBudget Independent
  rw [run_eq]
  dsimp only
  rw [answers_calls]
  have each := fun source => @source_iff _ _ limit hasher some_ (locked (fun _ => none) acts) source
  constructor
  · rintro ⟨within, alone⟩ ⟨source, window⟩
    exact (each source).mp ⟨fun window => within ⟨source, window⟩, alone source⟩ window
  · intro spared
    exact ⟨fun ⟨source, window⟩ => ((each source).mpr fun window => spared ⟨source, window⟩).1 window,
      fun source => ((each source).mpr fun window => spared ⟨source, window⟩).2⟩

/-- A limit of one. The first source reads the second that is ending and comes to the shard after the other has been counted
in the next; the shard is emptied, and emptied again when the other asks once more, which is allowed a second time. -/
def staleCall : List (Act Nat) :=
  [.read 0 0 900000000, .read 1 1 1000000000, .update 1, .update 0, .read 1 1 1100000000, .update 1]

theorem budget_broken : (readings staleCall).Pairwise (· ≤ ·) ∧ ¬WithinBudget 1 (outcomes 1 (fun _ => 0) staleCall) ∧
    ¬Independent 1 (fun _ => 0) (outcomes 1 (fun _ => 0) staleCall) := by
  refine ⟨by decide, ?_, ?_⟩
  · intro within
    exact absurd (within ⟨1, 1⟩) (by decide)
  · intro alone
    exact absurd (alone 1) (by decide)

/-- Two sources at one shard: the first asks twice in a second and is refused, and the second asks
again in the next. -/
def sharedShard : List (Act Nat) :=
  [.read 0 0 5, .update 0, .read 1 1 6, .update 1, .read 0 0 7, .update 0, .read 1 1 1000000000, .update 1]

theorem budget_iff_once :
    outcomes 1 (fun _ => 0) sharedShard = [(⟨0, 0⟩, true), (⟨1, 0⟩, true), (⟨0, 0⟩, false), (⟨1, 1⟩, true)] ∧
      WithinBudget 1 (outcomes 1 (fun _ => 0) sharedShard) ∧ Independent 1 (fun _ => 0) (outcomes 1 (fun _ => 0) sharedShard) := by
  refine ⟨by decide, (budget_iff (by decide) (fun _ => 0) sharedShard).mpr fun call => ?_⟩
  have calls : locked (fun _ => none) sharedShard = [⟨0, 0⟩, ⟨1, 0⟩, ⟨0, 0⟩, ⟨1, 1⟩] := by decide
  rw [calls]
  by_cases again : call = ⟨0, 0⟩
  · subst again
    refine .inr ⟨by decide, fun before between after split other listed _ => ?_⟩
    by_contra late
    have here : other ∈ [⟨0, 0⟩, ⟨1, 0⟩, ⟨0, 0⟩, (⟨1, 1⟩ : Call Nat)] := by
      rw [split]
      simp [listed]
    have same : other = ⟨1, 1⟩ := by
      simp only [List.mem_cons, List.not_mem_nil, or_false] at here
      rcases here with rfl | rfl | rfl | rfl
      · exact absurd rfl late
      · exact absurd rfl late
      · exact absurd rfl late
      · rfl
    -- The call of the next second is the last there is, so it is not between two of this one.
    have last : (⟨1, 1⟩ : Call Nat) ∈ after := by
      have shape : before ++ ⟨0, 0⟩ :: (between ++ ⟨0, 0⟩ :: after) = (before ++ ⟨0, 0⟩ :: between) ++ ⟨0, 0⟩ :: after := by simp
      have ends : ((⟨0, 0⟩ : Call Nat) :: after).getLast? = some ⟨1, 1⟩ := by
        rw [← List.getLast?_append_cons (before ++ ⟨0, 0⟩ :: between), ← shape, ← split]
        rfl
      simpa using List.mem_of_getLast? ends
    have twice := congrArg (List.count ⟨1, 1⟩) split
    have one := List.count_pos_iff.mpr (same ▸ listed)
    have two := List.count_pos_iff.mpr last
    simp only [List.count_append, List.count_cons] at twice
    simp at twice
    omega
  · left
    by_cases next : call = ⟨1, 0⟩
    · subst next
      decide
    · have rest : [⟨0, 0⟩, ⟨1, 0⟩, ⟨0, 0⟩, (⟨1, 1⟩ : Call Nat)].count call = [(⟨1, 1⟩ : Call Nat)].count call := by
        simp [List.count_cons, Ne.symm again, Ne.symm next]
      rw [rest]
      exact List.count_le_length.trans (by decide)

end Dns

end SightingDB
