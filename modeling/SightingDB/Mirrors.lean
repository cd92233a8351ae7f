import SightingDB.Replicas

/-!
A router in front of the mirrors of a namespace. It stores nothing of what it forwards:
every mirror a write reaches counts it under the router's own id, and the mirrors settle
among themselves by taking the greater count. A write is acknowledged as soon as one
mirror took it.

Taking the greater count forgets a write that only reached mirrors which are behind: they
count up to a number that is already held elsewhere for other writes.
-/
namespace SightingDB
namespace Mirrors

variable {ι : Type}

inductive Event (ι : Type)
  | forward (reached : Finset ι) (when : DateTime) (ttl : Option Nat) (retention : Nat) (tags : String)
  | take (i : ι)
  | deliver (j : ι) (k : Nat)
  deriving DecidableEq

namespace Event

/-- The router answers with an error when no mirror took the write. -/
def acknowledged : Event ι → Bool
  | .forward reached _ _ _ _ => reached.Nonempty
  | _ => false

def isExchange : Event ι → Bool
  | .forward .. => false
  | .take _ => true
  | .deliver .. => true

end Event

/-- The writes the router acknowledged. -/
def writes (events : List (Event ι)) : Nat := events.countP Event.acknowledged

theorem writes_cons (e : Event ι) (rest : List (Event ι)) :
    writes (e :: rest) = writes [e] + writes rest := by
  simp [writes, List.countP_cons, Nat.add_comm]

theorem writes_exchange {after : List (Event ι)} (exchange : ∀ e ∈ after, e.isExchange = true) :
    writes after = 0 := by
  refine List.countP_eq_zero.mpr fun e member => ?_
  have moves := exchange e member
  cases e <;> simp [Event.isExchange, Event.acknowledged] at moves ⊢

theorem nonempty_of_writes {events : List (Event ι)} (some : 0 < writes events) : Nonempty ι := by
  obtain ⟨e, _, acknowledged⟩ := List.countP_pos_iff.mp some
  cases e with
  | forward reached when ttl retention tags =>
      obtain ⟨i, _⟩ : reached.Nonempty := by simpa [Event.acknowledged] using acknowledged
      exact ⟨i⟩
  | take i => exact ⟨i⟩
  | deliver j k => exact ⟨j⟩

variable (ids : ι → String) (origin value : String)

/-- What a mirror counts for the router. -/
def counted (s : Replicas ι) (i : ι) : Nat := ((s.replica i).bind (·.counts.get origin)).getD 0

/-- What a copy says about the router. -/
def told (p : Merge) : Nat := (p.counts.get origin).getD 0

/-- Nobody counts more than `n`, and no copy says more. -/
structure Below (s : Replicas ι) (n : Nat) : Prop where
  mirrors : ∀ i, counted origin s i ≤ n
  copies : ∀ e ∈ s.sent, told origin e.2 ≤ n

variable {origin value}

theorem counted_cell (value : String) (s : Replicas ι) (i : ι) :
    ((s.cell value i).counts.get origin).getD 0 = counted origin s i := by
  cases held : s.replica i <;> simp [Replicas.cell, counted, held, Attribute.new]

theorem below_start : Below origin (Replicas.start : Replicas ι) 0 where
  mirrors _ := le_rfl
  copies _ member := by simp [Replicas.start] at member

theorem told_asMerge {s : Replicas ι} {i : ι} {a : Attribute} (held : s.replica i = some a) :
    told origin a.asMerge = counted origin s i := by
  simp only [told, counted, held, Option.bind_some, Attribute.asMerge]

variable (origin value) [DecidableEq ι]

def step (s : Replicas ι) : Event ι → Option (Replicas ι)
  | .forward reached when ttl retention tags => some { s with
      replica := fun i =>
        if i ∈ reached then some ((s.cell value i).sighted origin when ttl retention tags)
        else s.replica i }
  | .take i => Replicas.step ids value s (.take i)
  | .deliver j k => Replicas.step ids value s (.deliver j k)

def run (s : Replicas ι) : List (Event ι) → Option (Replicas ι)
  | [] => some s
  | e :: rest => (step ids origin value s e).bind fun s' => run s' rest

/-- Every mirror that held the value at `s` has since taken a copy and had it delivered to
every other mirror. -/
def Exchanged (s t : Replicas ι) (after : List (Event ι)) : Prop :=
  ∀ i j, (s.replica i).isSome → i ≠ j →
    ∃ k p, s.sent.length ≤ k ∧ t.sent[k]? = some (i, p) ∧ .deliver j k ∈ after

variable {ids origin value} {s t : Replicas ι}

/-! ## One step -/

/-- Exactly the mirrors that were reached count one more, in `u64`. -/
theorem counted_forward {reached : Finset ι} {when : DateTime} {ttl : Option Nat} {retention : Nat}
    {tags : String} (stepped : step ids origin value s (.forward reached when ttl retention tags) = some t)
    (i : ι) : counted origin t i =
      if i ∈ reached then (counted origin s i + 1) % u64Size else counted origin s i := by
  obtain rfl := Option.some.inj stepped
  by_cases hit : i ∈ reached
  · rw [if_pos hit, ← counted_cell value s i]
    simp only [counted, if_pos hit, Option.bind_some]
    rw [Attribute.sighted_eq, Attribute.increment_counts, Attribute.addTo, OrderedMap.get_insert_self,
      Option.getD_some]
  · rw [if_neg hit]
    simp only [counted, if_neg hit]

theorem step_take {i : ι} (stepped : step ids origin value s (.take i) = some t) :
    ∃ a, s.replica i = some a ∧ t = { s with sent := s.sent ++ [(i, a.asMerge)] } := by
  obtain ⟨a, held, rfl⟩ := Option.map_eq_some_iff.mp stepped
  exact ⟨a, held, rfl⟩

theorem step_deliver {j : ι} {k : Nat} (stepped : step ids origin value s (.deliver j k) = some t) :
    ∃ i p, s.sent[k]? = some (i, p) ∧ t = s.put j ((s.cell value j).merge p (ids j)).1 := by
  simp only [step, Replicas.step] at stepped
  split at stepped
  · cases stepped
  · rename_i i p found
    split_ifs at stepped with own
    exact ⟨i, p, found, (Option.some.inj stepped).symm⟩

/-- The receiver takes the greater count, unless it goes by the router's id itself. -/
theorem counted_deliver (s : Replicas ι) (j : ι) (p : Merge) (i : ι) :
    counted origin (s.put j ((s.cell value j).merge p (ids j)).1) i =
      if i = j ∧ ids j ≠ origin then max (counted origin s j) (told origin p)
      else counted origin s i := by
  by_cases same : i = j
  · subst same
    have before : ((s.cell value i).counts.get origin).getD 0 = counted origin s i :=
      counted_cell value s i
    simp only [counted, Replicas.put_replica, if_true, Option.bind_some, Attribute.merge_counts]
    by_cases own : ids i = origin
    · rw [if_neg (by simp [own]), ← own, OrderedMap.get_sup_erase_self]
      rw [← own] at before
      exact before
    · rw [if_pos ⟨trivial, own⟩, OrderedMap.get_sup, OrderedMap.get_erase, if_neg (Ne.symm own)]
      change _ = max (counted origin s i) _
      rw [← before, told]
      cases (s.cell value i).counts.get origin <;> cases p.counts.get origin <;> simp
  · rw [if_neg (by simp [same])]
    simp only [counted, Replicas.put_replica, if_neg same]

theorem Below.exchange {n : Nat} {e : Event ι} (below : Below origin s n)
    (moves : e.isExchange = true) (stepped : step ids origin value s e = some t) :
    Below origin t n := by
  cases e with
  | forward reached when ttl retention tags => simp [Event.isExchange] at moves
  | take i =>
      obtain ⟨a, held, rfl⟩ := step_take stepped
      constructor
      · exact below.mirrors
      · intro e member
        rcases List.mem_append.mp member with old | new
        · exact below.copies e old
        · obtain rfl := List.mem_singleton.mp new
          rw [told_asMerge held]
          exact below.mirrors i
  | deliver j k =>
      obtain ⟨i, p, found, rfl⟩ := step_deliver stepped
      have bound : told origin p ≤ n := below.copies (i, p) (List.mem_of_getElem? found)
      constructor
      · intro i'
        rw [counted_deliver]
        split_ifs
        · exact max_le (below.mirrors j) bound
        · exact below.mirrors i'
      · exact below.copies

theorem Below.forward {n n' : Nat} {reached : Finset ι} {when : DateTime} {ttl : Option Nat}
    {retention : Nat} {tags : String} (below : Below origin s n) (wider : n ≤ n')
    (raised : ∀ i ∈ reached, (counted origin s i + 1) % u64Size ≤ n')
    (stepped : step ids origin value s (.forward reached when ttl retention tags) = some t) :
    Below origin t n' := by
  have count := counted_forward stepped
  obtain rfl := Option.some.inj stepped
  constructor
  · intro i
    rw [count]
    split_ifs with hit
    · exact raised i hit
    · exact (below.mirrors i).trans wider
  · intro e member
    exact (below.copies e member).trans wider

/-- One step raises the bound by the write it acknowledges, if any. -/
theorem Below.step {n : Nat} {e : Event ι} (below : Below origin s n)
    (stepped : step ids origin value s e = some t) : Below origin t (n + writes [e]) := by
  cases e with
  | forward reached when ttl retention tags =>
      refine below.forward (Nat.le_add_right n _) ?_ stepped
      intro i hit
      have acknowledged : reached.Nonempty := ⟨i, hit⟩
      have counts : writes [Event.forward reached when ttl retention tags] = 1 := by
        simp [writes, Event.acknowledged, acknowledged]
      have bound := below.mirrors i
      have := Nat.mod_le (counted origin s i + 1) u64Size
      omega
  | take i => exact below.exchange rfl stepped
  | deliver j k => exact below.exchange rfl stepped

/-- Counts are `u64` however many writes there were. -/
theorem Below.fits {e : Event ι} (below : Below origin s (u64Size - 1))
    (stepped : Mirrors.step ids origin value s e = some t) : Below origin t (u64Size - 1) := by
  cases e with
  | forward reached when ttl retention tags =>
      refine below.forward le_rfl ?_ stepped
      intro i _
      exact Nat.le_sub_one_of_lt (Nat.mod_lt _ (by decide))
  | take i => exact below.exchange rfl stepped
  | deliver j k => exact below.exchange rfl stepped

theorem Below.run {n : Nat} {events : List (Event ι)} (below : Below origin s n)
    (ran : run ids origin value s events = some t) : Below origin t (n + writes events) := by
  induction events generalizing s n with
  | nil =>
      obtain rfl := Option.some.inj ran
      exact below
  | cons e rest ih =>
      obtain ⟨m, stepped, ranRest⟩ := Option.bind_eq_some_iff.mp ran
      rw [writes_cons, ← Nat.add_assoc]
      exact ih (below.step stepped) ranRest

theorem Below.run_fits {events : List (Event ι)} (below : Below origin s (u64Size - 1))
    (ran : Mirrors.run ids origin value s events = some t) : Below origin t (u64Size - 1) := by
  induction events generalizing s with
  | nil =>
      obtain rfl := Option.some.inj ran
      exact below
  | cons e rest ih =>
      obtain ⟨m, stepped, ranRest⟩ := Option.bind_eq_some_iff.mp ran
      exact ih (below.fits stepped) ranRest

/-- A mirror that goes by the router's id learns of its writes from the router alone. -/
theorem counted_namesake {e : Event ι} {i : ι} (own : ids i = origin)
    (stepped : step ids origin value s e = some t) :
    counted origin t i ≤ counted origin s i + writes [e] := by
  cases e with
  | forward reached when ttl retention tags =>
      rw [counted_forward stepped]
      split_ifs with hit
      · have acknowledged : reached.Nonempty := ⟨i, hit⟩
        have := Nat.mod_le (counted origin s i + 1) u64Size
        simpa [writes, Event.acknowledged, acknowledged] using this
      · omega
  | take j =>
      obtain ⟨a, held, rfl⟩ := step_take stepped
      exact Nat.le_add_right _ _
  | deliver j k =>
      obtain ⟨j', p, found, rfl⟩ := step_deliver stepped
      rw [counted_deliver, if_neg]
      · exact Nat.le_add_right _ _
      · rintro ⟨rfl, other⟩
        exact other own

theorem run_counted_namesake {events : List (Event ι)} {i : ι} (own : ids i = origin)
    (ran : run ids origin value s events = some t) :
    counted origin t i ≤ counted origin s i + writes events := by
  induction events generalizing s with
  | nil =>
      obtain rfl := Option.some.inj ran
      exact Nat.le_add_right _ _
  | cons e rest ih =>
      obtain ⟨m, stepped, ranRest⟩ := Option.bind_eq_some_iff.mp ran
      have first := counted_namesake own stepped
      have later := ih ranRest
      rw [writes_cons]
      omega

theorem run_append {before after : List (Event ι)} :
    run ids origin value s (before ++ after) =
      (run ids origin value s before).bind fun m => run ids origin value m after := by
  induction before generalizing s with
  | nil => rfl
  | cons e rest ih =>
      simp only [List.cons_append, run, Option.bind_assoc]
      congr
      funext m
      exact ih

/-! ## Exchange as gossip -/

/-- What every mirror counts for the router, and what the copies say. -/
def gossip (origin : String) (s : Replicas ι) : Gossip.State ι Nat where
  replica := counted origin s
  sent := s.sent.map fun e => (e.1, told origin e.2)

/-- A delivery to a mirror that goes by the router's id changes nothing here. -/
def Event.action (ids : ι → String) (origin : String) : Event ι → Option (Gossip.Action ι)
  | .take i => some (.take i)
  | .deliver j k => if ids j = origin then none else some (.deliver j k)
  | .forward .. => none

theorem gossip_take {i : ι} {a : Attribute} (held : s.replica i = some a) :
    Gossip.step (gossip origin s) (.take i) =
      some (gossip origin { s with sent := s.sent ++ [(i, a.asMerge)] }) := by
  have same : counted origin { s with sent := s.sent ++ [(i, a.asMerge)] } = counted origin s := rfl
  simp only [Gossip.step, gossip, same, List.map_append, List.map_cons, List.map_nil, told_asMerge held]

theorem gossip_deliver_own {j : ι} (own : ids j = origin) (p : Merge) :
    gossip origin (s.put j ((s.cell value j).merge p (ids j)).1) = gossip origin s := by
  have same : counted origin (s.put j ((s.cell value j).merge p (ids j)).1) = counted origin s := by
    funext i
    rw [counted_deliver, if_neg (by simp [own])]
  simp only [gossip, same, Replicas.put_sent]

theorem gossip_deliver {i j : ι} {k : Nat} {p : Merge} (other : ids j ≠ origin)
    (found : s.sent[k]? = some (i, p)) :
    Gossip.step (gossip origin s) (.deliver j k) =
      some (gossip origin (s.put j ((s.cell value j).merge p (ids j)).1)) := by
  have raised : counted origin (s.put j ((s.cell value j).merge p (ids j)).1) =
      Function.update (counted origin s) j (counted origin s j ⊔ told origin p) := by
    funext i
    rw [counted_deliver, Function.update_apply]
    by_cases same : i = j <;> simp [same, other]
  simp only [Gossip.step, gossip, List.getElem?_map, found, Option.map_some, raised, Replicas.put_sent]

theorem gossip_run {after : List (Event ι)} (exchange : ∀ e ∈ after, e.isExchange = true)
    (ran : run ids origin value s after = some t) :
    Gossip.run (gossip origin s) (after.filterMap (Event.action ids origin)) = some (gossip origin t) := by
  induction after generalizing s with
  | nil =>
      obtain rfl := Option.some.inj ran
      rfl
  | cons e rest ih =>
      obtain ⟨m, stepped, ranRest⟩ := Option.bind_eq_some_iff.mp ran
      have later := ih (fun e' member => exchange e' (List.mem_cons_of_mem _ member)) ranRest
      cases e with
      | forward reached when ttl retention tags =>
          exact absurd (exchange _ List.mem_cons_self) (by simp [Event.isExchange])
      | take i =>
          obtain ⟨a, held, rfl⟩ := step_take stepped
          rw [List.filterMap_cons_some (by rfl), Gossip.run, gossip_take held, Option.bind_some, later]
      | deliver j k =>
          obtain ⟨i, p, found, rfl⟩ := step_deliver stepped
          by_cases own : ids j = origin
          · rw [List.filterMap_cons_none (by simp [Event.action, own]), ← gossip_deliver_own own p, later]
          · rw [List.filterMap_cons_some (by simp [Event.action, own]; rfl), Gossip.run,
              gossip_deliver own found, Option.bind_some, later]

/-! ## What becomes of the writes -/

/-- A write reaches a mirror that counts every write before it, and every mirror that goes
by the router's id. -/
structure Lands (ids : ι → String) (origin : String) (s : Replicas ι) (n : Nat) (reached : Finset ι) :
    Prop where
  upToDate : ∃ i ∈ reached, counted origin s i = n
  namesakes : ∀ i, ids i = origin → i ∈ reached

/-- Every acknowledged write of a run lands. -/
def AllLand (ids : ι → String) (origin value : String) (before : List (Event ι)) : Prop :=
  ∀ earlier reached when ttl retention tags later m,
    before = earlier ++ .forward reached when ttl retention tags :: later → reached.Nonempty →
      run ids origin value .start earlier = some m → Lands ids origin m (writes earlier) reached

/-- Somebody counts all `n` writes, and so does every mirror the router's own id is taken for. -/
structure Whole (ids : ι → String) (origin : String) (s : Replicas ι) (n : Nat) : Prop where
  somebody : n ≠ 0 → ∃ i, counted origin s i = n
  namesakes : ∀ i, ids i = origin → counted origin s i = n

theorem Whole.step {n : Nat} {e : Event ι} (whole : Whole ids origin s n) (below : Below origin s n)
    (few : n + writes [e] < u64Size)
    (lands : ∀ reached when ttl retention tags, e = .forward reached when ttl retention tags →
      reached.Nonempty → Lands ids origin s n reached)
    (stepped : step ids origin value s e = some t) : Whole ids origin t (n + writes [e]) := by
  cases e with
  | forward reached when ttl retention tags =>
      have count := counted_forward stepped
      by_cases acknowledged : reached.Nonempty
      · have one : writes [Event.forward reached when ttl retention tags] = 1 := by
          simp [writes, Event.acknowledged, acknowledged]
        rw [one] at few ⊢
        obtain ⟨⟨i, hit, latest⟩, namesakes⟩ := lands reached when ttl retention tags rfl acknowledged
        constructor
        · intro _
          refine ⟨i, ?_⟩
          rw [count, if_pos hit, latest, Nat.mod_eq_of_lt few]
        · intro j own
          rw [count, if_pos (namesakes j own), whole.namesakes j own, Nat.mod_eq_of_lt few]
      · have none : writes [Event.forward reached when ttl retention tags] = 0 := by
          simp [writes, Event.acknowledged, acknowledged]
        have same : ∀ i, counted origin t i = counted origin s i := by
          intro i
          rw [count, if_neg fun hit => acknowledged ⟨i, hit⟩]
        rw [none, Nat.add_zero]
        exact ⟨fun some => by simpa only [same] using whole.somebody some,
          fun i own => by rw [same, whole.namesakes i own]⟩
  | take i =>
      obtain ⟨a, held, rfl⟩ := step_take stepped
      exact ⟨whole.somebody, whole.namesakes⟩
  | deliver j k =>
      obtain ⟨i, p, found, rfl⟩ := step_deliver stepped
      have told := below.copies (i, p) (List.mem_of_getElem? found)
      constructor
      · intro some
        obtain ⟨best, all⟩ := whole.somebody some
        refine ⟨best, ?_⟩
        rw [counted_deliver]
        split_ifs with taken
        · rw [← taken.1, all]
          exact max_eq_left told
        · exact all
      · intro i' own
        rw [counted_deliver, if_neg]
        · exact whole.namesakes i' own
        · rintro ⟨rfl, other⟩
          exact other own

theorem whole_run {before : List (Event ι)} (ran : run ids origin value .start before = some s)
    (few : writes before < u64Size) (lands : AllLand ids origin value before) :
    Whole ids origin s (writes before) := by
  induction before using List.reverseRecOn generalizing s with
  | nil =>
      obtain rfl := Option.some.inj ran
      exact ⟨fun some => absurd rfl some, fun _ _ => rfl⟩
  | append_singleton earlier e ih =>
      rw [run_append] at ran
      obtain ⟨m, ranEarlier, last⟩ := Option.bind_eq_some_iff.mp ran
      obtain ⟨_, stepped, done⟩ := Option.bind_eq_some_iff.mp last
      obtain rfl := Option.some.inj done
      have total : writes (earlier ++ [e]) = writes earlier + writes [e] := by
        simp [writes, List.countP_append]
      rw [total] at few ⊢
      have earlierLand : AllLand ids origin value earlier := by
        intro front reached when ttl retention tags back m split
        exact lands front reached when ttl retention tags (back ++ [e]) m (by simp [split])
      have below := below_start.run ranEarlier
      rw [Nat.zero_add] at below
      refine (ih ranEarlier (by omega) earlierLand).step below few ?_ stepped
      rintro reached when ttl retention tags rfl acknowledged
      exact lands earlier reached when ttl retention tags [] m rfl acknowledged ranEarlier

/-- After an exchange everyone counts what somebody counted before it. -/
theorem counted_of_exchanged {after : List (Event ι)} {n : Nat} (whole : Whole ids origin s n)
    (exchange : ∀ e ∈ after, e.isExchange = true) (ran : run ids origin value s after = some t)
    (exchanged : Exchanged s t after) (j : ι) : n ≤ counted origin t j := by
  have gossiped := gossip_run exchange ran
  have grows := Gossip.run_grows gossiped
  have kept : counted origin s j ≤ counted origin t j := grows.replica j
  by_cases own : ids j = origin
  · exact (whole.namesakes j own).ge.trans kept
  · by_cases none : n = 0
    · exact none ▸ Nat.zero_le _
    · obtain ⟨i, all⟩ := whole.somebody none
      by_cases same : i = j
      · subst same
        exact all ▸ kept
      · have held : (s.replica i).isSome := by
          by_contra absent
          simp only [Option.not_isSome_iff_eq_none] at absent
          simp only [counted, absent, Option.bind_none, Option.getD_none] at all
          exact none all.symm
        obtain ⟨k, p, late, found, delivered⟩ := exchanged i j held same
        have copied : (gossip origin t).sent[k]? = some (i, told origin p) := by
          simp [gossip, found]
        have fresh : counted origin s i ≤ told origin p :=
          grows.fresh (by simpa [gossip] using late) copied
        have learned := Gossip.le_of_delivered gossiped
          (List.mem_filterMap.mpr ⟨_, delivered, if_neg own⟩) copied
        exact all ▸ fresh.trans learned

/-- A write that lands nowhere leaves everyone at or below the number of writes before it. -/
theorem below_of_missed {earlier : List (Event ι)} {reached : Finset ι} {when : DateTime}
    {ttl : Option Nat} {retention : Nat} {tags : String}
    (ran : run ids origin value .start earlier = some s)
    (missed : ¬ ∃ i ∈ reached, counted origin s i = writes earlier)
    (stepped : step ids origin value s (.forward reached when ttl retention tags) = some t) :
    Below origin t (writes earlier) := by
  have below := below_start.run ran
  rw [Nat.zero_add] at below
  refine below.forward le_rfl ?_ stepped
  intro i hit
  have behind : counted origin s i < writes earlier :=
    lt_of_le_of_ne (below.mirrors i) fun latest => missed ⟨i, hit, latest⟩
  exact (Nat.mod_le _ _).trans behind

/-- Once the mirrors have told each other, they count every acknowledged write exactly when
every one of them landed and there were fewer than `2 ^ 64`. -/
theorem acknowledged_writes_counted {before after : List (Event ι)}
    (ran : run ids origin value .start before = some s)
    (ranAfter : run ids origin value s after = some t)
    (exchange : ∀ e ∈ after, e.isExchange = true) (exchanged : Exchanged s t after) :
    (∀ j, counted origin t j = writes before) ↔
      writes before < u64Size ∧ AllLand ids origin value before := by
  have quiet := writes_exchange exchange
  constructor
  · intro all
    constructor
    · have size : 0 < u64Size := by decide
      by_contra many
      have zero : Below origin (Replicas.start : Replicas ι) (u64Size - 1) :=
        ⟨fun _ => Nat.zero_le _, fun e member => by simp [Replicas.start] at member⟩
      obtain ⟨j⟩ := nonempty_of_writes (size.trans_le (not_lt.mp many))
      have fits := ((zero.run_fits ran).run_fits ranAfter).mirrors j
      rw [all] at fits
      omega
    · intro earlier reached when ttl retention tags later m split acknowledged ranEarlier
      have one : writes [Event.forward reached when ttl retention tags] = 1 := by
        simp [writes, Event.acknowledged, acknowledged]
      have total : writes before = writes earlier + (1 + writes later) := by
        rw [split, ← one, ← writes_cons]
        simp [writes, List.countP_append]
      rw [split, run_append, ranEarlier, Option.bind_some] at ran
      obtain ⟨m', stepped, ranLater⟩ := Option.bind_eq_some_iff.mp ran
      constructor
      · by_contra missed
        have behind := ((below_of_missed ranEarlier missed stepped).run ranLater).run ranAfter
        obtain ⟨i, _⟩ := acknowledged
        have := behind.mirrors i
        have := all i
        omega
      · intro i own
        by_contra missed
        have count := counted_forward stepped i
        rw [if_neg missed] at count
        have below := below_start.run ranEarlier
        have := below.mirrors i
        have := run_counted_namesake own ranLater
        have := run_counted_namesake own ranAfter
        have := all i
        omega
  · rintro ⟨few, lands⟩ j
    have whole := whole_run ran few lands
    have below := (below_start.run ran).run ranAfter
    have upper := below.mirrors j
    rw [quiet] at upper
    have lower := counted_of_exchanged whole exchange ranAfter exchanged j
    omega

/-- Two mirrors, by their ids. -/
def mirrorIds : Bool → String
  | true => "a"
  | false => "b"

def bothTold : List (Event Bool) := [.take true, .take false, .deliver false 0, .deliver true 1]

theorem bothTold_exchanged {s t : Replicas Bool} (fresh : s.sent = [])
    (ran : run mirrorIds "router" "v" s bothTold = some t) : Exchanged s t bothTold := by
  obtain ⟨_, first, ran⟩ := Option.bind_eq_some_iff.mp ran
  obtain ⟨a, _, rfl⟩ := step_take first
  obtain ⟨_, second, ran⟩ := Option.bind_eq_some_iff.mp ran
  obtain ⟨b, _, rfl⟩ := step_take second
  obtain ⟨_, third, ran⟩ := Option.bind_eq_some_iff.mp ran
  obtain ⟨_, _, _, rfl⟩ := step_deliver third
  obtain ⟨_, fourth, ran⟩ := Option.bind_eq_some_iff.mp ran
  obtain ⟨_, _, _, rfl⟩ := step_deliver fourth
  obtain rfl := Option.some.inj ran
  intro i j _ hne
  cases i <;> cases j
  · exact absurd rfl hne
  · exact ⟨1, b.asMerge, by simp [fresh], by simp [fresh], by decide⟩
  · exact ⟨0, a.asMerge, by simp [fresh], by simp [fresh], by decide⟩
  · exact absurd rfl hne

/-- A write that reaches one mirror only is still counted by both in the end, if that mirror
had all of the others. -/
theorem acknowledged_writes_counted_pair : ∃ s t : Replicas Bool,
    run mirrorIds "router" "v" .start [.forward {true, false} .unixEpoch none 0 "",
      .forward {true} .unixEpoch none 0 ""] = some s ∧
    run mirrorIds "router" "v" s bothTold = some t ∧ ∀ j, counted "router" t j = 2 := by
  refine ⟨_, _, rfl, rfl, ?_⟩
  refine (@acknowledged_writes_counted Bool mirrorIds "router" "v" _ _ _
    [.forward {true, false} .unixEpoch none 0 "", .forward {true} .unixEpoch none 0 ""] bothTold
    rfl rfl (by decide) (bothTold_exchanged rfl rfl)).mpr ⟨by decide, ?_⟩
  intro earlier reached when ttl retention tags later m split _ ran
  have named : ∀ i, mirrorIds i ≠ "router" := by decide
  refine ⟨?_, fun i own => absurd own (named i)⟩
  rcases earlier with _ | ⟨e, _ | ⟨e', rest⟩⟩
  · obtain ⟨rfl, -⟩ := List.cons.inj split |>.1 |> Event.forward.inj
    obtain rfl := Option.some.inj ran
    exact ⟨true, by decide, rfl⟩
  · obtain ⟨rfl, second⟩ := List.cons.inj split
    obtain ⟨rfl, -⟩ := List.cons.inj second |>.1 |> Event.forward.inj
    obtain rfl := Option.some.inj ran
    exact ⟨true, by decide, rfl⟩
  · have short := congrArg List.length split
    simp at short

/-- Two writes, one taken by each mirror: both were acknowledged and one is forgotten. -/
theorem acknowledged_write_forgotten : ∃ s t : Replicas Bool,
    run mirrorIds "router" "v" .start [.forward {true} .unixEpoch none 0 "",
      .forward {false} .unixEpoch none 0 ""] = some s ∧
    run mirrorIds "router" "v" s bothTold = some t ∧ Exchanged s t bothTold ∧
    writes [Event.forward {true} .unixEpoch none 0 "", .forward {false} .unixEpoch none 0 ""] = 2 ∧
    ∀ j, counted "router" t j = 1 := by
  exact ⟨_, _, rfl, rfl, bothTold_exchanged rfl rfl, by decide, by decide⟩

end Mirrors
end SightingDB
