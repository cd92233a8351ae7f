import SightingDB.Replicas

/-!
Once the writing stops and everyone who holds the value has told everyone else, all
replicas say the same. A phase of pure exchange is gossip over the semilattice of
summaries, so agreement is read off there.

Copies taken before the last local operation may still arrive. They cannot bring back
a lower count or an earlier window, but they do bring back a lifetime or tags that were
replaced since at the same clock; hence two conclusions.
-/
namespace SightingDB
namespace Replicas

variable {ι : Type} {ids : ι → String} {value : String}
variable {L : Type} (view : Summary → L)

/-- Every server that held the value at `s` has since taken a copy and had it delivered to
every other server. -/
def Exchanged (s t : Replicas ι) (after : List (Event ι)) : Prop :=
  ∀ i j, (s.replica i).isSome → i ≠ j →
    ∃ k p, s.sent.length ≤ k ∧ t.sent[k]? = some (i, p) ∧ .deliver j k ∈ after

/-- What a server holds as seen through `view`; nothing, when it does not hold the value. -/
def known (s : Replicas ι) (i : ι) : WithBot L :=
  (s.replica i).elim ⊥ fun a => ((view a.summary : L) : WithBot L)

def gossip (s : Replicas ι) : Gossip.State ι (WithBot L) where
  replica := s.known view
  sent := s.sent.map fun e => (e.1, ((view e.2.summary : L) : WithBot L))

def Event.action : Event ι → Option (Gossip.Action ι)
  | .take i => some (.take i)
  | .deliver j k => some (.deliver j k)
  | _ => none

variable {view} {s t : Replicas ι} {n : Nat} {truth : Counts} {hours : OrderedMap String Buckets}

theorem sightings_exchange {e : Event ι} (exchange : e.isExchange = true) : sightings [e] = 0 := by
  cases e <;> simp_all [sightings, Event.isSighting, Event.isExchange]

theorem mem_actions {after : List (Event ι)} {j : ι} {k : Nat} :
    Gossip.Action.deliver j k ∈ after.filterMap Event.action ↔ Event.deliver j k ∈ after := by
  simp only [List.mem_filterMap]
  constructor
  · rintro ⟨e, member, moves⟩
    cases e <;> simp [Event.action] at moves
    obtain ⟨rfl, rfl⟩ := moves
    exact member
  · intro member
    exact ⟨_, member, rfl⟩

/-! ## What agreement means -/

/-- Two copies with the same counts, buckets, window in seconds and replacement time. -/
structure Agree (a b : Attribute) : Prop where
  counts : a.counts = b.counts
  stats : a.stats = b.stats
  firstSeen : a.firstSeen.timestamp = b.firstSeen.timestamp
  lastSeen : a.lastSeen.timestamp = b.lastSeen.timestamp
  tagsAt : a.tagsAt = b.tagsAt

/-- Two copies that also have the same tags and lifetime. -/
structure AgreeFully (a b : Attribute) : Prop extends Agree a b where
  tags : tagSet a.tags = tagSet b.tags
  ttl : a.ttl = b.ttl

theorem agree_of_knowledge {a b : Attribute}
    (same : Summary.knowledge a.summary = Summary.knowledge b.summary) : Agree a b := by
  simp only [Summary.knowledge, Attribute.summary, Merge.summary, Attribute.asMerge, Merge.tagState,
    Prod.mk.injEq, OrderDual.toDual_inj] at same
  obtain ⟨counts, stats, first, last, tagsAt⟩ := same
  exact ⟨counts, stats, first, last, tagsAt⟩

theorem agreeFully_of_summary {a b : Attribute} (same : a.summary = b.summary) : AgreeFully a b := by
  have agree := agree_of_knowledge (congrArg Summary.knowledge same)
  simp only [Attribute.summary, Merge.summary, Attribute.asMerge, Merge.tagState, Prod.mk.injEq,
    Stamped.mk.injEq, Lifetime.mk.injEq] at same
  obtain ⟨_, _, _, _, ⟨_, tags⟩, ttl⟩ := same
  exact { agree with tags := tags, ttl := ttl }

/-- Both hold the value and are related, or neither does. -/
def Both (r : Attribute → Attribute → Prop) : Option Attribute → Option Attribute → Prop
  | none, none => True
  | some a, some b => r a b
  | _, _ => False

theorem both_of_known (view : Summary → L) {r : Attribute → Attribute → Prop}
    (related : ∀ a b : Attribute, view a.summary = view b.summary → r a b) {i j : ι}
    (same : t.known view i = t.known view j) : Both r (t.replica i) (t.replica j) := by
  unfold known at same
  cases hi : t.replica i <;> cases hj : t.replica j <;> simp [hi, hj, Both] at same ⊢
  exact related _ _ same

/-! ## Exchange as gossip -/

variable [SemilatticeSup L]

theorem known_deliver (value : String) (honest : Honest ids s n truth hours) (few : n < u64Size)
    (joins : ∀ x y, view (x ⊔ y) = view x ⊔ view y) {e : ι × Merge} (member : e ∈ s.sent) (j : ι) :
    ((view ((s.cell value j).merge e.2 (ids j)).1.summary : L) : WithBot L) =
      s.known view j ⊔ view e.2.summary := by
  have joined := honest.summary_deliver value few member j
  cases held : s.replica j with
  | none =>
      rw [held, Option.elim_none, bot_sup_eq, WithBot.coe_inj] at joined
      simp [known, held, joined]
  | some a =>
      rw [held, Option.elim_some, ← WithBot.coe_sup, WithBot.coe_inj] at joined
      simp [known, held, joined, joins]

variable [DecidableEq ι]

/-- One exchange between servers is one exchange of gossip. -/
theorem gossip_step (honest : Honest ids s n truth hours) (few : n < u64Size)
    (joins : ∀ x y, view (x ⊔ y) = view x ⊔ view y) {e : Event ι} {a : Gossip.Action ι}
    (moves : e.action = some a) (stepped : step ids value s e = some t) :
    Gossip.step (s.gossip view) a = some (t.gossip view) := by
  cases e with
  | sight i when ttl tags => simp [Event.action] at moves
  | setTags i tags at_ => simp [Event.action] at moves
  | take i =>
      obtain rfl := Option.some.inj moves
      obtain ⟨b, held, rfl⟩ := Option.map_eq_some_iff.mp stepped
      simp [Gossip.step, gossip, known, held, Attribute.summary, funext_iff]
  | deliver j k =>
      obtain rfl := Option.some.inj moves
      simp only [step] at stepped
      split at stepped
      · cases stepped
      · rename_i i p found
        split_ifs at stepped with own
        obtain rfl := Option.some.inj stepped
        have joined := known_deliver value honest few joins
          (e := (i, p)) (List.mem_of_getElem? found) j
        simp only [Gossip.step, gossip, List.getElem?_map, found, Option.map_some, put_sent,
          Option.some.injEq, Gossip.State.mk.injEq, and_true]
        funext j'
        by_cases same : j' = j
        · subst same
          simpa [known, put_replica] using joined.symm
        · simp [known, put_replica, same]

theorem gossip_run {after : List (Event ι)} (distinct : Function.Injective ids)
    (honest : Honest ids s n truth hours) (few : n < u64Size)
    (joins : ∀ x y, view (x ⊔ y) = view x ⊔ view y)
    (exchange : ∀ e ∈ after, e.isExchange = true) (ran : run ids value s after = some t) :
    Gossip.run (s.gossip view) (after.filterMap Event.action) = some (t.gossip view) := by
  induction after generalizing s truth hours with
  | nil =>
      obtain rfl := Option.some.inj ran
      rfl
  | cons e rest ih =>
      obtain ⟨m, stepped, ranRest⟩ := Option.bind_eq_some_iff.mp ran
      have quiet := sightings_exchange (exchange e (by simp))
      obtain ⟨truth', hours', honest'⟩ := honest.step distinct (by omega) stepped
      rw [quiet, Nat.add_zero] at honest'
      have later := ih honest' (fun e' member => exchange e' (List.mem_cons_of_mem _ member)) ranRest
      cases moves : e.action with
      | none =>
          have := exchange e (by simp)
          cases e <;> simp [Event.action, Event.isExchange] at moves this
      | some a =>
          rw [List.filterMap_cons_some moves, Gossip.run,
            gossip_step honest few joins moves stepped, Option.bind_some, later]

/-- After an exchange all servers know the same, as far as `view` goes, if the older copies
that arrived say nothing the sender would not say itself at the start of it. -/
theorem exchanged_agree {after : List (Event ι)} (distinct : Function.Injective ids)
    (honest : Honest ids s n truth hours) (few : n < u64Size)
    (joins : ∀ x y, view (x ⊔ y) = view x ⊔ view y)
    (exchange : ∀ e ∈ after, e.isExchange = true) (ran : run ids value s after = some t)
    (exchanged : Exchanged s t after)
    (older : ∀ j k i p, .deliver j k ∈ after → s.sent[k]? = some (i, p) →
      ((view p.summary : L) : WithBot L) ≤ s.known view i) (j j' : ι) :
    t.known view j = t.known view j' := by
  have gossiped := gossip_run distinct honest few joins exchange ran
  refine Gossip.exchange_agrees gossiped (fun i => s.replica i = none) ?_ ?_ ?_ j j'
  · intro i absent x
    simp [gossip, known, absent]
  · intro i j held hne
    obtain ⟨k, p, late, found, delivered⟩ := exchanged i j (Option.isSome_iff_ne_none.mpr held) hne
    exact ⟨k, view p.summary, by simpa [gossip] using late, by simp [gossip, found],
      mem_actions.mpr delivered⟩
  · intro j k i x delivered found
    simp only [gossip, List.getElem?_map, Option.map_eq_some_iff, Prod.exists, Prod.mk.injEq] at found
    obtain ⟨i', p, found, rfl, rfl⟩ := found
    exact older j k i' p (mem_actions.mp delivered) found

/-- Fewer than `2 ^ 64` sightings into any run: no copy counts more for a server than the
server does, no merge touches the receiver's own entry, and a phase of exchange in which
every holder reaches every other server ends in agreement; on tags and lifetime too, when
no copy from before that phase arrives in it. -/
theorem galaxy_converges {before : List (Event ι)} (distinct : Function.Injective ids)
    (few : sightings before < u64Size) (ran : run ids value start before = some s) :
    (∀ i j a c, s.replica i = some a → a.counts.get (ids j) = some c →
      ∃ c', s.ownCount ids j = some c' ∧ c ≤ c') ∧
    (∀ j k t, step ids value s (.deliver j k) = some t → t.ownCount ids j = s.ownCount ids j) ∧
    ∀ after t, run ids value s after = some t → (∀ e ∈ after, e.isExchange = true) →
      Exchanged s t after →
        (∀ i j, Both Agree (t.replica i) (t.replica j)) ∧
        ((∀ j k, .deliver j k ∈ after → s.sent.length ≤ k) →
          ∀ i j, Both AgreeFully (t.replica i) (t.replica j)) := by
  obtain ⟨truth, hours, honest⟩ := (honest_start ids).run distinct (by rwa [Nat.zero_add]) ran
  rw [Nat.zero_add] at honest
  refine ⟨?_, ?_, ?_⟩
  · intro i j a c held found
    obtain ⟨c', found', le⟩ := OrderedMap.le_iff_get.mp (honest.counts i a held) (ids j) c found
    exact ⟨c', (honest.ownCount j).trans found', le⟩
  · intro j k t stepped
    simp only [step] at stepped
    split at stepped
    · cases stepped
    · split_ifs at stepped
      obtain rfl := Option.some.inj stepped
      rw [honest.ownCount, ← (honest.cell_counts value j).2]
      simp [ownCount, put_replica]
  · intro after t ranAfter exchange exchanged
    refine ⟨fun i j => ?_, fun fresh i j => ?_⟩
    · refine both_of_known Summary.knowledge (fun _ _ => agree_of_knowledge) ?_
      refine exchanged_agree distinct honest few Summary.knowledge_sup exchange ranAfter exchanged ?_ i j
      intro j k i p _ found
      obtain ⟨a, held, behind⟩ := honest.behind (i, p) (List.mem_of_getElem? found)
      rw [known, held, Option.elim_some]
      exact WithBot.coe_le_coe.mpr behind
    · refine both_of_known id (fun _ _ => agreeFully_of_summary) ?_
      refine exchanged_agree distinct honest few (fun _ _ => rfl) exchange ranAfter exchanged ?_ i j
      intro j k i p delivered found
      have old := (List.getElem?_eq_some_iff.mp found).1
      exact absurd (fresh j k delivered) (by omega)

/-- Two servers, by their ids. -/
def pair : Bool → String
  | true => "a"
  | false => "b"

theorem pair_distinct : Function.Injective pair := by
  intro x y same
  cases x <;> cases y <;> first | rfl | exact absurd same (by decide)

theorem galaxy_converges_pair : ∃ s t : Replicas Bool,
    run pair "v" start [.sight true .unixEpoch (some 10) "x", .sight false .unixEpoch none "y"] =
      some s ∧
    run pair "v" s [.take true, .take false, .deliver false 0, .deliver true 1] = some t ∧
    Both AgreeFully (t.replica true) (t.replica false) := by
  refine ⟨_, _, rfl, rfl, ?_⟩
  refine ((@galaxy_converges Bool pair "v" _ _
    [.sight true .unixEpoch (some 10) "x", .sight false .unixEpoch none "y"]
    pair_distinct (by decide) rfl).2.2 [.take true, .take false, .deliver false 0, .deliver true 1] _ rfl
    (by decide) ?_).2 ?_ true false
  · intro i j held hne
    cases i <;> cases j
    · exact absurd rfl hne
    · exact ⟨1, _, by decide, rfl, by decide⟩
    · exact ⟨0, _, by decide, rfl, by decide⟩
    · exact absurd rfl hne
  · intro j k _
    exact Nat.zero_le k

/-- A copy from before the lifetime was raised arrives last and shortens it on one side. -/
theorem stale_copy_divides : ∃ s t : Replicas Bool,
    run pair "v" start [.sight true .unixEpoch (some 10) "", .take true,
      .sight true .unixEpoch (some 20) ""] = some s ∧
    run pair "v" s [.take true, .deliver false 1, .take false, .deliver true 2, .deliver false 0] =
      some t ∧
    Exchanged s t [.take true, .deliver false 1, .take false, .deliver true 2, .deliver false 0] ∧
    ¬ Both AgreeFully (t.replica true) (t.replica false) := by
  refine ⟨_, _, rfl, rfl, ?_, ?_⟩
  · intro i j held hne
    cases i <;> cases j
    · exact absurd rfl hne
    · exact absurd held (by decide)
    · exact ⟨1, _, by decide, rfl, by decide⟩
    · exact absurd rfl hne
  · intro agree
    exact absurd agree.ttl (by decide)

end Replicas
end SightingDB
