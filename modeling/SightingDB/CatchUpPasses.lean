import SightingDB.Survey
import SightingDB.CatchUp
import SightingDB.MergeReports
import SightingDB.MergeLaws

/-!
Passes over the peers. The first one pulls every namespace that a peer lists and this server
stores; the ones after it pull a namespace only where the peer has more values. A pass is
taken by itself, with nothing else changing while it runs.
-/
namespace SightingDB

/-- `CaughtUp`: what one pass did. -/
structure CaughtUp where
  namespaces : Nat
  merged : Nat
  deriving DecidableEq

/-- `behind_on`. -/
def behindOn (db : Database) (w : World) (peer : Mirror) (name : String) : Database × Bool :=
  let (db, mine) := db.valueCount w name
  (db, decide ((mine.map (·.values)).getD 0 < peer.countAt name))

/-- The loop of `pull_namespace`; `fuel` bounds the pages. -/
def pullFrom (w : World) (peer : Mirror) (name : String) : Nat → Pull → Pull
  | 0, pull => pull
  | fuel + 1, pull =>
      let (pull, goes) := pull.turn w name (peer.pageAt name pull.offset)
      if goes then pullFrom w peer name fuel pull else pull

/-- `pull_namespace`. -/
def pullNamespace (w : World) (peer : Mirror) (name : String) (db : Database) : Database × Nat :=
  let pull := pullFrom w peer name (peer.pages name) ⟨0, 0, db⟩
  (pull.db, pull.merged)

namespace CaughtUp

/-- One namespace of a peer. -/
def visit (w : World) (full : Bool) (peer : Mirror) (acc : Database × CaughtUp) (name : String) : Database × CaughtUp :=
  let (db, report) := acc
  if !db.holds name || isInternal name then (db, report)
  else
    let report := { report with namespaces := report.namespaces + 1 }
    let asked := if full then (db, true) else behindOn db w peer name
    if asked.2 then
      let pulled := pullNamespace w peer name asked.1
      (pulled.1, { report with merged := report.merged + pulled.2 })
    else (asked.1, report)

/-- One peer. One that cannot be listed is passed over. -/
def visitPeer (w : World) (full : Bool) (acc : Database × CaughtUp) (peer : Mirror) : Database × CaughtUp :=
  if peer.down then acc else peer.names.foldl (visit w full peer) acc

end CaughtUp

/-- `catch_up` over the enabled peers. -/
def catchUp (db : Database) (w : World) (peers : List Mirror) (full : Bool) : Database × CaughtUp :=
  peers.foldl (CaughtUp.visitPeer w full) (db, ⟨0, 0⟩)

/-! ## A pass as a list of merges -/

/-- A value in a namespace, as a peer has it. -/
structure Offer where
  name : String
  value : String
  payload : Merge
  deriving DecidableEq

/-- Whether values of a namespace are taken from peers. -/
def StoragePolicy.wants (stores : StoragePolicy) (name : String) : Bool := stores.holds name && !isInternal name

namespace Mirror

/-- The namespaces of a peer that are looked at. -/
def listed (peer : Mirror) (stores : StoragePolicy) : List String :=
  if peer.down then [] else peer.names.filter stores.wants

/-- What a peer tells a server in a pass that skips nothing. -/
def tells (peer : Mirror) (stores : StoragePolicy) : List Offer :=
  (peer.listed stores).flatMap fun name => (peer.offered name).map fun e => ⟨name, e.1, e.2⟩

/-- The namespaces of a peer that are looked at can be walked. -/
def Walkable (peer : Mirror) (stores : StoragePolicy) : Prop := peer.down = false → peer.Askable stores.wants

instance (peer : Mirror) (stores : StoragePolicy) : Decidable (peer.Walkable stores) :=
  inferInstanceAs (Decidable (peer.down = false → peer.Askable stores.wants))

theorem mem_tells {peer : Mirror} {stores : StoragePolicy} {offer : Offer} :
    offer ∈ peer.tells stores ↔ peer.down = false ∧ offer.name ∈ peer.names ∧ stores.wants offer.name = true ∧
      (offer.value, offer.payload) ∈ peer.offered offer.name := by
  rw [tells, listed]
  cases peer.down with
  | true => simp
  | false =>
      simp only [Bool.false_eq_true, if_false, List.mem_flatMap, List.mem_filter, List.mem_map, true_and]
      constructor
      · rintro ⟨name, ⟨listed, wanted⟩, e, offered, rfl⟩
        exact ⟨listed, wanted, offered⟩
      · rintro ⟨listed, wanted, offered⟩
        exact ⟨offer.name, ⟨listed, wanted⟩, _, offered, rfl⟩

end Mirror

namespace Offer

/-- One offer merged, and counted when it changed something. -/
def takeIn (w : World) (acc : Database × Nat) (offer : Offer) : Database × Nat :=
  let merged := acc.1.merge w offer.name offer.value offer.payload
  (merged.1, if merged.2.changed then acc.2 + 1 else acc.2)

variable (w : World) (name : String)

theorem foldl_take_eq (offers : List (String × Merge)) (pull : Pull) :
    offers.foldl (Pull.take w name) pull =
      { pull with
        db := ((offers.map fun e => (⟨name, e.1, e.2⟩ : Offer)).foldl (takeIn w) (pull.db, pull.merged)).1
        merged := ((offers.map fun e => (⟨name, e.1, e.2⟩ : Offer)).foldl (takeIn w) (pull.db, pull.merged)).2 } := by
  induction offers generalizing pull with
  | nil => rfl
  | cons offer rest ih => exact ih (pull.take w name offer)

theorem foldl_take_append (first later : List (String × Merge)) (pull : Pull) (offset : Nat) :
    (later.foldl (Pull.take w name) { first.foldl (Pull.take w name) pull with offset := offset }).db =
        ((first ++ later).foldl (Pull.take w name) pull).db ∧
      (later.foldl (Pull.take w name) { first.foldl (Pull.take w name) pull with offset := offset }).merged =
        ((first ++ later).foldl (Pull.take w name) pull).merged := by
  simp only [foldl_take_eq, List.foldl_append, and_self]

theorem foldl_takeIn_add (offers : List Offer) (db : Database) (n : Nat) :
    offers.foldl (takeIn w) (db, n) = ((offers.foldl (takeIn w) (db, 0)).1, n + (offers.foldl (takeIn w) (db, 0)).2) := by
  induction offers generalizing db n with
  | nil => rfl
  | cons offer rest ih =>
      have first : ∀ k, takeIn w (db, k) offer = ((takeIn w (db, 0) offer).1, k + (takeIn w (db, 0) offer).2) := by
        intro k
        simp only [takeIn]
        split <;> simp
      rw [List.foldl_cons, List.foldl_cons, first n, ih, ih (takeIn w (db, 0) offer).1 (takeIn w (db, 0) offer).2, Nat.add_assoc]

end Offer

section Listing

variable {w : World} {peer : Mirror} {name : String}

/-- A pull with a page to spare merges everything from its offset on. -/
theorem pullFrom_eq (reads : peer.Reads name) (fuel : Nat) (pull : Pull) (within : pull.offset ≤ (peer.offered name).length)
    (enough : (peer.offered name).length - pull.offset < fuel) :
    (pullFrom w peer name fuel pull).db = (((peer.offered name).drop pull.offset).foldl (Pull.take w name) pull).db ∧
      (pullFrom w peer name fuel pull).merged =
        (((peer.offered name).drop pull.offset).foldl (Pull.take w name) pull).merged := by
  induction fuel generalizing pull with
  | zero => omega
  | succ fuel ih =>
      rw [pullFrom]
      rcases reads.pageAt_eq within with ⟨refused, none⟩ | answered
      · rw [refused, none]
        simp [Pull.turn]
      · rw [answered]
        simp only [Pull.turn, List.length_take, List.length_drop]
        have offset : (((peer.offered name).drop pull.offset).take 500 |>.foldl (Pull.take w name) pull).offset =
            pull.offset := (Pull.foldl_take w name _ pull).1
        rw [offset]
        by_cases last : min 500 ((peer.offered name).length - pull.offset) = 0 ∨
            (peer.offered name).length ≤ pull.offset + min 500 ((peer.offered name).length - pull.offset)
        · have short : ((peer.offered name).drop pull.offset).take 500 = (peer.offered name).drop pull.offset :=
            List.take_of_length_le (by rw [List.length_drop]; omega)
          rw [if_neg (by simpa using fun some_ => by omega), short]
          exact ⟨rfl, rfl⟩
        · have whole : min 500 ((peer.offered name).length - pull.offset) = 500 := by omega
          rw [if_pos (by simpa using last), whole]
          have next := ih { (((peer.offered name).drop pull.offset).take 500).foldl (Pull.take w name) pull with
            offset := pull.offset + 500 } (by dsimp only; omega) (by dsimp only; omega)
          have joined := Offer.foldl_take_append w name (((peer.offered name).drop pull.offset).take 500)
            (((peer.offered name).drop pull.offset).drop 500) pull (pull.offset + 500)
          rw [List.take_append_drop, List.drop_drop] at joined
          exact ⟨next.1.trans joined.1, next.2.trans joined.2⟩

theorem pullNamespace_eq (reads : peer.Reads name) (db : Database) : pullNamespace w peer name db =
    ((peer.offered name).map fun e => (⟨name, e.1, e.2⟩ : Offer)).foldl (Offer.takeIn w) (db, 0) := by
  have all := pullFrom_eq (w := w) reads (peer.pages name) ⟨0, 0, db⟩ (Nat.zero_le _) (by simp [reads.pages_eq])
  rw [pullNamespace, all.1, all.2, List.drop_zero, Offer.foldl_take_eq]

end Listing

/-! ## The whole of a first pass -/

section Full

variable {w : World} {db : Database}

theorem Offer.settings_takeIn (offers : List Offer) (db : Database) (n : Nat) :
    (offers.foldl (takeIn w) (db, n)).1.settings = db.settings := by
  induction offers generalizing db n with
  | nil => rfl
  | cons offer rest ih =>
      rw [List.foldl_cons, takeIn]
      exact (ih _ _).trans (Database.settings_merge db w _ _ _)

namespace CaughtUp

theorem visit_full (peer : Mirror) (name : String) (reads : db.stores.wants name = true → peer.Reads name) (report : CaughtUp) :
    visit w true peer (db, report) name =
      if db.stores.wants name then
        let taken := ((peer.offered name).map fun e => (⟨name, e.1, e.2⟩ : Offer)).foldl (Offer.takeIn w) (db, 0)
        (taken.1, ⟨report.namespaces + 1, report.merged + taken.2⟩)
      else (db, report) := by
  rw [StoragePolicy.wants] at reads
  rw [visit, StoragePolicy.wants, Database.holds]
  cases stored : db.stores.holds name <;> cases internal : isInternal name
  · rfl
  · rfl
  · simp [pullNamespace_eq (reads (by simp [stored, internal]))]
  · rfl

theorem names_full (peer : Mirror) (names : List String) (stores : StoragePolicy)
    (reads : ∀ name ∈ names, stores.wants name = true → peer.Reads name) (db : Database) (same : db.stores = stores)
    (report : CaughtUp) :
    names.foldl (visit w true peer) (db, report) =
      let taken := ((names.filter stores.wants).flatMap fun name =>
        (peer.offered name).map fun e => (⟨name, e.1, e.2⟩ : Offer)).foldl (Offer.takeIn w) (db, 0)
      (taken.1, ⟨report.namespaces + (names.filter stores.wants).length, report.merged + taken.2⟩) := by
  induction names generalizing db report with
  | nil => rfl
  | cons name rest ih =>
      have ih := ih fun name mem => reads name (List.mem_cons_of_mem _ mem)
      rw [List.foldl_cons, visit_full peer name (same ▸ reads name List.mem_cons_self), same]
      cases wanted : stores.wants name with
      | false => simpa [wanted] using ih db same report
      | true =>
          rw [if_pos rfl]
          have kept : (((peer.offered name).map fun e => (⟨name, e.1, e.2⟩ : Offer)).foldl (Offer.takeIn w) (db, 0)).1.stores = stores :=
            (congrArg Prod.snd (Offer.settings_takeIn _ db 0)).trans same
          have later := ih _ kept ⟨report.namespaces + 1, report.merged +
            (((peer.offered name).map fun e => (⟨name, e.1, e.2⟩ : Offer)).foldl (Offer.takeIn w) (db, 0)).2⟩
          dsimp only at later ⊢
          rw [later, List.filter_cons_of_pos wanted, List.flatMap_cons, List.foldl_append]
          generalize ((peer.offered name).map fun e => (⟨name, e.1, e.2⟩ : Offer)).foldl (Offer.takeIn w) (db, 0) = taken
          rw [Offer.foldl_takeIn_add w _ taken.1 taken.2, List.length_cons]
          simp only [Prod.mk.injEq, CaughtUp.mk.injEq, true_and]
          omega

end CaughtUp

/-- A first pass merges what every peer tells, in the order in which the peers are asked. -/
theorem catchUp_full (peers : List Mirror) (db : Database)
    (walkable : ∀ peer ∈ peers, peer.Walkable db.stores) :
    let taken := (peers.flatMap (·.tells db.stores)).foldl (Offer.takeIn w) (db, 0)
    catchUp db w peers true = (taken.1, ⟨(peers.flatMap (·.listed db.stores)).length, taken.2⟩) := by
  have whole : ∀ (stores : StoragePolicy) (db : Database) (report : CaughtUp), db.stores = stores →
      (∀ peer ∈ peers, peer.Walkable stores) → peers.foldl (CaughtUp.visitPeer w true) (db, report) =
        let taken := (peers.flatMap (·.tells stores)).foldl (Offer.takeIn w) (db, 0)
        (taken.1, ⟨report.namespaces + (peers.flatMap (·.listed stores)).length, report.merged + taken.2⟩) := by
    intro stores
    clear walkable
    induction peers with
    | nil => exact fun _ _ _ _ => rfl
    | cons peer rest ih =>
        intro db report same walkable
        have here : CaughtUp.visitPeer w true (db, report) peer =
            let taken := (peer.tells stores).foldl (Offer.takeIn w) (db, 0)
            (taken.1, ⟨report.namespaces + (peer.listed stores).length, report.merged + taken.2⟩) := by
          rw [CaughtUp.visitPeer, Mirror.tells, Mirror.listed]
          cases up : peer.down with
          | true => rfl
          | false => exact CaughtUp.names_full peer peer.names stores (walkable peer List.mem_cons_self up) db same report
        have kept : ((peer.tells stores).foldl (Offer.takeIn w) (db, 0)).1.stores = stores :=
          (congrArg Prod.snd (Offer.settings_takeIn _ db 0)).trans same
        rw [List.foldl_cons, here, ih _ _ kept fun peer mem => walkable peer (List.mem_cons_of_mem _ mem), List.flatMap_cons,
          List.flatMap_cons, List.foldl_append, List.length_append]
        generalize (peer.tells stores).foldl (Offer.takeIn w) (db, 0) = taken
        rw [Offer.foldl_takeIn_add w _ taken.1 taken.2]
        simp only [Prod.mk.injEq, CaughtUp.mk.injEq, true_and]
        omega
  have all := whole db.stores db ⟨0, 0⟩ rfl walkable
  simpa only [catchUp, Nat.zero_add] using all

end Full

/-! ## What is held afterwards -/

namespace Offer

/-- What an offer does to what is held. -/
def feed (node : String) (retention : Nat) (now : DateTime) (c : Contents) (offer : Offer) : Contents :=
  c.merge node retention now offer.name offer.value offer.payload

/-- What some offers say of one value. -/
def about (offers : List Offer) (name value : String) : List Merge :=
  offers.filterMap fun offer => if offer.name = name ∧ offer.value = value then some offer.payload else none

theorem about_cons (offer : Offer) (rest : List Offer) (name value : String) :
    about (offer :: rest) name value =
      if offer.name = name ∧ offer.value = value then offer.payload :: about rest name value else about rest name value := by
  rw [about, List.filterMap_cons]
  split_ifs <;> rfl

theorem mem_about {offers : List Offer} {name value : String} {p : Merge} :
    p ∈ about offers name value ↔ ⟨name, value, p⟩ ∈ offers := by
  constructor
  · intro mem
    obtain ⟨⟨name', value', p'⟩, told, same⟩ := List.mem_filterMap.mp mem
    split_ifs at same with here
    obtain ⟨rfl, rfl⟩ := here
    obtain rfl := Option.some.inj same
    exact told
  · exact fun told => List.mem_filterMap.mpr ⟨_, told, by simp⟩

end Offer

/-- The record held for a value. -/
def Contents.record? (c : Contents) (name value : String) : Option Attribute := (c.values name).get value

section Contents

variable {c : Contents} {node : String} {retention : Nat} {now : DateTime}

theorem Contents.record?_merge {path name : String} (other : name ≠ allNamespace) (at_ value : String) (p : Merge) :
    (c.merge node retention now path at_ p).record? name value =
      if path = name ∧ at_ = value then some ((c.cell name value).merge p node).1 else c.record? name value := by
  have plain : (c.put path ((c.values path).insert at_ ((c.cell path at_).merge p node).1)).record? name value =
      if path = name ∧ at_ = value then some ((c.cell name value).merge p node).1 else c.record? name value := by
    by_cases here : path = name
    · subst here
      by_cases same : at_ = value
      · subst same
        simp [Contents.record?, Contents.values, Contents.put]
      · simp [Contents.record?, Contents.values, Contents.put, OrderedMap.get_insert, same, Ne.symm same]
    · simp [Contents.record?, Contents.values, Contents.put, here, Ne.symm here]
  rw [← plain, Contents.merge]
  split
  · simp [Contents.record?, Contents.tallyUp, Contents.record, Contents.values, Contents.put, other]
  · rfl

/-- What is held for a value after some offers: what was held, or all that was said of it merged
one after another. -/
theorem Offer.record?_feeds (offers : List Offer) (c : Contents) {name : String} (other : name ≠ allNamespace) (value : String) :
    (offers.foldl (feed node retention now) c).record? name value =
      if about offers name value = [] then c.record? name value
      else some ((c.cell name value).mergeAll (about offers name value) node) := by
  induction offers generalizing c with
  | nil => rfl
  | cons offer rest ih =>
      have step := @Contents.record?_merge c node retention now offer.name name other offer.value value offer.payload
      rw [List.foldl_cons, ih, feed, Contents.cell, ← Contents.record?, step, about_cons]
      by_cases here : offer.name = name ∧ offer.value = value
      · rw [if_pos here, if_pos here, if_neg (List.cons_ne_nil _ _)]
        cases about rest name value <;> simp [Attribute.mergeAll]
      · rw [if_neg here, if_neg here]
        rfl

end Contents

/-! ## Nothing left to learn -/

/-- A payload that says when a value was first seen, other than at the epoch, which is where the
records of unseen values stand. -/
def Merge.Dated (p : Merge) : Prop := ∃ s, DateTime.fromTimestamp p.firstSeen = some s ∧ s ≠ .unixEpoch

namespace Attribute

/-- A record that takes its window from the payload, or has one of its own. -/
def Ready (a : Attribute) : Prop := a.unseen = true ∨ a.firstSeen ≠ .unixEpoch

/-- All that a payload says is known, its window included. -/
structure Learned (a : Attribute) (p : Merge) (mine : String) : Prop extends a.Covers p mine where
  dated : a.firstSeen ≠ .unixEpoch
  first : ∀ s, DateTime.fromTimestamp p.firstSeen = some s → a.firstSeen ≤ s
  last : ∀ t, DateTime.fromTimestamp p.lastSeen = some t → t ≤ a.lastSeen

variable {a : Attribute} {p q : Merge} {mine : String}

theorem unseen_of_dated (dated : a.firstSeen ≠ .unixEpoch) : a.unseen = false := by
  simp [unseen, dated]

theorem Ready.merge (ready : a.Ready) (dated : p.Dated) : (a.merge p mine).1.firstSeen ≠ .unixEpoch := by
  obtain ⟨s, known, late⟩ := dated
  rw [merge_firstSeen, known, firstEdge, Option.elim_some]
  rcases ready with unseen | own
  · rwa [if_pos unseen]
  · rw [if_neg (by simp [unseen_of_dated own])]
    rcases min_choice a.firstSeen s with ours | theirs
    · rwa [ours]
    · rwa [theirs]

theorem Ready.learned (ready : a.Ready) (dated : p.Dated) : (a.merge p mine).1.Learned p mine where
  toCovers := covers_merge_self a p mine
  dated := ready.merge dated
  first s known := by
    rw [merge_firstSeen, known, firstEdge, Option.elim_some]
    split_ifs
    · exact le_rfl
    · exact min_le_right _ _
  last t known := by
    rw [merge_lastSeen, known, lastEdge, Option.elim_some]
    split_ifs
    · exact le_rfl
    · exact le_max_right _ _

theorem Learned.merge (learned : a.Learned p mine) (dated : q.Dated) : (a.merge q mine).1.Learned p mine where
  toCovers := learned.toCovers.merge q
  dated := Ready.merge (.inr learned.dated) dated
  first s known := by
    have before := learned.first s known
    rw [merge_firstSeen, unseen_of_dated learned.dated, firstEdge]
    cases DateTime.fromTimestamp q.firstSeen with
    | none => exact before
    | some t => exact (min_le_left _ _).trans before
  last t known := by
    have before := learned.last t known
    rw [merge_lastSeen, unseen_of_dated learned.dated, lastEdge]
    cases DateTime.fromTimestamp q.lastSeen with
    | none => exact before
    | some s => exact before.trans (le_max_left _ _)

/-- Each of some payloads is known once all were merged. -/
theorem learned_mergeAll {payloads : List Merge} (ready : a.Ready) (dated : ∀ p ∈ payloads, p.Dated) (mem : p ∈ payloads) :
    (a.mergeAll payloads mine).Learned p mine := by
  have kept : ∀ (later : List Merge) (a : Attribute), (∀ q ∈ later, q.Dated) → a.Learned p mine →
      (a.mergeAll later mine).Learned p mine := by
    intro later
    induction later with
    | nil => exact fun _ _ learned => learned
    | cons q rest ih =>
        intro a dated learned
        exact ih _ (fun r mem => dated r (List.mem_cons_of_mem _ mem)) (learned.merge (dated q List.mem_cons_self))
  induction payloads generalizing a with
  | nil => cases mem
  | cons q rest ih =>
      have later : ∀ r ∈ rest, r.Dated := fun r mem => dated r (List.mem_cons_of_mem _ mem)
      have now_ := dated q List.mem_cons_self
      rcases List.mem_cons.mp mem with rfl | mem
      · exact kept rest _ later (ready.learned now_)
      · exact ih (.inr (ready.merge now_)) later mem

/-- What is known changes nothing, and is reported as no change. -/
theorem Learned.idle (learned : a.Learned p mine) : (a.merge p mine).1 = a ∧ (a.merge p mine).2.changed = false := by
  have window : (a.merge p mine).1.firstSeen = a.firstSeen ∧ (a.merge p mine).1.lastSeen = a.lastSeen := by
    rw [merge_firstSeen, merge_lastSeen, unseen_of_dated learned.dated, firstEdge, lastEdge]
    constructor
    · cases known : DateTime.fromTimestamp p.firstSeen with
      | none => rfl
      | some s => exact min_eq_left (learned.first s known)
    · cases known : DateTime.fromTimestamp p.lastSeen with
      | none => rfl
      | some t => exact max_eq_left (learned.last t known)
  have silent := (learned.toCovers.idle_iff.mpr window).2
  have knows : a.Knows p mine :=
    ⟨learned.counts, learned.stats, max_eq_left_iff.mp ((merge_tagsAt a p mine).symm.trans learned.toCovers.absorbs.tagsAt)⟩
  exact ⟨knows.unchanged silent, silent⟩

end Attribute

/-! ## A first pass -/

section FirstPass

variable {names : ShardFiles} {dir : Dir} {db : Database} {exempt : String → Prop} {now : DateTime}

theorem Offer.takeAll_does (offers : List Offer) (consistent : Consistent names dir (fun _ => True) db) (now : DateTime)
    (used : ∀ offer ∈ offers, names.used (shardOf offer.name)) (n : Nat) :
    Does names dir (fun _ => True) (offers.foldl (feed db.node db.policy.statsRetention now)) db
      (offers.foldl (takeIn (.sound names dir now)) (db, n)).1 := by
  induction offers generalizing db n with
  | nil => exact (Looks.refl consistent).does
  | cons offer rest ih =>
      have first := @merge_does names dir db (fun _ => True) consistent now offer.name (used offer List.mem_cons_self)
        offer.value offer.payload (.inl trivial)
      have later := ih first.consistent (fun offer mem => used offer (List.mem_cons_of_mem _ mem))
        (takeIn (.sound names dir now) (db, n) offer).2
      rw [first.node, first.policy] at later
      exact first.trans later

theorem full_pass_records (consistent : Consistent names dir exempt db) (now : DateTime) {peers : List Mirror}
    (walkable : ∀ peer ∈ peers, peer.Walkable db.stores)
    (used : ∀ offer ∈ peers.flatMap (·.tells db.stores), names.used (shardOf offer.name)) {name : String}
    (other : name ≠ allNamespace) (value : String) :
    let said := Offer.about (peers.flatMap (·.tells db.stores)) name value
    Contents.record? (held names dir (catchUp db (.sound names dir now) peers true).1) name value =
      if said = [] then Contents.record? (held names dir db) name value
      else some ((Contents.cell (held names dir db) name value).mergeAll said db.node) := by
  have all := catchUp_full (w := .sound names dir now) peers db walkable
  have done := Offer.takeAll_does (peers.flatMap (·.tells db.stores)) (consistent.weaken fun _ _ => trivial) now used 0
  dsimp only at all ⊢
  rw [all, done.held]
  exact @Offer.record?_feeds db.node db.policy.statsRetention now (peers.flatMap (·.tells db.stores)) (held names dir db)
    name other value

/-- Whatever a peer that answers offers in a namespace that is stored here is known after a pass that
skips nothing. -/
theorem full_pass_known (consistent : Consistent names dir exempt db) (now : DateTime) {peers : List Mirror}
    (walkable : ∀ peer ∈ peers, peer.Walkable db.stores)
    (used : ∀ offer ∈ peers.flatMap (·.tells db.stores), names.used (shardOf offer.name)) {peer : Mirror} (asked : peer ∈ peers)
    (up : peer.down = false) {name : String} (listed : name ∈ peer.names) (stored : db.holds name = true)
    (outside : isInternal name = false) {e : String × Merge} (offered : e ∈ peer.offered name) :
    (Contents.cell (held names dir (catchUp db (.sound names dir now) peers true).1) name e.1).Covers e.2 db.node := by
  have other : name ≠ allNamespace := by
    rintro rfl
    exact absurd outside (by decide)
  have told : (⟨name, e.1, e.2⟩ : Offer) ∈ peers.flatMap (·.tells db.stores) := by
    have wanted : db.stores.wants name = true := by
      rw [StoragePolicy.wants, outside]
      simpa [Database.holds] using stored
    exact List.mem_flatMap.mpr ⟨peer, asked, Mirror.mem_tells.mpr ⟨up, listed, wanted, offered⟩⟩
  have said := Offer.mem_about.mpr told
  have record := full_pass_records consistent now walkable used other e.1
  dsimp only at record
  rw [if_neg (List.ne_nil_of_mem said)] at record
  rw [Contents.cell, ← Contents.record?, record, Option.getD_some]
  obtain ⟨before, rest, split⟩ := List.append_of_mem said
  rw [split, Attribute.mergeAll, List.foldl_append, List.foldl_cons]
  exact (Attribute.covers_merge_self _ _ _).mergeAll rest

/-- A server that was told of a value some seconds after the epoch. -/
def datedMirror : Mirror :=
  .self ((Database.withNode ⟨0, 0⟩ .storeEverything "there").write .sample "a/y" "v"
    ((DateTime.fromTimestamp 5).getD .unixEpoch) ⟨true, none⟩) .sample

theorem datedMirror_walkable : datedMirror.Walkable Machine.fresh.db.stores := by
  decide +kernel

theorem walkable_of_dated : ∀ peer ∈ [datedMirror], peer.Walkable Machine.fresh.db.stores := fun peer mem => by
  rw [List.mem_singleton.mp mem]
  exact datedMirror_walkable

theorem datedMirror_tells : ∀ offer ∈ [datedMirror].flatMap (·.tells Machine.fresh.db.stores),
    offer.name = "a/y" ∧ offer.payload.firstSeen = 5 := by
  decide

theorem used_of_datedMirror : ∀ offer ∈ [datedMirror].flatMap (·.tells Machine.fresh.db.stores), ShardFiles.sample.used (shardOf offer.name) := by
  intro offer told
  rw [(datedMirror_tells offer told).1]
  exact .inr (by decide)

end FirstPass

/-! ## The passes after it -/

/-- Whether what is held has learned an offer. -/
def Contents.Learned (c : Contents) (node : String) (offer : Offer) : Prop :=
  ∃ a, c.record? offer.name offer.value = some a ∧ a.Learned offer.payload node

theorem Contents.Learned.merge_self {c : Contents} {node : String} {offer : Offer} (learned : c.Learned node offer)
    (retention : Nat) (now : DateTime) : c.merge node retention now offer.name offer.value offer.payload = c := by
  obtain ⟨a, held, knows⟩ := learned
  have cell : c.cell offer.name offer.value = a := by
    rw [Contents.cell, ← Contents.record?, held, Option.getD_some]
  have there : (c.values offer.name).contains offer.value = true := OrderedMap.contains_iff.mpr ⟨a, held⟩
  rw [Contents.merge, cell, knows.idle.1, there, OrderedMap.insert_self _ held]
  have same : c.put offer.name (c.values offer.name) = c := by
    funext name
    rw [Contents.put]
    split_ifs with here
    · subst here
      cases stored : c offer.name with
      | none => simp [Contents.record?, Contents.values, stored] at held
      | some vals => simp [Contents.values, stored]
    · rfl
  simpa using same

/-- A server that holds something, whatever of it is in memory. -/
structure CaughtTo (names : ShardFiles) (dir : Dir) (c : Contents) (stores : StoragePolicy) (node : String) (db : Database) : Prop where
  consistent : Consistent names dir (fun _ => True) db
  held : held names dir db = c
  stores : db.stores = stores
  node : db.node = node

namespace CaughtTo

variable {names : ShardFiles} {dir : Dir} {c : Contents} {stores : StoragePolicy} {node : String} {db : Database}

/-- An offer that was learned is taken in without a trace. -/
theorem takeIn (stands : CaughtTo names dir c stores node db) (now : DateTime) {offer : Offer}
    (used : names.used (shardOf offer.name)) (learned : c.Learned node offer) (n : Nat) :
    CaughtTo names dir c stores node (Offer.takeIn (.sound names dir now) (db, n) offer).1 ∧
      (Offer.takeIn (.sound names dir now) (db, n) offer).2 = n := by
  have does := @merge_does names dir db (fun _ => True) stands.consistent now offer.name used offer.value offer.payload
    (.inl trivial)
  constructor
  · refine ⟨does.consistent, ?_, ?_, does.node.trans stands.node⟩
    · have idle := learned.merge_self db.policy.statsRetention now
      rw [← stands.node, ← stands.held] at idle
      exact (does.held.trans idle).trans stands.held
    · exact (congrArg Prod.snd (Database.settings_merge db _ _ _ _)).trans stands.stores
  · obtain ⟨a, record, knows⟩ := learned
    have stored := (held_merge stands.consistent now used offer.value offer.payload).1
    rw [stands.held] at stored
    have cell : (db.opened (.sound names dir now) offer.name).cell offer.value = a := by
      rw [Namespace.cell, ← Database.stored, ← stored]
      exact congrArg (Option.getD · _) record
    rw [Offer.takeIn, Database.merge_outcome, cell, stands.node, knows.idle.2]
    rfl

theorem takeAll (stands : CaughtTo names dir c stores node db) (now : DateTime) {offers : List Offer}
    (used : ∀ offer ∈ offers, names.used (shardOf offer.name)) (learned : ∀ offer ∈ offers, c.Learned node offer) (n : Nat) :
    CaughtTo names dir c stores node (offers.foldl (Offer.takeIn (.sound names dir now)) (db, n)).1 ∧
      (offers.foldl (Offer.takeIn (.sound names dir now)) (db, n)).2 = n := by
  induction offers generalizing db n with
  | nil => exact ⟨stands, rfl⟩
  | cons offer rest ih =>
      obtain ⟨next, count⟩ := stands.takeIn now (used offer List.mem_cons_self) (learned offer List.mem_cons_self) n
      obtain ⟨last, counts⟩ := ih next (fun offer mem => used offer (List.mem_cons_of_mem _ mem))
        (fun offer mem => learned offer (List.mem_cons_of_mem _ mem)) (Offer.takeIn (.sound names dir now) (db, n) offer).2
      exact ⟨last, counts.trans count⟩

theorem behindOn (stands : CaughtTo names dir c stores node db) (now : DateTime) (peer : Mirror) (name : String) :
    CaughtTo names dir c stores node (SightingDB.behindOn db (.sound names dir now) peer name).1 := by
  have looks := (valueCount_reads stands.consistent now name).1
  have settings : (db.valueCount (.sound names dir now) name).1.settings = db.settings := by
    have touched := Database.settings_touch db (.sound names dir now) (shardOf name)
    have looked := Database.settings_namespace_ (db.touch (.sound names dir now) (shardOf name)) (.sound names dir now) name
    rw [Database.valueCount]
    cases (db.touch (.sound names dir now) (shardOf name)).namespaces.get name with
    | some ns => exact touched
    | none =>
        cases found : (db.touch (.sound names dir now) (shardOf name)).namespace_ (.sound names dir now) name with
        | mk db' ns =>
            rw [found] at looked
            cases ns <;> exact looked.trans touched
  exact ⟨looks.consistent, looks.held.trans stands.held, (congrArg Prod.snd settings).trans stands.stores,
    looks.node.trans stands.node⟩

/-- A namespace of which everything was learned, whether it is pulled or not. -/
theorem visit (stands : CaughtTo names dir c stores node db) (now : DateTime) (full : Bool) {peer : Mirror} {name : String}
    (reads : stores.wants name = true → peer.Reads name) (known : stores.wants name = true → ∀ e ∈ peer.offered name, names.used (shardOf name) ∧ c.Learned node ⟨name, e.1, e.2⟩)
    (report : CaughtUp) :
    CaughtTo names dir c stores node (CaughtUp.visit (.sound names dir now) full peer (db, report) name).1 ∧
      (CaughtUp.visit (.sound names dir now) full peer (db, report) name).2.merged = report.merged := by
  rw [CaughtUp.visit]
  dsimp only
  by_cases aside : (!db.holds name || isInternal name) = true
  · rw [if_pos aside]
    exact ⟨stands, rfl⟩
  · rw [if_neg aside]
    have wanted : stores.wants name = true := by
      rw [Bool.or_eq_true, not_or] at aside
      rw [StoragePolicy.wants, ← stands.stores]
      simpa [Database.holds] using aside
    have asked : CaughtTo names dir c stores node
        (if full then (db, true) else SightingDB.behindOn db (.sound names dir now) peer name).1 := by
      cases full with
      | true => exact stands
      | false => exact stands.behindOn now peer name
    generalize (if full then (db, true) else SightingDB.behindOn db (.sound names dir now) peer name) = behind at asked ⊢
    cases behind.2 with
    | false => exact ⟨asked, rfl⟩
    | true =>
        have taken := @takeAll names dir c stores node behind.1 asked now
          ((peer.offered name).map fun e => (⟨name, e.1, e.2⟩ : Offer))
          (fun offer mem => by
            obtain ⟨e, told, rfl⟩ := List.mem_map.mp mem
            exact (known wanted e told).1)
          (fun offer mem => by
            obtain ⟨e, told, rfl⟩ := List.mem_map.mp mem
            exact (known wanted e told).2) 0
        rw [if_pos rfl, pullNamespace_eq (reads wanted)]
        exact ⟨taken.1, congrArg (report.merged + ·) taken.2⟩

theorem visits (stands : CaughtTo names dir c stores node db) (now : DateTime) (full : Bool) {peer : Mirror} {listed : List String}
    (reads : ∀ name ∈ listed, stores.wants name = true → peer.Reads name) (known : ∀ name ∈ listed, stores.wants name = true → ∀ e ∈ peer.offered name,
      names.used (shardOf name) ∧ c.Learned node ⟨name, e.1, e.2⟩) (report : CaughtUp) :
    CaughtTo names dir c stores node (listed.foldl (CaughtUp.visit (.sound names dir now) full peer) (db, report)).1 ∧
      (listed.foldl (CaughtUp.visit (.sound names dir now) full peer) (db, report)).2.merged = report.merged := by
  induction listed generalizing db report with
  | nil => exact ⟨stands, rfl⟩
  | cons name rest ih =>
      obtain ⟨next, same⟩ := stands.visit now full (reads name List.mem_cons_self) (known name List.mem_cons_self) report
      obtain ⟨last, rest_⟩ := ih next (fun name mem => reads name (List.mem_cons_of_mem _ mem)) (fun name mem => known name (List.mem_cons_of_mem _ mem)) _
      exact ⟨last, rest_.trans same⟩

/-- A pass over peers that tell nothing new. -/
theorem pass (stands : CaughtTo names dir c stores node db) (now : DateTime) (full : Bool) {peers : List Mirror}
    (walkable : ∀ peer ∈ peers, peer.Walkable stores)
    (known : ∀ offer ∈ peers.flatMap (·.tells stores), names.used (shardOf offer.name) ∧ c.Learned node offer) :
    CaughtTo names dir c stores node (catchUp db (.sound names dir now) peers full).1 ∧
      (catchUp db (.sound names dir now) peers full).2.merged = 0 := by
  have whole : ∀ (report : CaughtUp) (db : Database), CaughtTo names dir c stores node db →
      CaughtTo names dir c stores node (peers.foldl (CaughtUp.visitPeer (.sound names dir now) full) (db, report)).1 ∧
        (peers.foldl (CaughtUp.visitPeer (.sound names dir now) full) (db, report)).2.merged = report.merged := by
    induction peers with
    | nil => exact fun _ _ stands => ⟨stands, rfl⟩
    | cons peer rest ih =>
        intro report db stands
        have here : CaughtTo names dir c stores node (CaughtUp.visitPeer (.sound names dir now) full (db, report) peer).1 ∧
            (CaughtUp.visitPeer (.sound names dir now) full (db, report) peer).2.merged = report.merged := by
          rw [CaughtUp.visitPeer]
          cases up : peer.down with
          | true => exact ⟨stands, rfl⟩
          | false =>
              refine stands.visits now full (walkable peer List.mem_cons_self up) (fun name listed wanted e offered => ?_) report
              have told : (⟨name, e.1, e.2⟩ : Offer) ∈ peer.tells stores :=
                Mirror.mem_tells.mpr ⟨up, listed, wanted, offered⟩
              exact known ⟨name, e.1, e.2⟩ (List.mem_flatMap.mpr ⟨peer, List.mem_cons_self, told⟩)
        obtain ⟨last, same⟩ := ih (fun peer mem => walkable peer (List.mem_cons_of_mem _ mem)) (fun offer told => by
          obtain ⟨peer', asked, told⟩ := List.mem_flatMap.mp told
          exact known offer (List.mem_flatMap.mpr ⟨peer', List.mem_cons_of_mem _ asked, told⟩)) _ _ here.1
        exact ⟨last, same.trans here.2⟩
  exact whole ⟨0, 0⟩ db stands

end CaughtTo

section LaterPasses

variable {names : ShardFiles} {dir : Dir} {db : Database} {exempt : String → Prop} {now : DateTime}

/-- One more pass, and how many values it changed in all. -/
def laterPass (names : ShardFiles) (dir : Dir) (acc : Database × Nat) (later : DateTime × List Mirror × Bool) : Database × Nat :=
  let passed := catchUp acc.1 (.sound names dir later.1) later.2.1 later.2.2
  (passed.1, acc.2 + passed.2.merged)

end LaterPasses

/-! ## The loop -/

/-- `sync` between two naps: the store, whether the next pass is the first, and whether reads are
to be served elsewhere. -/
structure Syncing where
  db : Database
  first : Bool
  catchingUp : Bool

/-- What a turn of the loop finds: what was done to the store during the nap, the clock and files,
and the enabled peers. -/
structure Turn where
  meanwhile : Database → Database
  w : World
  peers : List Mirror

namespace Syncing

/-- The start of a server that is in a galaxy. -/
def start (syncInterval : Nat) (db : Database) (peers : List Mirror) : Syncing :=
  ⟨db, true, !(syncInterval = 0 || peers.isEmpty)⟩

/-- One turn. With nobody to ask there is no pass. -/
def turn (s : Syncing) (t : Turn) : Syncing :=
  let db := t.meanwhile s.db
  if t.peers.isEmpty then { s with db := db }
  else ⟨(catchUp db t.w t.peers s.first).1, false, if s.first then false else s.catchingUp⟩

/-- The loop, which is not entered when catching up is switched off. -/
def run (syncInterval : Nat) (s : Syncing) (turns : List Turn) : Syncing :=
  if syncInterval = 0 then s else turns.foldl turn s

/-- What the peers of a turn offer is known. -/
def Caught (names : ShardFiles) (dir : Dir) (s : Syncing) (peers : List Mirror) : Prop :=
  ∀ peer ∈ peers, peer.down = false → ∀ name ∈ peer.names, s.db.holds name = true → isInternal name = false →
    ∀ e ∈ peer.offered name, (Contents.cell (held names dir s.db) name e.1).Covers e.2 s.db.node

/-- The store a turn works on agrees with its directory, and the namespaces of the peers can be
walked. -/
def Sound (names : ShardFiles) (dir : Dir) (s : Syncing) (t : Turn) : Prop :=
  (∃ now, t.w = .sound names dir now) ∧ Consistent names dir (fun _ => True) (t.meanwhile s.db) ∧
    (∀ peer ∈ t.peers, peer.Walkable (t.meanwhile s.db).stores) ∧
    ∀ offer ∈ t.peers.flatMap (·.tells (t.meanwhile s.db).stores), names.used (shardOf offer.name)

variable {names : ShardFiles} {dir : Dir} {s : Syncing}

theorem turn_idle {t : Turn} (alone : t.peers = []) :
    (s.turn t).first = s.first ∧ (s.turn t).catchingUp = s.catchingUp := by
  rw [turn, alone]
  exact ⟨rfl, rfl⟩

theorem turn_first {t : Turn} (first : s.first = true) (some_ : t.peers ≠ []) (sound : Sound names dir s t) :
    (s.turn t).catchingUp = false ∧ (s.turn t).Caught names dir t.peers := by
  obtain ⟨⟨now, here⟩, consistent, walkable, used⟩ := sound
  rw [turn, if_neg (by simpa using some_), first, here]
  refine ⟨rfl, fun peer asked up name listed stored outside e offered => ?_⟩
  have all := catchUp_full (w := .sound names dir now) t.peers (t.meanwhile s.db) walkable
  have does := Offer.takeAll_does (t.peers.flatMap (·.tells (t.meanwhile s.db).stores)) consistent now used 0
  have stores := congrArg Prod.snd (@Offer.settings_takeIn (.sound names dir now)
    (t.peers.flatMap (·.tells (t.meanwhile s.db).stores)) (t.meanwhile s.db) 0)
  dsimp only at all stored ⊢
  have here : (t.meanwhile s.db).holds name = true := by
    rw [all] at stored
    rw [Database.holds] at stored ⊢
    exact (congrArg (StoragePolicy.holds · name) stores).symm.trans stored
  have covered := full_pass_known consistent now walkable used asked up listed here outside offered
  rw [all] at covered ⊢
  rwa [← does.node] at covered

theorem turns_first {turns : List Turn} (alone : ∀ t ∈ turns, t.peers = []) :
    (turns.foldl turn s).first = s.first ∧ (turns.foldl turn s).catchingUp = s.catchingUp := by
  induction turns generalizing s with
  | nil => exact ⟨rfl, rfl⟩
  | cons t rest ih =>
      obtain ⟨first, flag⟩ := turn_idle (s := s) (alone t List.mem_cons_self)
      obtain ⟨later, same⟩ := ih (s := s.turn t) (fun t mem => alone t (List.mem_cons_of_mem _ mem))
      exact ⟨later.trans first, same.trans flag⟩

/-- Once reads are served here they go on being served here. -/
theorem turns_served {turns : List Turn} (served : s.catchingUp = false) : (turns.foldl turn s).catchingUp = false := by
  induction turns generalizing s with
  | nil => exact served
  | cons t rest ih =>
      apply ih
      rw [turn]
      split
      · exact served
      · simp [served]

end Syncing

end SightingDB
