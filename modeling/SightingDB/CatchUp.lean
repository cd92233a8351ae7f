import SightingDB.Lib.OffsetPages
import SightingDB.PeerReads

/-!
Catching up: a peer's copy of one namespace is walked page by page and every value merged here,
while the peer goes on taking writes and this server goes on answering requests. Nothing is
missed where the paths of the pages are read as they are meant.
-/
namespace SightingDB

/-- `PAGE`. -/
def pullPage : Nat := 500

/-- How far a walk has come: where the next page starts, how many values it changed, and the
store it merges into. -/
structure Pull where
  offset : Nat
  merged : Nat
  db : Database

namespace Pull

/-- One value of a page. -/
def take (w : World) (name : String) (pull : Pull) (offer : String × Merge) : Pull :=
  let (db, outcome) := pull.db.merge w name offer.1 offer.2
  { pull with db := db, merged := if outcome.changed then pull.merged + 1 else pull.merged }

/-- One turn of the loop, and whether there is another. There is no page when the request fails
or its answer cannot be read. -/
def turn (w : World) (name : String) (pull : Pull) : Option (Page (String × Merge)) → Pull × Bool
  | none => (pull, false)
  | some page =>
      let taken := page.items.length
      let pull := page.items.foldl (take w name) pull
      let pull := { pull with offset := pull.offset + taken }
      (pull, !(taken = 0 || page.total ≤ pull.offset))

theorem foldl_take (w : World) (name : String) (offers : List (String × Merge)) (pull : Pull) :
    (offers.foldl (take w name) pull).offset = pull.offset ∧
      (offers.foldl (take w name) pull).db =
        offers.foldl (fun db offer => (db.merge w name offer.1 offer.2).1) pull.db := by
  induction offers generalizing pull with
  | nil => exact ⟨rfl, rfl⟩
  | cons offer rest ih => exact ih (pull.take w name offer)

end Pull

/-- A walk and what goes on around it: the peer as each request finds it, and what other
requests do to the local store before the answer is in. -/
structure CatchUp where
  name : String
  db : Database
  worlds : Nat → World
  meanwhile : Nat → Database → Database
  peers : Nat → Mirror

namespace CatchUp

variable (c : CatchUp)

/-- What the peer has of the namespace when it is asked for the `k`-th time. -/
def found (k : Nat) : Option Namespace :=
  if (c.peers k).answers c.name then ((c.peers k).db.namespace_ (c.peers k).w c.name).2 else none

/-- `GET /r/{namespace}?for_merge&offset=…&limit=500`. -/
def answer (k offset : Nat) : Option (Page (String × Merge)) := (c.peers k).pageAt c.name offset

/-- `pull_namespace` after `k` requests, and whether it sends another. -/
def walk : Nat → Pull × Bool
  | 0 => (⟨0, 0, c.db⟩, true)
  | k + 1 =>
      let (pull, goes) := walk k
      if goes then
        { pull with db := c.meanwhile k pull.db }.turn (c.worlds k) c.name (c.answer k pull.offset)
      else (pull, false)

/-- The values the peer shows. -/
def live (k : Nat) : List String := (c.peers k).live c.name

/-- A value is on the page that is asked for last but `k`, as the peer has it, and the whole page
is merged into the local store. -/
structure Takes (k : Nat) (value : String) : Prop where
  goes : (c.walk k).2 = true
  taken : ∃ page ns attr, c.answer k (c.walk k).1.offset = some page ∧ c.found k = some ns ∧
    ns.values.get value = some attr ∧ (value, attr.asMerge) ∈ page.items ∧
    (c.walk (k + 1)).1.db = page.items.foldl (fun db offer => (db.merge (c.worlds k) c.name offer.1 offer.2).1)
      (c.meanwhile k (c.walk k).1.db)

/-- Every page of the walk is asked for as the page of this namespace. -/
def Reads : Prop := ∀ k, (c.peers k).Reads c.name

/-- Nothing that can be seen when one page is taken is out of sight when the next is. -/
def OnlyGrows : Prop := ∀ k, (c.walk (k + 1)).2 = true → ∀ value ∈ c.live k, value ∈ c.live (k + 1)

/-! ## One page -/

theorem live_eq (k : Nat) : c.live k = (c.found k).elim [] fun ns =>
    (ns.values.entries.filter fun e => !e.2.isExpired (c.peers k).w.now).map (·.1) := by
  rw [live, Mirror.live, Mirror.offered, found]
  by_cases answers : (c.peers k).answers c.name = true
  · rw [if_pos answers, if_pos answers]
    cases ((c.peers k).db.namespace_ (c.peers k).w c.name).2 with
    | none => rfl
    | some ns => simp [Function.comp_def]
  · rw [if_neg answers, if_neg answers]
    rfl

theorem live_sorted (k : Nat) : (c.live k).Pairwise (· < ·) := by
  rw [live_eq]
  cases c.found k with
  | none => exact .nil
  | some ns => exact List.pairwise_map.mpr (ns.values.sorted.filter _)

theorem length_live (k : Nat) : (c.live k).length = ((c.peers k).offered c.name).length := by
  rw [live, Mirror.live, List.length_map]

theorem items_of_found {k : Nat} {ns : Namespace} (found : c.found k = some ns) (offset : Nat) :
    (ns.mergePage offset pullPage (c.peers k).w.now).items.map (·.1) = OffsetPages.page (c.live k) offset pullPage ∧
      (ns.mergePage offset pullPage (c.peers k).w.now).total = (c.live k).length := by
  simp [live_eq, found, Namespace.mergePage, OffsetPages.page, List.map_take, List.map_drop, Function.comp_def]

variable {c}

/-- What is answered is a page of what is live. -/
theorem answer_cases (reads : c.Reads) {k offset : Nat} (within : offset ≤ (c.live k).length) :
    (c.answer k offset = none ∧ c.live k = []) ∨
      ∃ ns, c.found k = some ns ∧ c.answer k offset = some (ns.mergePage offset pullPage (c.peers k).w.now) := by
  rw [length_live] at within
  have about : (ReadAsk.page c.name offset 500).about.any (c.peers k).answers = (c.peers k).answers c.name := rfl
  rw [answer, Mirror.pageAt, (reads k).ask_eq within, live_eq, found, Mirror.answer, about]
  by_cases answers : (c.peers k).answers c.name = true
  · rw [if_pos answers, if_pos answers, Database.mergePage]
    cases (c.peers k).db.namespace_ (c.peers k).w c.name with
    | mk db found =>
        cases found with
        | none => exact .inl ⟨rfl, rfl⟩
        | some ns => exact .inr ⟨ns, rfl, rfl⟩
  · rw [if_neg answers, if_neg answers]
    exact .inl ⟨rfl, rfl⟩

/-- A turn moves the offset past its page and goes on while there is more. -/
theorem walk_turn (reads : c.Reads) {k : Nat} (goes : (c.walk k).2 = true) (within : (c.walk k).1.offset ≤ (c.live k).length) :
    (c.walk (k + 1)).1.offset =
      (c.walk k).1.offset + (OffsetPages.page (c.live k) (c.walk k).1.offset pullPage).length ∧
    ((c.walk (k + 1)).2 = true ↔ OffsetPages.page (c.live k) (c.walk k).1.offset pullPage ≠ [] ∧
      (c.walk (k + 1)).1.offset < (c.live k).length) ∧
    ∀ value ∈ OffsetPages.page (c.live k) (c.walk k).1.offset pullPage, c.Takes k value := by
  have step : c.walk (k + 1) =
      Pull.turn (c.worlds k) c.name { (c.walk k).1 with db := c.meanwhile k (c.walk k).1.db } (c.answer k (c.walk k).1.offset) := by
    rw [walk]
    exact if_pos goes
  rcases answer_cases reads within with ⟨refused, none⟩ | ⟨ns, found, answered⟩
  · rw [step, refused, none]
    simp [Pull.turn, OffsetPages.page]
  · obtain ⟨items, total⟩ := c.items_of_found found (c.walk k).1.offset
    obtain ⟨offset, db⟩ := Pull.foldl_take (c.worlds k) c.name
      (ns.mergePage (c.walk k).1.offset pullPage (c.peers k).w.now).items
      { (c.walk k).1 with db := c.meanwhile k (c.walk k).1.db }
    have length := congrArg List.length items
    rw [List.length_map] at length
    refine ⟨?_, ?_, fun value member => ⟨goes, ?_⟩⟩
    · rw [step, answered, Pull.turn, offset, length]
    · rw [step, answered, Pull.turn, total, offset, length]
      simp [← List.length_eq_zero_iff]
    · rw [← items] at member
      obtain ⟨⟨_, payload⟩, here, rfl⟩ := List.mem_map.mp member
      obtain ⟨⟨_, attr⟩, entry, same⟩ := List.mem_map.mp here
      obtain ⟨rfl, rfl⟩ := Prod.mk.inj same
      have stored := (List.mem_filter.mp (List.mem_of_mem_drop (List.mem_of_mem_take entry))).1
      refine ⟨_, ns, attr, answered, found, OrderedMap.mem_entries.mp stored, here, ?_⟩
      rw [step, answered, Pull.turn, db]

/-! ## The whole walk -/

theorem goes_of_succ {k : Nat} (goes : (c.walk (k + 1)).2 = true) : (c.walk k).2 = true := by
  cases before : (c.walk k).2 with
  | true => rfl
  | false =>
      rw [walk] at goes
      simp [before] at goes

theorem goes_of_le {j k : Nat} (before : j ≤ k) (goes : (c.walk k).2 = true) : (c.walk j).2 = true := by
  induction k with
  | zero => exact Nat.le_zero.mp before ▸ goes
  | succ k ih =>
      rcases Nat.le_succ_iff.mp before with earlier | rfl
      · exact ih earlier (goes_of_succ goes)
      · exact goes

/-- A walk that has ended has a last turn. -/
theorem last_turn {k : Nat} (ended : (c.walk k).2 = false) :
    ∃ last < k, (c.walk last).2 = true ∧ (c.walk (last + 1)).2 = false := by
  induction k with
  | zero => exact absurd ended (by simp [walk])
  | succ k ih =>
      cases before : (c.walk k).2 with
      | true => exact ⟨k, Nat.lt_succ_self k, before, ended⟩
      | false =>
          obtain ⟨last, earlier, turn⟩ := ih before
          exact ⟨last, Nat.lt_succ_of_lt earlier, turn⟩

/-- A page starts no further back than what can be seen then. -/
theorem within (reads : c.Reads) (grows : c.OnlyGrows) {k : Nat} (goes : (c.walk k).2 = true) :
    (c.walk k).1.offset ≤ (c.live k).length := by
  induction k with
  | zero => exact Nat.zero_le _
  | succ k ih =>
      have before := goes_of_succ goes
      have inside := ((walk_turn reads before (ih before)).2.1.mp goes).2
      have kept : (c.live k).length ≤ (c.live (k + 1)).length :=
        (List.subperm_of_subset ((c.live_sorted k).imp ne_of_lt) fun value mem => grows k goes value mem).length_le
      omega

/-- The next page starts behind the last one. -/
theorem offset_lt (reads : c.Reads) (grows : c.OnlyGrows) {k : Nat} (goes : (c.walk (k + 1)).2 = true) :
    (c.walk k).1.offset < (c.walk (k + 1)).1.offset := by
  have before := goes_of_succ goes
  obtain ⟨moved, more, -⟩ := walk_turn reads before (within reads grows before)
  have some_ := List.length_pos_iff.mpr (more.mp goes).1
  omega

theorem le_offset (reads : c.Reads) (grows : c.OnlyGrows) {k : Nat} (goes : (c.walk k).2 = true) : k ≤ (c.walk k).1.offset := by
  induction k with
  | zero => exact Nat.zero_le _
  | succ k ih =>
      have behind := offset_lt reads grows goes
      have before := ih (goes_of_succ goes)
      omega

theorem takes_all (reads : c.Reads) (grows : c.OnlyGrows) {k : Nat} (ended : (c.walk k).2 = false) {value : String} (shown : value ∈ c.live 0) :
    ∃ j < k, c.Takes j value := by
  obtain ⟨last, before, goes, stops⟩ := last_turn ended
  have turn := fun j (le : j ≤ last) => walk_turn reads (goes_of_le le goes) (within reads grows (goes_of_le le goes))
  have reached : (c.live last).length ≤ (c.walk (last + 1)).1.offset := by
    obtain ⟨moved, more, -⟩ := turn last le_rfl
    by_contra short
    have through : OffsetPages.page (c.live last) (c.walk last).1.offset pullPage = [] := by
      by_contra some_
      exact absurd (more.mpr ⟨some_, not_le.mp short⟩) (by simp [stops])
    have full : ((c.live last).drop (c.walk last).1.offset).length = 0 := by
      have empty := congrArg List.length through
      rw [OffsetPages.page, List.length_take, List.length_nil] at empty
      simp only [pullPage] at empty
      omega
    rw [through] at moved
    rw [List.length_drop] at full
    simp at moved
    omega
  obtain ⟨j, le, here⟩ := @OffsetPages.met_of_end String _ c.live (fun k => (c.walk k).1.offset) pullPage c.live_sorted rfl
    last (fun j lt value => grows j (goes_of_le lt goes) value) (fun j le => (turn j le).1) reached value shown
  exact ⟨j, lt_of_le_of_lt le before, (turn j le).2.2 value here⟩

/-- A walk that never ends sees ever more values. -/
theorem ends_of_finite (reads : c.Reads) (grows : c.OnlyGrows) (few : {value | ∃ k, value ∈ c.live k}.Finite) : ∃ k, (c.walk k).2 = false := by
  by_contra never
  have goes : ∀ k, (c.walk k).2 = true := fun k => by
    cases at_ : (c.walk k).2 with
    | true => rfl
    | false => exact absurd ⟨k, at_⟩ never
  have bound : ∀ k, (c.live k).length ≤ few.toFinset.card := fun k => by
    rw [← List.toFinset_card_of_nodup ((c.live_sorted k).imp ne_of_lt)]
    refine Finset.card_le_card fun value member => ?_
    exact few.mem_toFinset.mpr ⟨k, List.mem_toFinset.mp member⟩
  have far := le_offset reads grows (goes (few.toFinset.card + 1))
  have inside := ((walk_turn reads (goes few.toFinset.card) (within reads grows (goes _))).2.1.mp (goes _)).2
  have short := bound few.toFinset.card
  omega

/-- Once the walk has ended, every value that could be seen at the start has been merged here as the
peer had it; each page starts behind the one before; and the walk ends unless ever new values come
in. -/
structure MissesNothing (c : CatchUp) : Prop where
  takes : ∀ k, (c.walk k).2 = false → ∀ value ∈ c.live 0, ∃ j < k, c.Takes j value
  moves : ∀ k, (c.walk (k + 1)).2 = true → (c.walk k).1.offset < (c.walk (k + 1)).1.offset
  ends : {value | ∃ k, value ∈ c.live k}.Finite → ∃ k, (c.walk k).2 = false

theorem missesNothing_of_reads (reads : c.Reads) (grows : c.OnlyGrows) : c.MissesNothing :=
  ⟨fun _ ended _ shown => takes_all reads grows ended shown, fun _ goes => offset_lt reads grows goes,
    ends_of_finite reads grows⟩

/-! ## Names that are read as others -/

/-- A peer with one value in one namespace, as it is read from a file. -/
def lonelyPeer (http : HttpLayer) (name : String) : Mirror where
  http := http
  db := { Database.withNode ⟨0, 0⟩ .storeEverything "there" with
    namespaces := OrderedMap.empty.insert name (Namespace.empty.record "there" "v" .unixEpoch none 0 "").1
    shards := OrderedMap.empty.insert (shardOf name) ⟨OrderedMap.empty.insert name (), true, 0⟩ }
  w := .sample
  allowed _ := true
  forwards := false
  down := false

/-- A walk over its pages. -/
def lonely (http : HttpLayer) (name : String) : CatchUp where
  name := name
  db := .withNode ⟨0, 0⟩ .storeEverything "here"
  worlds _ := .sample
  meanwhile _ db := db
  peers _ := lonelyPeer http name

section Lonely

variable {http : HttpLayer} {name : String}

/-- What it finds under any name. -/
theorem lonely_namespace (other : String) : ((lonelyPeer http name).db.namespace_ (lonelyPeer http name).w other).2 =
    if other = name then some (Namespace.empty.record "there" "v" .unixEpoch none 0 "").1 else none := by
  have found : (lonelyPeer http name).db.namespaces.get other =
      if other = name then some (Namespace.empty.record "there" "v" .unixEpoch none 0 "").1 else none :=
    OrderedMap.get_insert ..
  have resident : (lonelyPeer http name).db.shards.get (shardOf other) =
      if shardOf other = shardOf name then some ⟨OrderedMap.empty.insert name (), true, 0⟩ else none :=
    OrderedMap.get_insert ..
  have unlisted : ((lonelyPeer http name).db.touch (lonelyPeer http name).w (shardOf other)).catalogued
      (shardOf other) other = false := by
    rw [Database.touch, resident]
    by_cases here : shardOf other = shardOf name
    · rw [if_pos here]
      simp [Database.catalogued]
    · rw [if_neg here]
      simp [Database.catalogued, resident, here]
  have kept : ((lonelyPeer http name).db.touch (lonelyPeer http name).w (shardOf other)).namespaces =
      (lonelyPeer http name).db.namespaces := by
    rw [Database.touch]
    split <;> rfl
  rw [Database.namespace_]
  by_cases same : other = name
  · simp only [kept, found, if_pos same]
  · simp only [kept, found, if_neg same, unlisted, Bool.not_false, if_true]

theorem lonely_live (k : Nat) : (lonely http name).live k = ["v"] := by
  have answers : (lonelyPeer http name).answers name = true := by simp [Mirror.answers, lonelyPeer]
  have found : (lonely http name).found k = some (Namespace.empty.record "there" "v" .unixEpoch none 0 "").1 := by
    refine (if_pos answers).trans ?_
    exact (lonely_namespace name).trans (if_pos rfl)
  rw [live_eq, found]
  rfl

theorem lonely_grows : (lonely http name).OnlyGrows := by
  intro k _ value shown
  rw [lonely_live] at shown ⊢
  exact shown

theorem mergePage_none {db : Database} {w : World} {path : String} {offset limit : Nat}
    (none_ : (db.namespace_ w path).2 = none) : (db.mergePage w path offset limit).2 = none := by
  rw [Database.mergePage]
  cases found : db.namespace_ w path with
  | mk db asked =>
      rw [found] at none_
      obtain rfl : asked = none := none_
      rfl

/-- It has no page of any other namespace. -/
theorem lonely_answer {ask : ReadAsk} {page : Page (String × Merge)} (answered : (lonelyPeer http name).answer ask = .page page) :
    ask.about = some name := by
  unfold Mirror.answer at answered
  split_ifs at answered
  cases ask with
  | both => cases answered
  | page other offset limit =>
      have found := @lonely_namespace http name other
      by_cases same : other = name
      · exact congrArg some same
      · rw [if_neg same] at found
        simp only [mergePage_none found, Option.elim_none, reduceCtorEq] at answered
  | count other => cases found : ((lonelyPeer http name).db.valueCount (lonelyPeer http name).w other).2 <;> simp [found] at answered
  | payload other value =>
      cases found : ((lonelyPeer http name).db.mergePayload (lonelyPeer http name).w other value).2 <;> simp [found] at answered
  | value other value withShadow =>
      cases found : (SightingDB.read (lonelyPeer http name).db (lonelyPeer http name).w other value false withShadow).2.toOption <;>
        simp [found] at answered
  | listing other =>
      cases found : (SightingDB.readNamespace (lonelyPeer http name).db (lonelyPeer http name).w other).2.toOption <;>
        simp [found] at answered

/-- A walk over it under a name that is not safe gets no page. -/
theorem lonely_walk (astray : ¬ PathSafe http name) (k : Nat) : (lonely http name).answer 0 k = none := by
  rcases (lonelyPeer http name).pageAt_cases name k with none_ | ⟨ask, asked, page, answered, -⟩
  · exact none_
  · refine absurd ?_ astray
    rw [mergePath_eq] at asked
    exact pathSafe_of_about (mergeQuery_plain k).1 asked (lonely_answer answered)

theorem lonely_ended (astray : ¬ PathSafe http name) : ((lonely http name).walk 1).2 = false := by
  rw [walk, walk]
  change (Pull.turn _ _ _ ((lonely http name).answer 0 0)).2 = false
  rw [lonely_walk astray]
  rfl

theorem lonely_misses (astray : ¬ PathSafe http name) : ¬ ∃ j < 1, (lonely http name).Takes j "v" := by
  rintro ⟨j, first, takes⟩
  obtain rfl := Nat.lt_one_iff.mp first
  obtain ⟨page, ns, attr, answered, -⟩ := takes.taken
  rw [lonely_walk astray] at answered
  cases answered

end Lonely

/-- A peer that takes another value once it has answered. -/
def busyPeer : CatchUp where
  name := "feeds"
  db := .withNode ⟨0, 0⟩ .storeEverything "here"
  worlds _ := .sample
  meanwhile _ db := db
  peers k :=
    let before := (Database.withNode ⟨0, 0⟩ .storeEverything "there").write .sample "feeds" "v" .unixEpoch .default
    let db := if k = 0 then before else before.write .sample "feeds" "a" .unixEpoch .default
    ⟨.strict, db, .sample, fun _ => true, false, false⟩

theorem roomy_strict {name : String} (short : HttpLayer.strict.Short (mergePath name (2 ^ 64))) :
    ∀ offset < 2 ^ 64, HttpLayer.strict.Short (mergePath name offset) := fun _ below => Mirror.short_of_le below.le short

end CatchUp

end SightingDB
