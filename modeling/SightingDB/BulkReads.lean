import SightingDB.ReadRoutes
import SightingDB.Lib.Grouping

/-!
A batch that is read here and from several mirrors at once. Every item is answered once, at its
own place: by this server, or by the entry at its place in the one sub-batch it went out with.
-/
namespace SightingDB

/-! ## One step for each item -/

section

variable {σ α β : Type*} (step : α → σ → σ × β)

theorem Steps.length_each (l : List α) (s : σ) : (Steps.each step l s).2.length = l.length := by
  induction l generalizing s with
  | nil => rfl
  | cons a rest ih => exact congrArg (· + 1) (ih _)

/-- Each answer is given in the state the members before it have left. -/
theorem Steps.each_getElem? (l : List α) (s : σ) (i : Nat) :
    (Steps.each step l s).2[i]? = l[i]?.map fun a => (step a (Steps.each step (l.take i) s).1).2 := by
  induction l generalizing s i with
  | nil => rfl
  | cons a rest ih =>
      cases i with
      | zero => rfl
      | succ i => exact ih (step a s).1 i

end

namespace Service

variable (service : Service) (headers : Headers) (withStats : Bool) (items : List BulkSighting)

/-- How many more hops a batch may take. -/
def batchHops : Option Nat := service.site.galaxy.bind fun galaxy => headers.hopsLeft galaxy.maxHops

/-- Where to look for an item that is not kept here. -/
def farFrom (item : BulkSighting) : Option Galaxy :=
  if service.site.elsewhere item.namespace_ then service.site.galaxy else none

/-- The mirror an item is sent to, if it is sent to one. -/
def mirrorOf (item : BulkSighting) : Option String :=
  match service.farFrom item with
  | none => none
  | some galaxy =>
      if service.batchHops headers = none then none
      else (galaxy.readerUrl service.weigh item.namespace_ item.value).toOption

/-- Whether an item goes to a mirror. -/
def goesTo (url : String) (item : BulkSighting) : Bool := service.mirrorOf headers item = some url

/-- What a mirror is asked: the items it was chosen for, in order. -/
def subBatch (url : String) : List BulkSighting :=
  (items.filter (service.goesTo headers url)).map fun item => { item with noshadow := true }

/-- What a mirror answered, item by item, if it can be read. -/
def subAnswer (url : String) : Option (List Json) :=
  service.site.galaxy.bind fun galaxy =>
    match service.forwardTo galaxy url (.readBulk withStats (service.subBatch headers items url))
      ((service.batchHops headers).getD 0) (service.site.originToSend headers) with
    | .ok answer => answer.body.bind fun body => (body.get "items").bind Json.asArray
    | .error _ => none

/-- How many of the first `i` items go to a mirror. -/
def placeIn (url : String) (i : Nat) : Nat := (items.take i).countP (service.goesTo headers url)

/-- The store as the first `i` items leave it. -/
def storeAt (db : Database) (i : Nat) : Database :=
  (Steps.each (service.place withStats (service.batchHops headers)) (items.take i) db).1

/-- What the item at a place should be answered. -/
def answerAt (db : Database) (i : Nat) (item : BulkSighting) : ItemAnswer :=
  match service.farFrom item with
  | none => (service.readHere withStats item (service.storeAt headers withStats items db i)).2
  | some galaxy =>
      if service.batchHops headers = none then .message ForwardError.tooManyHops.text
      else match galaxy.readerUrl service.weigh item.namespace_ item.value with
        | .error e => .message e.text
        | .ok url => match (service.subAnswer headers withStats items url).bind
              (·[service.placeIn headers items url i]?) with
            | some entry => .relayed entry
            | none => .message ("No answer from " ++ url ++ " for this item.")

/-- The indices left to mirrors, by URL. -/
def batchGroups (db : Database) : List (String × List Nat) :=
  grouped (Steps.each (service.place withStats (service.batchHops headers)) items db).2

/-! ## Where an item goes -/

variable {service headers withStats items}

theorem place_eq (item : BulkSighting) (db : Database) : service.place withStats (service.batchHops headers) item db =
    match service.farFrom item with
    | none => ((service.readHere withStats item db).1, .answered (service.readHere withStats item db).2)
    | some galaxy =>
        if service.batchHops headers = none then (db, .answered (.message ForwardError.tooManyHops.text))
        else match galaxy.readerUrl service.weigh item.namespace_ item.value with
          | .ok url => (if item.noshadow then db else service.recordSearch item.namespace_ item.value db, .at_ url)
          | .error e => (db, .answered (.message e.text)) := rfl

/-- The URL an item is left at. -/
def Placed.url : Placed → Option String
  | .answered _ => none
  | .at_ url => some url

theorem url_place (item : BulkSighting) (db : Database) :
    (service.place withStats (service.batchHops headers) item db).2.url = service.mirrorOf headers item := by
  rw [place_eq, mirrorOf]
  cases service.farFrom item with
  | none => rfl
  | some galaxy =>
      dsimp only
      by_cases out : service.batchHops headers = none
      · rw [if_pos out, if_pos out]
        rfl
      · rw [if_neg out, if_neg out]
        cases galaxy.readerUrl service.weigh item.namespace_ item.value <;> rfl

/-- The items as they are placed. -/
def placed (service : Service) (headers : Headers) (withStats : Bool) (items : List BulkSighting) (db : Database) : List Placed :=
  (Steps.each (service.place withStats (service.batchHops headers)) items db).2

theorem placed_getElem? (db : Database) (i : Nat) : (service.placed headers withStats items db)[i]? =
    items[i]?.map fun item => (service.place withStats (service.batchHops headers) item (service.storeAt headers withStats items db i)).2 :=
  Steps.each_getElem? _ items db i

theorem length_placed (db : Database) : (service.placed headers withStats items db).length = items.length :=
  Steps.length_each _ items db

/-- The mirror of the item at a place. -/
def keyAt (service : Service) (headers : Headers) (items : List BulkSighting) (i : Nat) : Option String :=
  items[i]?.bind (service.mirrorOf headers)

theorem keyAt_eq (i : Nat) (url : String) :
    decide (service.keyAt headers items i = some url) = items[i]?.any (service.goesTo headers url) := by
  rw [keyAt]
  cases items[i]? <;> rfl

theorem batchGroups_spec (db : Database) : Grouping.Grouped (service.keyAt headers items) (List.range items.length)
    (service.batchGroups headers withStats items db) := by
  have folded : service.batchGroups headers withStats items db =
      (List.range items.length).foldl (fun groups i => (service.keyAt headers items i).elim groups (Grouping.into groups · i)) [] := by
    have indices : (service.placed headers withStats items db).zipIdx.map Prod.snd = List.range items.length := by
      rw [List.zipIdx_map_snd, length_placed, List.range_eq_range']
    rw [← indices, List.foldl_map, batchGroups, grouped]
    refine List.foldl_ext _ _ _ fun groups entry member => ?_
    obtain ⟨placed_, i⟩ := entry
    have here : (service.placed headers withStats items db)[i]? = some placed_ := List.mem_zipIdx_iff_getElem?.mp member
    rw [placed_getElem?] at here
    obtain ⟨item, at_, rfl⟩ := Option.map_eq_some_iff.mp here
    have key : service.keyAt headers items i =
        (service.place withStats (service.batchHops headers) item (service.storeAt headers withStats items db i)).2.url := by
      rw [keyAt, at_, url_place]
      rfl
    dsimp only
    rw [key]
    cases (service.place withStats (service.batchHops headers) item (service.storeAt headers withStats items db i)).2 <;> rfl
  rw [folded]
  exact Grouping.grouped_foldl _

/-! ## Sub-batches -/

section

variable {α : Type}

/-- The members a predicate accepts, found by their indices. -/
theorem filterMap_indices (p : α → Bool) (l : List α) :
    ((List.range l.length).filter fun i => l[i]?.any p).filterMap (l[·]?) = l.filter p := by
  induction l using List.reverseRecOn with
  | nil => rfl
  | append_singleton rest a ih =>
      have before : ∀ i ∈ List.range rest.length, (rest ++ [a])[i]? = rest[i]? := fun i member =>
        List.getElem?_append_left (List.mem_range.mp member)
      rw [List.length_append, List.length_singleton, List.range_succ, List.filter_append, List.filterMap_append, List.filter_append]
      refine congrArg₂ (· ++ ·) ?_ ?_
      · rw [← ih, List.filter_congr fun i member => by rw [before i member]]
        exact List.filterMap_congr fun i member => before i (List.mem_of_mem_filter member)
      · cases kept : p a <;> simp [kept]

theorem countP_indices (p : α → Bool) (l : List α) (i : Nat) (le : i ≤ l.length) :
    (List.range i).countP (fun j => l[j]?.any p) = (l.take i).countP p := by
  induction i with
  | zero => rfl
  | succ i ih =>
      rw [List.range_succ, List.countP_append, ih (Nat.le_of_succ_le le), List.take_add_one, List.countP_append,
        List.getElem?_eq_getElem le]
      simp [List.countP_singleton, List.getElem?_eq_getElem le]

/-- Where an index stands among those a predicate accepts. -/
theorem filter_range_getElem? (q : Nat → Bool) {n i : Nat} (lt : i < n) (kept : q i = true) :
    ((List.range n).filter q)[(List.range i).countP q]? = some i := by
  have parted : List.range n = List.range i ++ i :: (List.range n).drop (i + 1) := by
    have whole := List.take_append_drop i (List.range n)
    rw [List.take_range, min_eq_left lt.le, List.drop_eq_getElem_cons (by simpa using lt), List.getElem_range] at whole
    exact whole.symm
  rw [parted, List.filter_append, List.filter_cons_of_pos kept, List.countP_eq_length_filter,
    List.getElem?_append_right le_rfl, Nat.sub_self]
  rfl

theorem find?_eq_of_unique {l : List α} {p : α → Bool} {a : α} (member : a ∈ l) (kept : p a = true)
    (unique : ∀ b ∈ l, p b = true → b = a) : l.find? p = some a := by
  cases found : l.find? p with
  | none => exact absurd kept (by simpa using List.find?_eq_none.mp found a member)
  | some b => rw [unique b (List.mem_of_find?_eq_some found) (List.find?_some found)]

end

/-- What goes out to a mirror. -/
theorem sent_eq {db : Database} {group : String × List Nat} (member : group ∈ service.batchGroups headers withStats items db) :
    (group.2.filterMap fun index => items[index]?.map fun item => { item with noshadow := true }) =
      service.subBatch headers items group.1 := by
  have pushed : ∀ indices : List Nat, (indices.filterMap fun index => items[index]?.map fun item : BulkSighting => { item with noshadow := true }) =
      (indices.filterMap (items[·]?)).map fun item => { item with noshadow := true } := fun indices => by
    rw [List.map_filterMap]
  rw [(batchGroups_spec db).whole group member, pushed, subBatch]
  simp only [keyAt_eq]
  exact congrArg _ (filterMap_indices _ items)

theorem mem_group {db : Database} {group : String × List Nat} (member : group ∈ service.batchGroups headers withStats items db)
    {i : Nat} : i ∈ group.2 ↔ i < items.length ∧ service.keyAt headers items i = some group.1 := by
  rw [(batchGroups_spec db).whole group member, List.mem_filter, List.mem_range, decide_eq_true_iff]

/-- Where an index stands in its group. -/
theorem placeIn_group {db : Database} {group : String × List Nat} (member : group ∈ service.batchGroups headers withStats items db)
    {i : Nat} (here : i ∈ group.2) : group.2[service.placeIn headers items group.1 i]? = some i := by
  obtain ⟨lt, key⟩ := (mem_group member).mp here
  have place := filter_range_getElem? (fun j => decide (service.keyAt headers items j = some group.1)) lt (decide_eq_true key)
  simp only [keyAt_eq] at place
  rw [countP_indices _ _ _ lt.le] at place
  rw [(batchGroups_spec db).whole group member]
  simp only [keyAt_eq]
  exact place

theorem group_nodup {db : Database} {group : String × List Nat} (member : group ∈ service.batchGroups headers withStats items db) :
    group.2.Nodup := by
  rw [(batchGroups_spec db).whole group member]
  exact List.nodup_range.filter _

/-! ## The answers -/

/-- What the item at a place of a sub-batch is answered. -/
def entryAt (service : Service) (headers : Headers) (withStats : Bool) (items : List BulkSighting) (url : String) (position : Nat) : ItemAnswer :=
  match (service.subAnswer headers withStats items url).bind (·[position]?) with
  | some entry => .relayed entry
  | none => .message ("No answer from " ++ url ++ " for this item.")

/-- What is brought back from the mirrors, under the indices of the batch. -/
def fetched (service : Service) (headers : Headers) (withStats : Bool) (items : List BulkSighting) (db : Database) : List (Nat × ItemAnswer) :=
  match service.site.galaxy with
  | none => []
  | some galaxy => (service.batchGroups headers withStats items db).flatMap
      (service.fetch galaxy withStats ((service.batchHops headers).getD 0) (service.site.originToSend headers) items)

theorem fetch_eq {galaxy : Galaxy} (outward : service.site.galaxy = some galaxy) {db : Database} {group : String × List Nat}
    (member : group ∈ service.batchGroups headers withStats items db) :
    service.fetch galaxy withStats ((service.batchHops headers).getD 0) (service.site.originToSend headers) items group =
      group.2.zipIdx.map fun entry => (entry.1, service.entryAt headers withStats items group.1 entry.2) := by
  rw [fetch, sent_eq member]
  refine List.map_congr_left fun entry _ => ?_
  rw [entryAt, subAnswer, outward]
  rfl

/-- An index that is left to a mirror is brought back once, from its place in the sub-batch. -/
theorem fetched_find {galaxy : Galaxy} (outward : service.site.galaxy = some galaxy) (db : Database) {i : Nat} {url : String}
    (lt : i < items.length) (key : service.keyAt headers items i = some url) :
    (service.fetched headers withStats items db).find? (·.1 = i) =
      some (i, service.entryAt headers withStats items url (service.placeIn headers items url i)) := by
  have spec := @batchGroups_spec service headers withStats items db
  obtain ⟨group, member, rfl⟩ := List.mem_map.mp (spec.covered i (List.mem_range.mpr lt) url key)
  have here : i ∈ group.2 := (mem_group member).mpr ⟨lt, key⟩
  have place := placeIn_group member here
  rw [fetched, outward]
  refine find?_eq_of_unique ?_ (decide_eq_true rfl) fun b found same => ?_
  · refine List.mem_flatMap.mpr ⟨group, member, ?_⟩
    rw [fetch_eq outward member]
    exact List.mem_map.mpr ⟨(i, service.placeIn headers items group.1 i), List.mem_zipIdx_iff_getElem?.mpr place, rfl⟩
  · obtain ⟨other, member', inside⟩ := List.mem_flatMap.mp found
    rw [fetch_eq outward member'] at inside
    obtain ⟨⟨j, position⟩, entry, rfl⟩ := List.mem_map.mp inside
    obtain rfl : j = i := of_decide_eq_true same
    have at_ : other.2[position]? = some j := List.mem_zipIdx_iff_getElem?.mp entry
    -- One index has one mirror, one mirror one group, and a group the index once.
    have url : other.1 = group.1 := by
      have theirs := ((mem_group member').mp (List.mem_of_getElem? at_)).2
      exact Option.some.inj (theirs.symm.trans key)
    obtain rfl : other = group := List.inj_on_of_nodup_map spec.apart member' member url
    obtain ⟨within, -⟩ := List.getElem?_eq_some_iff.mp at_
    obtain rfl : position = service.placeIn headers items other.1 j :=
      (List.getElem?_inj within (group_nodup member)).mp (at_.trans place.symm)
    rfl

theorem readBulk_eq (allowed : ∀ item ∈ items, service.authorize headers item.namespace_ = none) (db : Database) :
    (service.readBulk headers withStats items db).2 = .items ((service.placed headers withStats items db).zipIdx.map fun entry =>
      match entry.1 with
      | .answered answer => answer
      | .at_ _ => (((service.fetched headers withStats items db).find? (·.1 = entry.2)).map (·.2)).getD (.message "No answer for this item.")) := by
  have open_ : (items.findSome? fun item => service.authorize headers item.namespace_) = none :=
    List.findSome?_eq_none_iff.mpr allowed
  rw [readBulk, open_]
  rfl

/-- A batch the key may read is answered item by item, in order. An item kept here, or asked of a
server with no galaxy, is read here at its turn; one with a mirror gets the entry at its place in
what that mirror was sent, if the answer has one, and an error otherwise. Each mirror is sent the
items it was chosen for, in one sub-batch, and nobody else is sent them. -/
theorem bulk_read_aligned (allowed : ∀ item ∈ items, service.authorize headers item.namespace_ = none) (db : Database) :
    (∃ answers, (service.readBulk headers withStats items db).2 = .items answers ∧ answers.length = items.length ∧
      ∀ i item, items[i]? = some item → answers[i]? = some (service.answerAt headers withStats items db i item)) ∧
    (∀ (i : Nat) item url, items[i]? = some item → service.mirrorOf headers item = some url →
      url ∈ (service.batchGroups headers withStats items db).map Prod.fst) ∧
    ((service.batchGroups headers withStats items db).map Prod.fst).Nodup ∧
    ∀ group ∈ service.batchGroups headers withStats items db, group.2.Nodup ∧
      (group.2.filterMap fun index => items[index]?.map fun item => { item with noshadow := true }) =
        service.subBatch headers items group.1 ∧
      ∀ i item, items[i]? = some item → (i ∈ group.2 ↔ service.mirrorOf headers item = some group.1) := by
  refine ⟨⟨_, readBulk_eq allowed db, ?_, fun i item at_ => ?_⟩, fun i item url at_ goes => ?_, (batchGroups_spec db).apart,
    fun group member => ⟨group_nodup member, sent_eq member, fun i item at_ => ?_⟩⟩
  · rw [List.length_map, List.length_zipIdx, length_placed]
  · rw [List.getElem?_map, List.getElem?_zipIdx, placed_getElem?, at_]
    simp only [Option.map_some, Nat.zero_add]
    have goes := @url_place service headers withStats item (service.storeAt headers withStats items db i)
    rw [place_eq] at goes ⊢
    rw [answerAt]
    cases far : service.farFrom item with
    | none => rfl
    | some galaxy =>
        rw [far] at goes
        dsimp only at goes ⊢
        by_cases out : service.batchHops headers = none
        · rw [if_pos out, if_pos out]
        · rw [if_neg out] at goes
          rw [if_neg out, if_neg out]
          cases reader : galaxy.readerUrl service.weigh item.namespace_ item.value with
          | error e => rfl
          | ok url =>
              rw [reader] at goes
              have key : service.keyAt headers items i = some url := by
                rw [keyAt, at_]
                exact goes.symm
              have outward : service.site.galaxy = some galaxy := by
                rw [farFrom] at far
                split_ifs at far
                exact far
              dsimp only
              rw [fetched_find outward db (List.getElem?_eq_some_iff.mp at_).1 key]
              rfl
  · refine (batchGroups_spec db).covered i (List.mem_range.mpr (List.getElem?_eq_some_iff.mp at_).1) url ?_
    rw [keyAt, at_]
    exact goes
  · rw [mem_group member, keyAt, at_]
    exact and_iff_right (List.getElem?_eq_some_iff.mp at_).1

theorem urls_apart : ([(⟨"http://a", "p", ⟨["a"], false⟩, true⟩ : Peer), ⟨"http://b", "q", ⟨["b"], false⟩, true⟩].map (·.url)).Nodup := by
  decide

/-- A router before two mirrors, the first of which answers short. -/
def router : Service where
  site := ⟨⟨[], false⟩, "router", false, ⟨∅⟩,
    some ⟨[⟨"http://a", "p", ⟨["a"], false⟩, true⟩, ⟨"http://b", "q", ⟨["b"], false⟩, true⟩], defaultMaxHops,
      fun _ => false, fun _ => false, urls_apart, defaultMaxHops_pos⟩⟩
  settings := ⟨⟨[], none⟩, .default⟩
  crates := ⟨id, fun _ => false, fun _ => "", fun _ => none⟩
  weigh _ _ := 0
  outside := ⟨fun url _ _ _ => .ok ⟨200, [], some (.obj [("items", .arr (if url = "http://a" then [.int 1] else [.int 2]))])⟩,
    fun _ _ => none, fun _ => none⟩
  latest := .default
  world := .sample

/-- Looked up without a shadow. -/
def lookFor (name : String) : BulkSighting := ⟨name, "v", none, none, "", true⟩

theorem bulk_read_aligned_router : ∃ answers,
    (router.readBulk ⟨none, .absent, none⟩ false [lookFor "a/x", lookFor "b/x", lookFor "a/y", lookFor "c"]
      (.withNode ⟨0, 0⟩ ⟨[], false⟩ "router")).2 = .items answers ∧ answers.length = 4 ∧
    answers[0]? = some (.relayed (.int 1)) ∧ answers[1]? = some (.relayed (.int 2)) ∧
    answers[2]? = some (.message "No answer from http://a for this item.") ∧
    answers[3]? = some (.message "no server in this galaxy stores that namespace") := by
  have allowed : ∀ item ∈ [lookFor "a/x", lookFor "b/x", lookFor "a/y", lookFor "c"],
      router.authorize ⟨none, .absent, none⟩ item.namespace_ = none := fun item _ => rfl
  obtain ⟨⟨answers, response, length, each⟩, -⟩ := @bulk_read_aligned router ⟨none, .absent, none⟩ false _ allowed
    (.withNode ⟨0, 0⟩ ⟨[], false⟩ "router")
  exact ⟨answers, response, length, each 0 _ rfl, each 1 _ rfl, each 2 _ rfl, each 3 _ rfl⟩

end Service

end SightingDB
