import SightingDB.PeerReads
import SightingDB.RestatedTally
import Mathlib.Data.Finset.Card

/-!
Rebuilding the tally in `_all` by asking the peers. Each namespace is walked once, at the
first peer that lists it, and what the server itself stores is not asked for.
-/
namespace SightingDB

/-- The namespaces found to hold each value. -/
abbrev Holders := OrderedMap String Names

namespace Holders

def note (name : String) (holders : Holders) (value : String) : Holders :=
  holders.insert value (((holders.get value).getD ∅).insert name ())

/-- Walk the pages of one namespace. An answer that is an error ends the walk, and one that is no
answer or no page ends it all; `fuel` bounds the pages. -/
def walk (m : Mirror) (name : String) : Nat → Nat → Holders → Except ForwardError Holders
  | 0, _, holders => .ok holders
  | fuel + 1, offset, holders =>
      match m.ask (mergePath name offset) with
      | .error e => .error e
      | .ok .error => .ok holders
      | .ok (.page page) =>
          let holders := page.items.foldl (fun holders item => note name holders item.1) holders
          let offset := offset + page.items.length
          if page.items.length = 0 ∨ page.total ≤ offset then .ok holders else walk m name fuel offset holders
      | .ok _ => .error (.unreachable "no page")

/-- One namespace a peer lists, walked unless it does not count or was seen. -/
def visit (m : Mirror) (acc : Names × Holders) (name : String) : Except ForwardError (Names × Holders) :=
  if !countsTowardsConsensus name then .ok acc
  else if acc.1.contains name then .ok acc
  else (walk m name (m.pages name) 0 acc.2).map (acc.1.insert name (), ·)

/-- All that one peer lists. -/
def visitPeer (acc : Names × Holders) (peer : Mirror) : Except ForwardError (Names × Holders) :=
  if peer.down then .error (.unreachable "no answer") else peer.names.foldlM (visit peer) acc

end Holders

/-- What one reconciliation found. -/
structure Reconciled where
  namespaces : Nat
  values : Nat
  corrected : Nat
  deriving DecidableEq

/-- `rebuild_consensus` over the enabled peers. A peer that does not answer ends it before
anything is changed. -/
def rebuildConsensus (db : Database) (w : World) (peers : List Mirror) : Except ForwardError (Database × Reconciled) :=
  match peers.foldlM Holders.visitPeer (∅, ∅) with
  | .error e => .error e
  | .ok (seen, holders) =>
      let (db, corrected) := db.setConsensus w holders
      .ok (db, ⟨seen.size, holders.size, corrected⟩)

/-- How many namespaces that count some servers offer a value in. -/
def heldIn (servers : List Mirror) (value : String) : Nat :=
  ((servers.flatMap (·.names)).dedup.filter fun name =>
    countsTowardsConsensus name && servers.any (·.offers name value)).length

/-- The server that surveys, asked about what it stores. -/
def Mirror.self (db : Database) (w : World) : Mirror := ⟨.strict, db, w, fun _ => true, false, false⟩

/-! ## One namespace -/

namespace Holders

variable {m : Mirror} {name : String} {holders : Holders}

/-- Whether a value was found in a namespace. -/
def Found (holders : Holders) (value name : String) : Prop := ((holders.get value).getD ∅).contains name = true

theorem found_note {value value' name' : String} :
    (holders.note name value).Found value' name' ↔ value' = value ∧ name' = name ∨ holders.Found value' name' := by
  rw [Found, Found, note, OrderedMap.get_insert]
  by_cases same : value' = value
  · subst same
    by_cases here : name' = name
    · simp [here, OrderedMap.contains]
    · simp [here, OrderedMap.contains, OrderedMap.get_insert]
  · simp [same]

theorem found_notes {values : List String} {value name' : String} :
    (values.foldl (note name) holders).Found value name' ↔ value ∈ values ∧ name' = name ∨ holders.Found value name' := by
  induction values generalizing holders with
  | nil => simp
  | cons v rest ih =>
      rw [List.foldl_cons, ih, found_note, List.mem_cons]
      tauto

/-- A walk with a page to spare meets every value from its start on. -/
theorem walk_eq (reads : m.Reads name) (fuel offset : Nat) (within : offset ≤ (m.offered name).length)
    (enough : (m.offered name).length - offset < fuel) :
    walk m name fuel offset holders = .ok (((m.live name).drop offset).foldl (note name) holders) := by
  induction fuel generalizing offset holders with
  | zero => omega
  | succ fuel ih =>
      have names (items : List (String × Merge)) : items.foldl (fun holders item => note name holders item.1) holders =
          (items.map (·.1)).foldl (note name) holders := (List.foldl_map ..).symm
      rw [walk, Mirror.live, ← List.map_drop]
      rcases reads.ask_page within with ⟨refused, none⟩ | answered
      · rw [refused, none]
        simp
      · rw [answered]
        simp only [List.length_take, List.length_drop, names]
        by_cases last : min 500 ((m.offered name).length - offset) = 0 ∨
            (m.offered name).length ≤ offset + min 500 ((m.offered name).length - offset)
        · have short : ((m.offered name).drop offset).take 500 = (m.offered name).drop offset :=
            List.take_of_length_le (by rw [List.length_drop]; omega)
          rw [if_pos last, short]
        · have full : min 500 ((m.offered name).length - offset) = 500 := by omega
          rw [if_neg last, full, ih (offset + 500) (by omega) (by omega), Mirror.live, ← List.map_drop, ← List.foldl_append,
            ← List.map_append, ← List.drop_drop, List.take_append_drop]

/-! ## Every namespace -/

/-- A visit to a namespace, by what the peer offers in it. -/
def gather (acc : Names × Holders) (at_ : Mirror × String) : Names × Holders :=
  if !countsTowardsConsensus at_.2 then acc
  else if acc.1.contains at_.2 then acc
  else (acc.1.insert at_.2 (), (at_.1.live at_.2).foldl (note at_.2) acc.2)

/-- A name that can be asked for is read as what it is. -/
theorem visit_eq (acc : Names × Holders) (reads : countsTowardsConsensus name = true → m.Reads name) :
    visit m acc name = .ok (gather acc (m, name)) := by
  rw [visit, gather]
  cases counts : countsTowardsConsensus name with
  | false => rfl
  | true =>
      have reads := reads counts
      cases acc.1.contains name with
      | true => rfl
      | false =>
          have all : walk m name (m.pages name) 0 acc.2 = .ok (((m.live name).drop 0).foldl (note name) acc.2) :=
            walk_eq reads (m.pages name) 0 (Nat.zero_le _) (by rw [reads.pages_eq]; omega)
          rw [List.drop_zero] at all
          simp only [Bool.not_true, Bool.false_eq_true, if_false, all]
          rfl

theorem visits_eq (names : List String) (acc : Names × Holders)
    (reads : ∀ name ∈ names, countsTowardsConsensus name = true → m.Reads name) :
    names.foldlM (visit m) acc = .ok ((names.map (m, ·)).foldl gather acc) := by
  induction names generalizing acc with
  | nil => rfl
  | cons name rest ih =>
      rw [List.foldlM_cons, visit_eq acc (reads name List.mem_cons_self)]
      exact ih _ fun name mem => reads name (List.mem_cons_of_mem _ mem)

theorem visitPeers_eq (peers : List Mirror) (acc : Names × Holders) (answering : peers.any (·.down) = false)
    (askable : ∀ peer ∈ peers, peer.Askable countsTowardsConsensus) :
    peers.foldlM visitPeer acc = .ok ((peers.flatMap fun peer => peer.names.map (peer, ·)).foldl gather acc) := by
  induction peers generalizing acc with
  | nil => rfl
  | cons peer rest ih =>
      simp only [List.any_cons, Bool.or_eq_false_iff] at answering
      rw [List.foldlM_cons, visitPeer, answering.1, if_neg (by simp), visits_eq _ acc (askable peer List.mem_cons_self),
        List.flatMap_cons, List.foldl_append]
      exact ih _ answering.2 fun peer mem => askable peer (List.mem_cons_of_mem _ mem)

/-- The first to list a namespace, among some visits. -/
def firstAt (visits : List (Mirror × String)) (name : String) : Option Mirror :=
  (visits.find? (·.2 = name)).map (·.1)

theorem firstAt_concat (visits : List (Mirror × String)) (at_ : Mirror × String) (name : String) :
    firstAt (visits ++ [at_]) name = (firstAt visits name).or (if at_.2 = name then some at_.1 else none) := by
  rw [firstAt, List.find?_append, firstAt]
  cases visits.find? (·.2 = name) with
  | some found => simp
  | none =>
      by_cases here : at_.2 = name <;> simp [here]

/-- What was seen, and what was found where, after some visits. -/
structure Visited (visits : List (Mirror × String)) (acc : Names × Holders) : Prop where
  seen : ∀ name, acc.1.contains name = true ↔
    countsTowardsConsensus name = true ∧ (firstAt visits name).isSome = true
  found : ∀ value name, acc.2.Found value name ↔
    countsTowardsConsensus name = true ∧ ∃ first, firstAt visits name = some first ∧ value ∈ first.live name

theorem Visited.visit {visits : List (Mirror × String)} {acc : Names × Holders} (visited : Visited visits acc)
    (peer : Mirror) (at_ : String) : Visited (visits ++ [(peer, at_)]) (gather acc (peer, at_)) := by
  rw [gather]
  cases counts : countsTowardsConsensus at_ with
  | false =>
      have other : ∀ name, countsTowardsConsensus name = true → at_ ≠ name := by
        rintro name counted rfl
        rw [counts] at counted
        cases counted
      rw [if_pos (by simp)]
      constructor
      · intro name
        rw [visited.seen, firstAt_concat]
        exact and_congr_right fun counted => by simp [other name counted]
      · intro value name
        rw [visited.found, firstAt_concat]
        exact and_congr_right fun counted => by simp [other name counted]
  | true =>
      rw [if_neg (by simp)]
      cases before : acc.1.contains at_ with
      | true =>
          have known := ((visited.seen at_).mp before).2
          have kept : ∀ name, firstAt (visits ++ [(peer, at_)]) name = firstAt visits name := by
            intro name
            rw [firstAt_concat]
            by_cases here : at_ = name
            · subst here
              exact Option.or_of_isSome known
            · simp [here]
          rw [if_pos rfl]
          constructor
          · intro name
            rw [kept]
            exact visited.seen name
          · intro value name
            rw [kept]
            exact visited.found value name
      | false =>
          have fresh : firstAt visits at_ = none := by
            cases first : firstAt visits at_ with
            | none => rfl
            | some peer' =>
                have := (visited.seen at_).mpr ⟨counts, by simp [first]⟩
                rw [before] at this
                cases this
          rw [if_neg (by simp)]
          constructor
          · intro name
            rw [firstAt_concat]
            by_cases here : at_ = name
            · subst here
              simp [counts, OrderedMap.contains]
            · have kept : (acc.1.insert at_ ()).contains name = acc.1.contains name := by
                simp [OrderedMap.contains, OrderedMap.get_insert, Ne.symm here]
              rw [kept, visited.seen]
              simp [here]
          · intro value name
            rw [found_notes, visited.found, firstAt_concat]
            by_cases here : at_ = name
            · subst here
              simp [counts, fresh]
            · simp [here, Ne.symm here]

theorem visited (visits : List (Mirror × String)) : Visited visits (visits.foldl gather (∅, ∅)) := by
  induction visits using List.reverseRecOn with
  | nil => constructor <;> simp [firstAt, Found, OrderedMap.contains]
  | append_singleton visits at_ ih =>
      rw [List.foldl_append]
      exact ih.visit at_.1 at_.2

/-- The first visit to a namespace is at the first peer that lists it. -/
theorem firstAt_peers (peers : List Mirror) (name : String) :
    firstAt (peers.flatMap fun peer => peer.names.map (peer, ·)) name = peers.find? (name ∈ ·.names) := by
  induction peers with
  | nil => rfl
  | cons peer rest ih =>
      rw [List.flatMap_cons, firstAt, List.find?_append, List.find?_cons]
      by_cases here : name ∈ peer.names
      · have first : (peer.names.map (peer, ·)).find? (·.2 = name) = some (peer, name) := by
          rw [List.find?_map]
          cases found : peer.names.find? ((fun visit : Mirror × String => decide (visit.2 = name)) ∘ fun x => (peer, x)) with
          | none =>
              have off := List.find?_eq_none.mp found name here
              simp at off
          | some other =>
              have same : other = name := by simpa using List.find?_some found
              rw [same]
              rfl
        simp [first, here]
      · have none : (peer.names.map (peer, ·)).find? (·.2 = name) = none := by
          rw [List.find?_eq_none]
          rintro ⟨peer', other⟩ mem
          obtain ⟨x, listed, same⟩ := List.mem_map.mp mem
          obtain ⟨rfl, rfl⟩ := Prod.mk.inj same
          simpa using fun same : x = name => here (same ▸ listed)
        rw [none, Option.none_or]
        simp only [here, decide_false]
        exact ih

end Holders

/-! ## The tally put right -/

namespace Namespace

/-- Nothing in the namespace was given a lifetime, as in `_all`. -/
def Lifeless (ns : Namespace) : Prop := ∀ value attr, ns.values.get value = some attr → attr.ttl = 0

end Namespace

/-- What is read back after the tally was put right. -/
theorem count_setConsensus {db : Database} {w : World} {holders : OrderedMap String Names}
    (lifeless : (db.namespaceOrCreate w allNamespace).2.Lifeless)
    (fits : ∀ value set, holders.get value = some set → set.size < u64Size) (value : String) :
    ((db.setConsensus w holders).1.count w allNamespace value).2 = ((holders.get value).getD ∅).size :=
  setConsensus_count fits (lifeless value) w

/-- Nothing in `_all` has a lifetime where the books are kept. -/
theorem Consensus.Sound.lifeless {db : Database} {node : String} (sound : Consensus.Sound db node) (w : World) :
    (db.namespaceOrCreate w allNamespace).2.Lifeless := by
  intro value attr found
  rw [(sound.keeps.namespaceOrCreate w allNamespace).2] at found
  have entry := sound.balanced.ledger value
  cases all : db.namespaces.get allNamespace with
  | none => simp [all, Namespace.empty] at found
  | some ns =>
      rw [all, Option.getD_some] at found
      have here : allEntry db.namespaces value = some attr := by simp [allEntry, all, found]
      rw [here] at entry
      exact entry.2.2

/-! ## What a rebuild counts -/

/-- What there is to find: each namespace that counts, at the first peer that lists it. -/
def surveyed (peers : List Mirror) : Names × Holders :=
  (peers.flatMap fun peer => peer.names.map (peer, ·)).foldl Holders.gather (∅, ∅)

/-- A survey of peers that answer and can be asked for all they list finds what there is. -/
theorem rebuildConsensus_eq (db : Database) (w : World) {peers : List Mirror} (answering : peers.any (·.down) = false)
    (askable : ∀ peer ∈ peers, peer.Askable countsTowardsConsensus) :
    rebuildConsensus db w peers = .ok ((db.setConsensus w (surveyed peers).2).1,
      ⟨(surveyed peers).1.size, (surveyed peers).2.size, (db.setConsensus w (surveyed peers).2).2⟩) := by
  rw [rebuildConsensus, Holders.visitPeers_eq peers _ answering askable]
  rfl

theorem surveyed_found (peers : List Mirror) (value name : String) :
    (surveyed peers).2.Found value name ↔
      countsTowardsConsensus name = true ∧ ∃ first, peers.find? (name ∈ ·.names) = some first ∧ first.offers name value = true := by
  rw [surveyed, (Holders.visited _).found, Holders.firstAt_peers]
  refine and_congr_right fun _ => exists_congr fun first => and_congr_right fun found => ?_
  have listed : name ∈ first.names := by simpa using List.find?_some found
  simp [Mirror.offers, listed]

/-- No value is found in more namespaces than are listed. -/
theorem surveyed_fits {peers : List Mirror} (fits : (peers.flatMap (·.names)).length < u64Size) {value : String} {set : Names}
    (found : (surveyed peers).2.get value = some set) : set.size < u64Size := by
  have within : set.keys.Subperm (peers.flatMap (·.names)) := by
    refine List.subperm_of_subset (OrderedMap.keys_nodup _) fun name mem => ?_
    have here : (surveyed peers).2.Found value name := by
      rw [Holders.Found, found]
      exact OrderedMap.contains_iff.mpr (OrderedMap.mem_keys.mp mem)
    obtain ⟨_, first, listing, _⟩ := (surveyed_found peers value name).mp here
    exact List.mem_flatMap.mpr ⟨first, List.mem_of_find?_eq_some listing, by simpa using List.find?_some listing⟩
  have short := within.length_le
  rw [OrderedMap.keys, List.length_map] at short
  exact lt_of_le_of_lt short fits

theorem mem_heldIn {servers : List Mirror} {value name : String} :
    name ∈ (servers.flatMap (·.names)).dedup.filter (fun name =>
      countsTowardsConsensus name && servers.any (·.offers name value)) ↔
      countsTowardsConsensus name = true ∧ ∃ server ∈ servers, server.offers name value = true := by
  rw [List.mem_filter, List.mem_dedup, List.mem_flatMap, Bool.and_eq_true, List.any_eq_true]
  constructor
  · exact fun h => h.2
  · rintro ⟨counts, server, mem, offers⟩
    have listed : name ∈ server.names := by
      rw [Mirror.offers, Bool.and_eq_true] at offers
      simpa using offers.1
    exact ⟨⟨server, mem, listed⟩, counts, server, mem, offers⟩

/-- The namespaces found for a value are among those that offer it, and are all of them when
nothing was passed over. -/
theorem found_size (db : Database) (w : World) (peers : List Mirror) (value : String) :
    (((surveyed peers).2.get value).getD ∅).size ≤ heldIn (.self db w :: peers) value ∧
    ((((surveyed peers).2.get value).getD ∅).size = heldIn (.self db w :: peers) value ↔
      ∀ name, countsTowardsConsensus name = true →
        (∃ server ∈ Mirror.self db w :: peers, server.offers name value = true) → (surveyed peers).2.Found value name) := by
  have within : ((((surveyed peers).2.get value).getD ∅).keys).Subperm
      (((Mirror.self db w :: peers).flatMap (·.names)).dedup.filter fun name =>
        countsTowardsConsensus name && (Mirror.self db w :: peers).any (·.offers name value)) := by
    refine List.subperm_of_subset (OrderedMap.keys_nodup _) fun name mem => mem_heldIn.mpr ?_
    have found : (surveyed peers).2.Found value name := OrderedMap.contains_iff.mpr (OrderedMap.mem_keys.mp mem)
    obtain ⟨counts, first, first_, offers⟩ := (surveyed_found peers value name).mp found
    exact ⟨counts, first, List.mem_cons_of_mem _ (List.mem_of_find?_eq_some first_), offers⟩
  have size : (((surveyed peers).2.get value).getD ∅).size = (((surveyed peers).2.get value).getD ∅).keys.length := by
    simp [OrderedMap.size, OrderedMap.keys]
  rw [heldIn, size]
  refine ⟨within.length_le, fun same name counts offered => ?_, fun all => ?_⟩
  · have perm := within.perm_of_length_le same.ge
    exact OrderedMap.contains_iff.mpr (OrderedMap.mem_keys.mp (perm.mem_iff.mpr (mem_heldIn.mpr ⟨counts, offered⟩)))
  · refine le_antisymm within.length_le (List.Subperm.length_le ?_)
    refine List.subperm_of_subset ((List.nodup_dedup _).filter _) fun name mem => ?_
    obtain ⟨counts, offered⟩ := mem_heldIn.mp mem
    exact OrderedMap.mem_keys.mpr (OrderedMap.contains_iff.mp (all name counts offered))

/-- A server that stores everything and was told of some values in a namespace. -/
def serverWith (node namespace_ : String) (values : List String) : Database :=
  values.foldl (fun db value => db.write .sample namespace_ value .unixEpoch ⟨true, none⟩)
    (.withNode ⟨0, 0⟩ .storeEverything node)

/-- A server that stores a namespace of its own, beside a peer that stores another and a
mirror of it that lacks a value. -/
def frontServer : Database := serverWith "front" "here" ["v"]

def lateMirror : Mirror := .self (serverWith "late" "there" ["v"]) .sample

def fullMirror : Mirror := .self (serverWith "full" "there" ["v", "w"]) .sample

/-- A namespace whose name is an escape is listed and read as another, and one whose name cannot be
sent ends the survey. -/
theorem rebuildConsensus_misread :
    (rebuildConsensus frontServer .sample [.self (serverWith "odd" "a%62" ["w"]) .sample]).toOption.map
      (fun found => (found.1.count .sample allNamespace "w").2) = some 0 ∧
    heldIn [.self frontServer .sample, .self (serverWith "odd" "a%62" ["w"]) .sample] "w" = 1 ∧
    rebuildConsensus frontServer .sample [.self (serverWith "accents" "é" ["w"]) .sample] =
      .error (.unreachable "invalid uri character") := by
  refine ⟨by decide +kernel, by decide +kernel, ?_⟩
  decide +kernel

theorem lifeless_of_all {ns : Namespace} (all : ns.values.entries.all (·.2.ttl = 0)) : ns.Lifeless := by
  intro value attr found
  simpa using List.all_eq_true.mp all (value, attr) (OrderedMap.mem_entries.mpr found)

end SightingDB
