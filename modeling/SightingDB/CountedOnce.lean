import SightingDB.BulkAccess
import SightingDB.Consensus

/-!
How often one write is counted. Every copy that a server takes raises the value's total
there by one, and a server takes a copy for every way on which the request comes to it.
-/
namespace SightingDB

/-! ## What one sighting adds -/

theorem sighted_count (a : Attribute) (node : String) (when : DateTime) (ttl : Option Nat) (retention : Nat)
    (tags : String) : (a.sighted node when ttl retention tags).count = (a.count + 1) % u64Size := by
  rw [Attribute.sighted_eq, Attribute.count, Attribute.count, Attribute.increment_counts, Attribute.addTo]
  have step := a.counts.total_insert node (((a.counts.get node).getD 0 + 1) % u64Size)
  simp only [u64Size] at step ⊢
  omega

/-- A write changes the one value, besides the tally. -/
theorem Contents.write_cell (c : Contents) (node : String) (retention : Nat) (origin path value : String)
    (when : DateTime) (consensus : Bool) (ttl : Option Nat) (tags : String) {name : String}
    (other : name ≠ allNamespace) (v : String) :
    (c.write node retention origin path value when consensus ttl tags).cell name v =
      if name = path ∧ v = value then (c.cell path value).sighted origin when ttl retention tags else c.cell name v := by
  have recorded : (c.record origin path value when ttl retention tags).cell name v =
      if name = path ∧ v = value then (c.cell path value).sighted origin when ttl retention tags else c.cell name v := by
    by_cases same : name = path
    · subst same
      by_cases same' : v = value
      · subst same'
        simp [Contents.record, Contents.cell, Contents.values, Contents.put]
      · simp [Contents.record, Contents.cell, Contents.values, Contents.put, OrderedMap.get_insert, same']
    · simp [Contents.record, Contents.cell, Contents.values, Contents.put, same]
  simp only [Contents.write]
  split
  · rw [← recorded]
    simp [Contents.tallyUp, Contents.record, Contents.cell, Contents.values, Contents.put, other]
  · exact recorded

/-- What one more sighting of a value does to the totals, besides the tally. -/
def Raises (c c' : Contents) (path value : String) : Prop :=
  ∀ name v, name ≠ allNamespace → (c'.cell name v).count =
    if name = path ∧ v = value then ((c.cell path value).count + 1) % u64Size else (c.cell name v).count

theorem Contents.write_raises (c : Contents) (node : String) (retention : Nat) (origin path value : String)
    (when : DateTime) (consensus : Bool) (ttl : Option Nat) (tags : String) :
    Raises c (c.write node retention origin path value when consensus ttl tags) path value := by
  intro name v other
  rw [c.write_cell node retention origin path value when consensus ttl tags other v]
  split
  · exact sighted_count ..
  · rfl

/-! ### Servers that find what they hold -/

section Finds

variable (names : ShardFiles) (dir : Dir) (w : World) (items : List BulkSighting)

/-- A server finds everything it holds: all of it is in memory, or its files can be read and
say what was put there. -/
def Finds (db : Database) : Prop :=
  db.AllResident ∨ (∃ now, w = .sound names dir now) ∧ Consistent names dir (fun _ => True) db ∧
    ∀ item ∈ items, names.used (shardOf item.namespace_)

variable {names dir w items} {db : Database}

/-- A sighting recorded in memory. -/
theorem record_resident (resident : db.AllResident) (origin path value : String) (when : DateTime) (ttl : Option Nat)
    (retention : Nat) (tags : String) :
    (fun name => ((db.namespaces.insert path (((db.namespaces.get path).getD .empty).record origin value when ttl retention
      tags).1).get name).map (·.values)) =
      Contents.write (held names dir db) "" retention origin path value when false ttl tags := by
  funext name
  by_cases here : name = path
  · subst here
    cases found : db.namespaces.get name <;>
      simp [Contents.write, Contents.record, Contents.put, Contents.cell, Contents.values, Database.held_resident resident, found,
        Namespace.record_values, Namespace.cell, Namespace.empty]
  · simp [Contents.write, Contents.record, Contents.put, Database.held_resident resident, here, OrderedMap.get_insert]

theorem recordWrite_resident (resident : db.AllResident) (origin path value : String) (when : DateTime)
    (opts : WriteOpts) (tags : String) :
    (db.recordWrite w origin path value when opts tags).1.AllResident ∧
      Raises (held names dir db) (held names dir (db.recordWrite w origin path value when opts tags).1) path value := by
  have keeps : db.Keeps db.node db.namespaces := ⟨resident, rfl, rfl⟩
  obtain ⟨retention, stored, _⟩ := keeps.recordIn w origin path value when (db.ttlOf path opts) tags
  have raises := Contents.write_raises (held names dir db) "" retention origin path value when false (db.ttlOf path opts) tags
  rw [← record_resident resident] at raises
  simp only [Database.recordWrite]
  split
  · obtain ⟨_, tallied⟩ := stored.writePlain w allNamespace value when
      ((db.recordIn w origin path value when (db.ttlOf path opts) tags).1.ttlOf allNamespace .default)
    have logged := tallied.logged w path value
    refine ⟨logged.resident, fun name v other => ?_⟩
    rw [← raises name v other]
    simp [Contents.cell, Contents.values, Database.held_resident logged.resident, logged.namespaces, OrderedMap.get_insert, other]
  · have logged := stored.logged w path value
    refine ⟨logged.resident, fun name v other => ?_⟩
    rw [← raises name v other]
    simp [Contents.cell, Contents.values, Database.held_resident logged.resident, logged.namespaces]

/-- A write that passes its checks is one sighting of its value. -/
theorem Finds.writeTaggedAs (finds : Finds names dir w items db) {item : BulkSighting} (mine : item ∈ items)
    (passes : check db item.namespace_ item.value = .ok ()) (origin : Option String) (when : Option DateTime) :
    Finds names dir w items (writeTaggedAs db w origin item.namespace_ item.value when item.ttl item.tags).1 ∧
      Raises (held names dir db)
        (held names dir (SightingDB.writeTaggedAs db w origin item.namespace_ item.value when item.ttl item.tags).1)
        item.namespace_ item.value := by
  simp only [SightingDB.writeTaggedAs, passes]
  rcases finds with resident | ⟨⟨now, rfl⟩, consistent, used⟩
  · obtain ⟨resident', raises⟩ := @recordWrite_resident names dir w db resident (origin.getD db.node) item.namespace_
      item.value (when.getD w.now) ⟨true, item.ttl⟩ item.tags
    exact ⟨.inl resident', raises⟩
  · have done := recordWrite_does consistent now (used item mine) (origin.getD db.node) item.value
      (when.getD (World.sound names dir now).now) ⟨true, item.ttl⟩ item.tags
    refine ⟨.inr ⟨⟨now, rfl⟩, done.consistent, used⟩, ?_⟩
    rw [done.held]
    exact Contents.write_raises _ _ _ _ _ _ _ _ _ _

/-- A tally changes nothing but `_all`. -/
theorem Finds.tallyUp (finds : Finds names dir w items db) (value : String) (when : DateTime) :
    Finds names dir w items (db.write w allNamespace value when .default) ∧ ∀ name v, name ≠ allNamespace →
      Contents.cell (held names dir (db.write w allNamespace value when .default)) name v =
        Contents.cell (held names dir db) name v := by
  rcases finds with resident | ⟨⟨now, rfl⟩, consistent, used⟩
  · have keeps : db.Keeps db.node db.namespaces := ⟨resident, rfl, rfl⟩
    obtain ⟨_, tallied⟩ := keeps.write w allNamespace value when
    refine ⟨.inl tallied.resident, fun name v other => ?_⟩
    simp [Contents.cell, Contents.values, Database.held_resident tallied.resident, Database.held_resident resident, tallied.namespaces,
      OrderedMap.get_insert, other]
  · have done := tally_does consistent now when value
    rw [← write_default] at done
    refine ⟨.inr ⟨⟨now, rfl⟩, done.consistent, used⟩, fun name v other => ?_⟩
    rw [done.held]
    simp [Contents.tallyUp, Contents.record, Contents.cell, Contents.values, Contents.put, other]

end Finds

/-! ## What a request adds -/

namespace Traffic

section Rule

variable {net : Traffic} {call : Call} {s turns hops : Nat} {way : List String} {headers : Headers}
  {st : State net.toNetwork} {P : State net.toNetwork → Prop}

theorem eachItem_induction {step : Nat → BulkSighting → State net.toNetwork → State net.toNetwork × Outcome} {index : Nat}
    {items : List BulkSighting}
    (steps : ∀ k item st, items[k]? = some item → P st → P (step (index + k) item st).1) (start : P st) :
    P (eachItem step index items st).1 := by
  induction items generalizing index st with
  | nil => exact start
  | cons item rest ih =>
      refine ih (fun k item' st found holds => ?_) (steps 0 item st rfl start)
      have := steps (k + 1) item' st found holds
      rwa [show index + 1 + k = index + (k + 1) by omega]

/-- A property of the servers that recording an item of the request keeps, and counting a
value in a tally keeps. -/
structure Kept (net : Traffic) (call : Call) (P : State net.toNetwork → Prop) : Prop where
  records : ∀ st s way origin index item when, call.items[index]? = some item → P st →
    P (st.record (net.worlds s) s way origin index item when).1
  tallies : ∀ st s value, P st → P (st.tallyUp (net.worlds s) s value)

theorem Kept.writeItem (kept : Kept net call P) {apikey : Option String} {index : Nat} {item : BulkSighting}
    (found : call.items[index]? = some item) (holds : P st) : P (net.writeItem s way headers apikey index item st).1 := by
  rw [writeItem_state]
  split
  · exact kept.records st s way headers.originOf index item _ found holds
  · exact holds

theorem Kept.mergeItem (kept : Kept net call P) {peerItems : List (List BulkWriteItem)} {index : Nat}
    {item : BulkSighting} (holds : P st) : P (net.mergeItem s peerItems index item st).1 := by
  simp only [Traffic.mergeItem]
  split
  · dsimp only
    split
    · exact kept.tallies st s _ holds
    · exact holds
  · exact holds

theorem postAll_induction {post : Post net} (posts : ∀ peer headers st, P st → P (post peer headers st).1)
    {origin : String} (peers : List Peer) (holds : P st) : P (postAll post hops origin peers st).1 := by
  induction peers generalizing st with
  | nil => exact holds
  | cons peer rest ih =>
      have first := posts peer (.sent peer hops origin) st holds
      simp only [postAll]
      generalize post peer (.sent peer hops origin) st = result at first ⊢
      obtain ⟨st₁, e | reply⟩ := result <;> exact ih first

theorem forwardBatch_induction {post : Post net} (posts : ∀ peer headers st, P st → P (post peer headers st).1)
    {origin : String} (galaxy : Galaxy) (names : List String) (holds : P st) :
    P (forwardBatch post galaxy names hops origin st).1 := by
  have sent := @postAll_induction net hops st P post posts origin (galaxy.wanted names) holds
  simp only [forwardBatch]
  split
  · exact holds
  · split
    · exact holds
    · split <;> exact sent

theorem forwardWrite_induction {post : Post net} (posts : ∀ peer headers st, P st → P (post peer headers st).1)
    {origin : String} (galaxy : Galaxy) (name : String) (holds : P st) :
    P (forwardWrite post galaxy name hops origin st).1 := by
  have sent := @postAll_induction net hops st P post posts origin (galaxy.liveHolders name) holds
  simp only [forwardWrite]
  split
  · exact holds
  · split
    · exact holds
    · split
      · exact holds
      · split <;> exact sent

theorem Kept.writeBulk {items : List BulkSighting} (kept : Kept net (.writeBulk items) P) {post : Post net}
    (posts : ∀ peer headers st, P st → P (post peer headers st).1) (holds : P st) :
    P (writeBulk s way headers post items st).1 := by
  simp only [Traffic.writeBulk]
  split
  · exact holds
  · split
    · rename_i galaxy _ _
      split
      · exact holds
      · rename_i hops _
        have passed := @forwardBatch_induction net hops st P post posts ((net.sites s).originToSend headers) galaxy
          ((items.map (·.namespace_)).filter (net.sites s).elsewhere) holds
        generalize forwardBatch post galaxy _ hops ((net.sites s).originToSend headers) st = result at passed ⊢
        obtain ⟨st₁, e | answers⟩ := result
        · exact passed
        · refine eachItem_induction (fun k item st found holds => ?_) passed
          split
          · exact kept.writeItem (by simpa [Call.items] using found) holds
          · exact kept.mergeItem holds
    · refine eachItem_induction (fun k item st found holds => ?_) holds
      exact kept.writeItem (by simpa [Call.items] using found) holds

theorem Kept.write {name : String} {query : WriteQuery} (kept : Kept net (.write name query) P) {post : Post net}
    (posts : ∀ peer headers st, P st → P (post peer headers st).1) (holds : P st) :
    P (write s way headers post name query st).1 := by
  simp only [Traffic.write]
  split
  · exact holds
  · split
    · exact holds
    · exact holds
    · rename_i value _ val
      split
      · exact holds
      · rename_i galaxy hops _
        have passed := @forwardWrite_induction net hops st P post posts ((net.sites s).originToSend headers) galaxy
          name holds
        generalize forwardWrite post galaxy name hops ((net.sites s).originToSend headers) st = result at passed ⊢
        obtain ⟨st₁, e | answers⟩ := result
        · exact passed
        · dsimp only
          split
          · simp only [noteConsensus]
            split
            · split
              · exact kept.tallies _ s _ passed
              · exact passed
            · exact passed
          · exact passed
      · split
        · exact holds
        · rename_i when _
          have recorded := kept.records st s way headers.originOf 0 (query.item name value) when
            (by simp [Call.items, val]) holds
          generalize st.record (net.worlds s) s way headers.originOf 0 (query.item name value) when = result at recorded ⊢
          obtain ⟨st₁, e | done⟩ := result <;> exact recorded

/-- What recording and counting keep, a request keeps, wherever it goes. -/
theorem Kept.serve (kept : Kept net call P) (holds : P st) : P (net.serve call turns s way headers st).1 := by
  induction turns generalizing s way headers st with
  | zero => exact holds
  | succ turns ih =>
      have posts : ∀ (peer : Peer) headers st, P st → P (net.deliver (way ++ [peer.url]) peer.url
          (fun server st => net.serve call turns server (way ++ [peer.url]) headers st) st).1 := by
        intro peer headers st holds
        simp only [deliver]
        split
        · exact holds
        · exact holds
        · exact ih holds
        · exact ih holds
      cases call with
      | write name query => exact kept.write posts holds
      | writeBulk items => exact kept.writeBulk posts holds

end Rule

/-! ## Counting -/

section Counting

variable (names : Nat → ShardFiles) (dirs : Nat → Dir)

/-- The total count of a value at a server, in memory or in its file. -/
def total {net : Network} (st : State net) (s : Nat) (name value : String) : Nat :=
  (Contents.cell (held (names s) (dirs s) (st.dbs s)) name value).count

/-- Whether a record is of a value in a namespace at a server. -/
def ofValue (call : Call) (s : Nat) (name value : String) (r : Record) : Bool :=
  r.server = s && call.items[r.index]?.any fun item => item.namespace_ = name && item.value = value

/-- Every server finds what it holds. -/
def Standing (net : Traffic) (call : Call) (st : State net.toNetwork) : Prop :=
  ∀ s, Finds (names s) (dirs s) (net.worlds s) call.items (st.dbs s)

/-- Every record has raised the total of its value by one. -/
structure Counted (net : Traffic) (call : Call) (before st : State net.toNetwork) : Prop where
  standing : Standing names dirs net call st
  totals : ∀ s name value, name ≠ allNamespace → total names dirs st s name value =
    (total names dirs before s name value + st.log.countP (ofValue call s name value)) % u64Size

variable {names dirs} {net : Traffic} {call : Call} {before st st' : State net.toNetwork} {s : Nat}

theorem Counted.refl (standing : Standing names dirs net call before) (fresh : before.log = []) :
    Counted names dirs net call before before where
  standing := standing
  totals s name value _ := by simp [fresh, total, Attribute.count]

/-- One server's database changes, and the log grows by the records of that. -/
theorem Counted.step (counted : Counted names dirs net call before st) {db : Database} {new : List Record}
    (dbs : st'.dbs = Function.update st.dbs s db) (log : st'.log = st.log ++ new)
    (finds : Finds (names s) (dirs s) (net.worlds s) call.items db)
    (here : ∀ name value, name ≠ allNamespace → (Contents.cell (held (names s) (dirs s) db) name value).count =
      (total names dirs st s name value + new.countP (ofValue call s name value)) % u64Size)
    (there : ∀ k name value, k ≠ s → new.countP (ofValue call k name value) = 0) :
    Counted names dirs net call before st' where
  standing k := by
    rw [dbs]
    by_cases same : k = s
    · subst same
      simpa using finds
    · simpa [same] using counted.standing k
  totals k name value other := by
    have known := counted.totals k name value other
    rw [log, List.countP_append]
    by_cases same : k = s
    · subst same
      rw [total, dbs, Function.update_self, here name value other, known, Nat.mod_add_mod, Nat.add_assoc]
    · rw [total, dbs, Function.update_of_ne same, there k name value same, Nat.add_zero, ← known, total]

theorem record_dbs {w : World} {way : List String} {origin : Option String} {index : Nat} {item : BulkSighting}
    {when : Option DateTime} : (st.record w s way origin index item when).1.dbs = Function.update st.dbs s
      (writeTaggedAs (st.dbs s) w origin item.namespace_ item.value when item.ttl item.tags).1 := by
  simp only [State.record]
  split <;> rfl

theorem Counted.record (counted : Counted names dirs net call before st) {way : List String}
    {origin : Option String} {index : Nat} {item : BulkSighting} {when : Option DateTime}
    (found : call.items[index]? = some item) :
    Counted names dirs net call before (st.record (net.worlds s) s way origin index item when).1 := by
  cases checked : check (st.dbs s) item.namespace_ item.value with
  | error e =>
      have same : writeTaggedAs (st.dbs s) (net.worlds s) origin item.namespace_ item.value when item.ttl item.tags =
          (st.dbs s, .error e) := by
        simp only [writeTaggedAs, checked]
      have log : (st.record (net.worlds s) s way origin index item when).1.log = st.log ++ [] := by
        simp [State.record, same, State.put]
      refine counted.step record_dbs log ?_ ?_ (by simp)
      · rw [same]
        exact counted.standing s
      · intro name value _
        simp [same, total, Attribute.count]
  | ok _ =>
      obtain ⟨finds, raises⟩ := (counted.standing s).writeTaggedAs (List.mem_of_getElem? found) checked origin when
      refine counted.step record_dbs (record_log checked).1 finds ?_ ?_
      · intro name value other
        rw [raises name value other]
        split
        · rename_i same
          obtain ⟨rfl, rfl⟩ := same
          simp [ofValue, found, total]
        · rename_i differs
          have apart : ofValue call s name value ⟨s, way, index⟩ = false := by
            simp only [ofValue, found]
            grind
          simp [apart, total, Attribute.count]
      · intro k name value away
        simp [ofValue, away.symm]

theorem Counted.tallyUp (counted : Counted names dirs net call before st) (value : String) :
    Counted names dirs net call before (st.tallyUp (net.worlds s) s value) := by
  obtain ⟨finds, same⟩ := (counted.standing s).tallyUp value (net.worlds s).now
  refine counted.step rfl (List.append_nil _).symm finds ?_ (by simp)
  intro name v other
  rw [same name v other]
  simp [total, Attribute.count]

theorem counted_kept : Kept net call (Counted names dirs net call before) where
  records _ _ _ _ _ _ _ found counted := counted.record found
  tallies _ _ value counted := counted.tallyUp value

/-- How often a server has recorded an item of the request. -/
def recordings (log : List Record) (server index : Nat) : Nat :=
  log.countP fun r => r.server = server && r.index = index

theorem recordings_le_one {log : List Record} (apart : log.Nodup) (server index : Nat) :
    recordings log server index ≤ 1 ↔
      ∀ way way', ⟨server, way, index⟩ ∈ log → ⟨server, way', index⟩ ∈ log → way = way' := by
  rw [recordings, List.countP_eq_length_filter, ← List.toFinset_card_of_nodup (apart.filter _), Finset.card_le_one]
  simp only [List.mem_toFinset, List.mem_filter, Bool.and_eq_true, decide_eq_true_eq]
  constructor
  · intro one way way' first second
    have same := one _ ⟨first, rfl, rfl⟩ _ ⟨second, rfl, rfl⟩
    exact (Record.mk.inj same).2.1
  · rintro one ⟨_, way, _⟩ ⟨first, rfl, rfl⟩ ⟨_, way', _⟩ ⟨second, rfl, rfl⟩
    rw [one way way' first second]

/-- Every recording of an item raises the total of its value by one. A server records an item
once at most, exactly when the request comes to it by one way at most on which it takes the
item. -/
theorem one_write_one_sighting (names : Nat → ShardFiles) (dirs : Nat → Dir) (net : Traffic) (call : Call) (s : Nat)
    (headers : Headers) (client : headers.hops = .absent) (st : State net.toNetwork)
    (standing : Standing names dirs net call st) (fresh : st.log = []) :
    (∀ server name value, name ≠ allNamespace →
      total names dirs (net.request s call headers st).1 server name value =
        (total names dirs st server name value +
          (net.request s call headers st).1.log.countP (ofValue call server name value)) % u64Size) ∧
    ((∀ server index, recordings (net.request s call headers st).1.log server index ≤ 1) ↔
      ∀ server index way way' headers₁ headers₂,
        Delivered net call s [] headers way server headers₁ → index ∈ net.taken call server way headers₁ →
        Delivered net call s [] headers way' server headers₂ → index ∈ net.taken call server way' headers₂ →
        way = way') := by
  refine ⟨(counted_kept.serve (Counted.refl standing fresh)).totals, ?_⟩
  obtain ⟨records, log, apart, mem⟩ := request_log net call s client st
  rw [log, fresh, List.nil_append]
  constructor
  · intro once server index way way' headers₁ headers₂ first taken second taken'
    exact (recordings_le_one apart server index).mp (once server index) way way' ((mem _).mpr ⟨headers₁, first, taken⟩)
      ((mem _).mpr ⟨headers₂, second, taken'⟩)
  · intro once server index
    refine (recordings_le_one apart server index).mpr fun way way' member member' => ?_
    obtain ⟨headers₁, first, taken⟩ := (mem _).mp member
    obtain ⟨headers₂, second, taken'⟩ := (mem _).mp member'
    exact once server index way way' headers₁ headers₂ first taken second taken'

/-- Through the gateway a request comes to the router and from there to the node. -/
theorem gateway_ways {way : List String} {server : Nat} {headers : Headers}
    (delivered : Delivered gateway (.writeBulk [sightingIn "a/x"]) 0 [] keyed way server headers) :
    way = [] ∧ server = 0 ∨ way = ["n"] ∧ server = 1 := by
  cases delivered with
  | here => exact .inl ⟨rfl, rfl⟩
  | @pass _ next _ _ _ _ _ posted sent arrives onward =>
      have one : (gateway.forwards 0 keyed (Call.writeBulk [sightingIn "a/x"]).ask).map (·.url) = ["n"] := by decide
      have url : posted.url = "n" := by
        have member := List.mem_map_of_mem (f := (·.url)) sent
        rw [one] at member
        exact List.mem_singleton.mp member
      rw [url] at arrives onward
      obtain rfl : 1 = next := by simpa [arrivesAt, gateway] using arrives
      cases onward with
      | here => exact .inr ⟨rfl, rfl⟩
      | pass sent' _ _ =>
          have none : (gateway.sites 1).galaxy = none := rfl
          simp [Network.forwards, Call.ask, none] at sent'

theorem one_write_one_sighting_gateway : keyed.hops = .absent ∧ gateway.idle.log = [] ∧
    Standing (fun _ => .sample) (fun _ => ⟨none, ∅⟩) gateway (.writeBulk [sightingIn "a/x"]) gateway.idle ∧
    ∀ server index, recordings (gateway.request 0 (.writeBulk [sightingIn "a/x"]) keyed gateway.idle).1.log server index ≤ 1 := by
  have standing : Standing (fun _ => .sample) (fun _ => ⟨none, ∅⟩) gateway (.writeBulk [sightingIn "a/x"]) gateway.idle :=
    fun s => .inl fun shard meta_ found => by simp [gateway.idle, Database.withNode, Database.attachStore] at found
  refine ⟨rfl, rfl, standing, (one_write_one_sighting (fun _ => .sample) (fun _ => ⟨none, ∅⟩) gateway (.writeBulk [sightingIn "a/x"]) 0 keyed
    rfl gateway.idle standing rfl).2.mpr ?_⟩
  intro server index way way' _ _ first _ second _
  obtain ⟨rfl, rfl⟩ | ⟨rfl, rfl⟩ := gateway_ways first
  · obtain ⟨rfl, _⟩ | ⟨_, differs⟩ := gateway_ways second
    · rfl
    · cases differs
  · obtain ⟨_, differs⟩ | ⟨rfl, _⟩ := gateway_ways second
    · cases differs
    · rfl

/-- Two servers that store a part each and pass the rest to the other. -/
def pair : Traffic where
  sites s := if s = 0 then
      ⟨⟨["a"], false⟩, "one", false, ⟨∅⟩,
        some ⟨[⟨"two", "k", ⟨["b"], false⟩, true⟩], defaultMaxHops, fun _ => false, fun _ => false, by simp,
          defaultMaxHops_pos⟩⟩
    else ⟨⟨["b"], false⟩, "two", false, ⟨∅⟩,
        some ⟨[⟨"one", "k", ⟨["a"], false⟩, true⟩], defaultMaxHops, fun _ => false, fun _ => false, by simp,
          defaultMaxHops_pos⟩⟩
  urls url := if url = "one" then some 0 else if url = "two" then some 1 else none
  weigh _ _ := 0
  catalogue _ := []
  listing _ _ := []
  worlds _ := .sample
  fate _ := .delivered

def pair.idle : State pair.toNetwork where
  dbs s := (Database.withNode ⟨0, 0⟩ (pair.sites s).stores (pair.sites s).node).attachStore .default
  log := []
  stores _ := rfl
  node _ := rfl

/-- A batch with an item for each: it goes to and fro until its hops are spent, and on the
way back every server records its item each time. -/
theorem batch_comes_back :
    (pair.request 0 (.writeBulk [sightingIn "a/x", sightingIn "b/y"]) keyed pair.idle).1.log =
      [⟨1, ["two", "one", "two"], 1⟩, ⟨0, ["two", "one"], 0⟩, ⟨1, ["two"], 1⟩, ⟨0, [], 0⟩] ∧
    recordings (pair.request 0 (.writeBulk [sightingIn "a/x", sightingIn "b/y"]) keyed pair.idle).1.log 0 0 = 2 ∧
    total (fun _ => .sample) (fun _ => ⟨none, ∅⟩) pair.idle 0 "a/x" "v" = 0 ∧
    total (fun _ => .sample) (fun _ => ⟨none, ∅⟩)
      (pair.request 0 (.writeBulk [sightingIn "a/x", sightingIn "b/y"]) keyed pair.idle).1 0 "a/x" "v" = 2 := by
  decide

end Counting

end Traffic

end SightingDB
