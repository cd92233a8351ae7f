import SightingDB.Deliveries

/-!
Who may write through a server. A server checks the key on every item it records itself; a
batch is passed on whole before any of its items is checked, and is then written with the
key the peer gave this server.
-/
namespace SightingDB

namespace Traffic

variable {net : Traffic} {call : Call} {s server : Nat} {way : List String} {headers headers' : Headers}

/-- What a server records the key on the request lets it record. -/
theorem authorized_of_taken {index : Nat} (taken : index ∈ net.taken call s way headers) :
    ∃ item, call.items[index]? = some item ∧ (net.sites s).authorized headers item.namespace_ .write = true := by
  simp only [Traffic.taken] at taken
  split at taken
  · cases taken
  · rename_i apikey keyed
    split at taken
    · obtain ⟨k, item, rfl, found, accepts⟩ := mem_accepted.mp taken
      simp only [Site.accepts, Bool.and_eq_true] at accepts
      exact ⟨item, by simpa using found, by simp [Site.authorized, keyed, accepts.1.1.1.1]⟩
    · cases taken

/-- A batch leaves behind only what the entry server's ACL lets the key write, exactly when no
copy of it comes to a server that takes an item the ACL refuses. -/
theorem bulk_respects_acl (net : Traffic) (s : Nat) (headers : Headers) (client : headers.hops = .absent)
    (items : List BulkSighting) (st : State net.toNetwork) (fresh : st.log = []) :
    (∀ r ∈ (net.request s (.writeBulk items) headers st).1.log, ∀ item, items[r.index]? = some item →
      (net.sites s).authorized headers item.namespace_ .write = true) ↔
    ∀ way server headers' index item, way ≠ [] → Delivered net (.writeBulk items) s [] headers way server headers' →
      index ∈ net.taken (.writeBulk items) server way headers' → items[index]? = some item →
      (net.sites s).authorized headers item.namespace_ .write = true := by
  obtain ⟨records, log, _, mem⟩ := request_log net (.writeBulk items) s client st
  rw [log, fresh, List.nil_append]
  constructor
  · intro all way server headers' index item _ delivered taken found
    exact all ⟨server, way, index⟩ ((mem _).mpr ⟨headers', delivered, taken⟩) item found
  · intro all r member item found
    obtain ⟨headers', delivered, taken⟩ := (mem r).mp member
    by_cases entry : r.way = []
    · rw [entry] at delivered taken
      obtain ⟨same, rfl⟩ := delivered.at_entry
      rw [same] at taken
      obtain ⟨item', found', authorized⟩ := authorized_of_taken taken
      obtain rfl : item = item' := Option.some.inj (found.symm.trans found')
      exact authorized
    · exact all r.way r.server headers' r.index item entry delivered taken found

theorem gateway_apart : ([(⟨"n", "p", .storeEverything, true⟩ : Peer)].map (·.url)).Nodup := List.nodup_singleton _

theorem gateway_hops : 0 < 4 := by decide

/-- A router whose keys are narrow, in front of a node that trusts it with everything. -/
def gateway : Traffic where
  sites s := if s = 0 then
      ⟨⟨[], false⟩, "router", true, ⟨OrderedMap.empty.insert "k" [⟨"a", true, true, false, .inr ⟨rfl, .inl rfl⟩⟩]⟩,
        some ⟨[⟨"n", "p", .storeEverything, true⟩], 4, fun _ => false, fun _ => false, gateway_apart, gateway_hops⟩⟩
    else ⟨.storeEverything, "node", true, ⟨OrderedMap.empty.insert "p" [.allData]⟩, none⟩
  urls url := if url = "n" then some 1 else none
  weigh _ _ := 0
  catalogue _ := []
  listing _ _ := []
  worlds _ := .sample
  fate _ := .delivered

/-- Both servers empty. -/
def gateway.idle : State gateway.toNetwork where
  dbs s := (Database.withNode ⟨0, 0⟩ (gateway.sites s).stores (gateway.sites s).node).attachStore .default
  log := []
  stores _ := rfl
  node _ := rfl

def sightingIn (name : String) : BulkSighting := ⟨name, "v", none, none, "", false⟩

/-- A client that may write under `a`. -/
def keyed : Headers := ⟨some (some "k"), .absent, none⟩

theorem bulk_respects_acl_gateway : keyed.hops = .absent ∧ gateway.idle.log = [] ∧
    ∀ r ∈ (gateway.request 0 (.writeBulk [sightingIn "a/x"]) keyed gateway.idle).1.log, ∀ item,
      [sightingIn "a/x"][r.index]? = some item → (gateway.sites 0).authorized keyed item.namespace_ .write = true := by
  refine ⟨rfl, rfl, (bulk_respects_acl gateway 0 keyed rfl [sightingIn "a/x"] gateway.idle rfl).mpr ?_⟩
  intro _ _ _ index item _ _ _ found
  obtain rfl : item = sightingIn "a/x" := by
    rcases index with _ | index
    · exact (Option.some.inj found).symm
    · simp at found
  decide

/-- The client writes under `b` through the router, and the node records it. -/
theorem refused_item_recorded : (gateway.sites 0).authorized keyed "b/x" .write = false ∧
    (gateway.request 0 (.writeBulk [sightingIn "b/x"]) keyed gateway.idle).1.log = [⟨1, ["n"], 0⟩] ∧
    (((gateway.request 0 (.writeBulk [sightingIn "b/x"]) keyed gateway.idle).1.dbs 1).namespaces.contains "b/x") = true := by
  decide

end Traffic

end SightingDB
