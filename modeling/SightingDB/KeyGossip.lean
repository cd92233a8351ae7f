import SightingDB.Lockout

/-!
Key changes passed on between servers that may administer each other, none of which owns the
keys of the galaxy. A change made by a person is pushed to every peer and passed on from there
with one hop less; every key a server holds is offered again on a timer. A message carries no
version, so a server takes an old copy of a key like a new one.
-/
namespace SightingDB

/-- A change to one key. -/
inductive KeyEdit
  | save (entry : KeyEntry)
  | delete (key : String)
  deriving DecidableEq

namespace KeyEdit

def key : KeyEdit → String
  | save entry => entry.key
  | delete key => key

def change : KeyEdit → KeyChange
  | save entry => .save entry
  | delete key => .delete key

/-- What is granted to the key afterwards. -/
def outcome : KeyEdit → Option (List Grant)
  | save entry => some entry.toGrants
  | delete _ => none

end KeyEdit

variable {ι : Type}

/-- A change on its way to a peer, under the key the sender has there. -/
structure KeyMessage (ι : Type) where
  server : ι
  authorization : String
  edit : KeyEdit
  /-- The hops header. -/
  hops : Nat

/-- The enabled peers of each server and the key it has on each, and the hop limits. -/
structure KeyWiring (ι : Type) where
  peers : ι → List (ι × String)
  maxHops : ι → Nat

/-- The servers and the messages on their way between them. -/
structure KeyNet (ι : Type) where
  servers : ι → KeyServer
  flight : List (KeyMessage ι)

inductive KeyEvent (ι : Type)
  /-- A person's `save_key` or `delete_key`, and why the file cannot be written, if it cannot. -/
  | person (server : ι) (authorization : Option (Option String)) (edit : KeyEdit) (fault : Option String)
  | deliver (index : Nat) (fault : Option String)
  | lose (index : Nat)
  /-- One pass of `gossip`. -/
  | offer (server : ι)

/-- A request a server handles, and how far it may be passed on. -/
structure KeyCall (ι : Type) where
  server : ι
  authorization : Option (Option String)
  edit : KeyEdit
  fault : Option String
  hops : Nat

def KeyCall.request (call : KeyCall ι) : KeyRequest := ⟨call.authorization, call.edit.change, call.fault⟩

/-- `push_key` and `push_key_removal`. -/
def KeyWiring.spread (wiring : KeyWiring ι) (sender : ι) (edit : KeyEdit) (hops : Nat) : List (KeyMessage ι) :=
  if hops = 0 then [] else (wiring.peers sender).map fun peer => ⟨peer.1, peer.2, edit, hops - 1⟩

/-- What one pass of `gossip` sends. -/
def KeyWiring.offers (wiring : KeyWiring ι) (sender : ι) (s : KeyServer) : List (KeyMessage ι) :=
  if s.aclFile = none then []
  else s.acl.keys.entries.flatMap fun held =>
    wiring.spread sender (.save (.fromGrants held.1 held.2)) (wiring.maxHops sender)

namespace KeyNet

variable (wiring : KeyWiring ι) (net : KeyNet ι)

/-- The request that is handled in a step. -/
def call : KeyEvent ι → Option (KeyCall ι)
  | .person server authorization edit fault => some ⟨server, authorization, edit, fault, wiring.maxHops server⟩
  | .deliver index fault => net.flight[index]?.map fun m => ⟨m.server, some (some m.authorization), m.edit, fault, m.hops⟩
  | .lose _ | .offer _ => none

def handled (call : KeyCall ι) : KeyServer × Except Refusal KeyReply := (net.servers call.server).handle call.request

/-- Whether a request is accepted. -/
def accepts (call : KeyCall ι) : Bool := (net.handled call).2.isOk

/-- The messages sent in a step. -/
def sends (ev : KeyEvent ι) : List (KeyMessage ι) :=
  match net.call wiring ev, ev with
  | some call, _ => if net.accepts call then wiring.spread call.server call.edit call.hops else []
  | none, .offer server => wiring.offers server (net.servers server)
  | none, _ => []

def step [DecidableEq ι] (net : KeyNet ι) (ev : KeyEvent ι) : KeyNet ι where
  servers := match net.call wiring ev with
    | some call => Function.update net.servers call.server (net.handled call).1
    | none => net.servers
  flight := (match ev with
    | .deliver index _ | .lose index => net.flight.eraseIdx index
    | .person .. | .offer _ => net.flight) ++ net.sends wiring ev

def run [DecidableEq ι] (net : KeyNet ι) (events : List (KeyEvent ι)) : KeyNet ι := events.foldl (step wiring) net

/-- What a server grants to a key. -/
def granted (server : ι) (key : String) : Option (List Grant) := (net.servers server).acl.keys.get key

end KeyNet

/-! ## Where a copy of a key comes from -/

/-- What a copy of a key goes back to: a change made by a person, or what a server held at
the start. -/
inductive KeySource (ι : Type)
  | start (server : ι)
  | made (edit : KeyEdit)
  deriving DecidableEq

/-- The grants of a key once they have been passed on. -/
def copied (key : String) (grants : List Grant) : List Grant := (KeyEntry.fromGrants key grants).toGrants

/-- What a source makes of a key. -/
def KeySource.outcome (start : KeyNet ι) (key : String) : KeySource ι → Option (List Grant)
  | .start server => (start.granted server key).map (copied key)
  | .made edit => edit.outcome

/-- A net, with what each server's copy of one key and each message goes back to. No server
sees this. -/
structure TracedNet (ι : Type) where
  net : KeyNet ι
  known : ι → KeySource ι
  marks : List (KeySource ι)

namespace TracedNet

variable (wiring : KeyWiring ι) (key : String) (traced : TracedNet ι)

/-- What the messages of a step, and the change it makes, go back to. -/
def source : KeyEvent ι → Option (KeySource ι)
  | .person _ _ edit _ => some (.made edit)
  | .deliver index _ => traced.marks[index]?
  | .offer server => some (traced.known server)
  | .lose _ => none

/-- The server that takes a change to the key in a step, and what the change goes back to. -/
def takes (ev : KeyEvent ι) : Option (ι × KeySource ι) :=
  match traced.net.call wiring ev, traced.source ev with
  | some call, some source => if traced.net.accepts call ∧ call.edit.key = key then some (call.server, source) else none
  | _, _ => none

def step [DecidableEq ι] (traced : TracedNet ι) (ev : KeyEvent ι) : TracedNet ι where
  net := traced.net.step wiring ev
  known := match traced.takes wiring key ev with
    | some (server, source) => Function.update traced.known server source
    | none => traced.known
  marks := (match ev with
    | .deliver index _ | .lose index => traced.marks.eraseIdx index
    | .person .. | .offer _ => traced.marks) ++ (traced.net.sends wiring ev).filterMap fun _ => traced.source ev

end TracedNet

/-- A run from a net with no messages on their way, traced for one key. -/
def KeyNet.trace [DecidableEq ι] (wiring : KeyWiring ι) (key : String) (start : ι → KeyServer) (events : List (KeyEvent ι)) : TracedNet ι :=
  events.foldl (TracedNet.step wiring key) ⟨⟨start, []⟩, .start, []⟩

/-! ## One step -/

theorem KeyEntry.fromGrants_toGrants (key : String) (entry : KeyEntry) :
    fromGrants key entry.toGrants = ⟨key, entry.admin, entry.read,
      (entry.read.filter fun root => root ∈ entry.write) ++ entry.write.filter fun root => root ∉ entry.read⟩ := by
  rw [fromGrants, KeyEntry.any_admin, toGrants]
  congr 1 <;> cases entry.admin <;> simp [List.filter_append, List.filter_map, Function.comp_def, Grant.adminOnly]

theorem copied_toGrants (key : String) (entry : KeyEntry) : copied key entry.toGrants = entry.toGrants := by
  rw [copied, KeyEntry.fromGrants_toGrants, KeyEntry.toGrants, KeyEntry.toGrants]
  congr 2
  · refine List.map_congr_left fun root mem => ?_
    simp [mem]
  · congr 1
    have none : ((entry.read.filter fun root => root ∈ entry.write).filter fun root => root ∉ entry.read) = [] :=
      List.filter_eq_nil_iff.mpr fun root mem => by simp [List.mem_of_mem_filter mem]
    rw [List.filter_append, none, List.filter_filter]
    simp

theorem copied_copied (key : String) (grants : List Grant) : copied key (copied key grants) = copied key grants :=
  copied_toGrants key _

theorem KeyEdit.copied_outcome (key : String) (edit : KeyEdit) : edit.outcome.map (copied key) = edit.outcome := by
  cases edit with
  | save entry => exact congrArg some (copied_toGrants key entry)
  | delete _ => rfl

theorem KeySource.copied_outcome (start : KeyNet ι) (key : String) (source : KeySource ι) :
    (source.outcome start key).map (copied key) = source.outcome start key := by
  cases source with
  | start server =>
      rw [outcome, Option.map_map]
      exact congrArg (Option.map · _) (funext fun grants => copied_copied key grants)
  | made edit => exact edit.copied_outcome key

/-- What an edit asked of a server does to one key. -/
theorem KeyServer.get_handle (s : KeyServer) (authorization : Option (Option String)) (edit : KeyEdit)
    (fault : Option String) (key : String) :
    (s.handle ⟨authorization, edit.change, fault⟩).1.acl.keys.get key =
      if (s.handle ⟨authorization, edit.change, fault⟩).2.isOk = true ∧ edit.key = key then edit.outcome
      else s.acl.keys.get key := by
  rcases s.handle_cases ⟨authorization, edit.change, fault⟩ with ⟨e, handled⟩ | ⟨caller, acl, -, -, drafted, -, -, handled⟩
  · simp [handled, Except.isOk, Except.toBool]
  · rw [handled]
    cases edit with
    | save entry =>
        obtain ⟨-, rfl, -⟩ := saveKey_eq drafted
        simp [Except.isOk, Except.toBool, Acl.set, OrderedMap.get_insert, KeyEdit.key, KeyEdit.outcome, eq_comm]
    | delete gone =>
        obtain ⟨-, rfl, -⟩ := deleteKey_eq drafted
        simp [Except.isOk, Except.toBool, Acl.remove, OrderedMap.get_erase, KeyEdit.key, KeyEdit.outcome, eq_comm]

namespace KeyNet

variable {wiring : KeyWiring ι} {net : KeyNet ι} {ev : KeyEvent ι}

theorem granted_step_of_call [DecidableEq ι] {call : KeyCall ι} (asked : net.call wiring ev = some call) (server : ι) (key : String) :
    (net.step wiring ev).granted server key =
      if net.accepts call = true ∧ call.server = server ∧ call.edit.key = key then call.edit.outcome
      else net.granted server key := by
  simp only [granted, step, asked]
  by_cases here : call.server = server
  · subst here
    simp only [Function.update_self, handled, accepts, KeyCall.request, true_and]
    exact KeyServer.get_handle _ _ _ _ key
  · rw [Function.update_of_ne (Ne.symm here)]
    simp [here]

theorem granted_step_of_none [DecidableEq ι] (quiet : net.call wiring ev = none) (server : ι) (key : String) :
    (net.step wiring ev).granted server key = net.granted server key := by
  simp only [granted, step, quiet]

theorem spread_edit {sender : ι} {edit : KeyEdit} {hops : Nat} {m : KeyMessage ι} (mem : m ∈ wiring.spread sender edit hops) :
    m.edit = edit := by
  rw [KeyWiring.spread] at mem
  split_ifs at mem
  · cases mem
  · obtain ⟨peer, -, rfl⟩ := List.mem_map.mp mem
    rfl

/-- An offer carries what is held. -/
theorem offers_edit {sender : ι} {s : KeyServer} {m : KeyMessage ι} (mem : m ∈ wiring.offers sender s) :
    m.edit.outcome = (s.acl.keys.get m.edit.key).map (copied m.edit.key) := by
  rw [KeyWiring.offers] at mem
  split_ifs at mem
  · cases mem
  · obtain ⟨⟨key, grants⟩, held, sent⟩ := List.mem_flatMap.mp mem
    rw [spread_edit sent]
    have found : s.acl.keys.get (KeyEdit.save (.fromGrants key grants)).key = some grants := OrderedMap.mem_entries.mp held
    rw [found]
    rfl

end KeyNet

/-! ## A run -/

namespace TracedNet

variable {wiring : KeyWiring ι} {key : String} {start : KeyNet ι} {traced : TracedNet ι} {ev : KeyEvent ι}

@[simp] theorem step_net [DecidableEq ι] : (traced.step wiring key ev).net = traced.net.step wiring ev := rfl

/-- A message about the key carries what its source makes of it. -/
def Carries (key : String) (start : KeyNet ι) (m : KeyMessage ι) (source : KeySource ι) : Prop :=
  m.edit.key = key → m.edit.outcome = source.outcome start key

/-- Every copy of the key is what the change it goes back to made of it. -/
structure Sourced (key : String) (start : KeyNet ι) (traced : TracedNet ι) : Prop where
  held : ∀ server, (traced.net.granted server key).map (copied key) = (traced.known server).outcome start key
  sent : List.Forall₂ (Carries key start) traced.net.flight traced.marks

/-- A change is what its source makes of the key. -/
theorem Sourced.source (sourced : Sourced key start traced) {call : KeyCall ι}
    (asked : traced.net.call wiring ev = some call) (about : call.edit.key = key) :
    ∃ source, traced.source ev = some source ∧ call.edit.outcome = source.outcome start key := by
  cases ev with
  | person server authorization edit fault =>
      obtain rfl := Option.some.inj asked
      exact ⟨.made edit, rfl, rfl⟩
  | deliver index fault =>
      obtain ⟨m, found, rfl⟩ := Option.map_eq_some_iff.mp asked
      obtain ⟨source, marked, carries⟩ := Traverse.forall₂_getElem? sourced.sent found
      exact ⟨source, marked, carries about⟩
  | lose index => cases asked
  | offer server => cases asked

/-- What a server grants after a step. -/
theorem Sourced.granted_step [DecidableEq ι] (sourced : Sourced key start traced) (server : ι) :
    (traced.step wiring key ev).net.granted server key = match traced.takes wiring key ev with
      | some (taker, source) => if taker = server then source.outcome start key else traced.net.granted server key
      | none => traced.net.granted server key := by
  rw [step_net, takes]
  cases asked : traced.net.call wiring ev with
  | none => exact KeyNet.granted_step_of_none asked server key
  | some call =>
      rw [KeyNet.granted_step_of_call asked]
      by_cases about : call.edit.key = key
      · obtain ⟨source, known, outcome⟩ := sourced.source asked about
        by_cases accepted : traced.net.accepts call = true
        · simp [known, about, accepted, outcome]
        · simp [known, accepted]
      · cases traced.source ev <;> simp [about]

/-- The messages of a step have a source, and carry what it makes of the key. -/
theorem Sourced.sends (sourced : Sourced key start traced) (ev : KeyEvent ι) :
    List.Forall₂ (Carries key start) (traced.net.sends wiring ev)
      ((traced.net.sends wiring ev).filterMap fun _ => traced.source ev) := by
  refine Traverse.forall₂_filterMap_const ?_ fun m mem source known about => ?_
  · cases ev with
    | person | offer => exact .inl rfl
    | lose => exact .inr rfl
    | deliver index fault =>
        rw [TracedNet.source]
        cases found : traced.net.flight[index]? with
        | none => exact .inr (by simp [KeyNet.sends, KeyNet.call, found])
        | some m =>
            obtain ⟨source, marked, -⟩ := Traverse.forall₂_getElem? sourced.sent found
            exact .inl (by rw [marked]; rfl)
  · rw [KeyNet.sends.eq_def] at mem
    split at mem
    · rename_i call _ asked
      split_ifs at mem
      · rw [KeyNet.spread_edit mem] at about ⊢
        obtain ⟨source', known', carries⟩ := sourced.source asked about
        obtain rfl := Option.some.inj (known'.symm.trans known)
        exact carries
      · cases mem
    · rename_i server _
      obtain rfl := Option.some.inj known
      rw [KeyNet.offers_edit mem, about]
      exact sourced.held server
    · cases mem

/-- One step keeps every copy what its source made of it. -/
theorem Sourced.step [DecidableEq ι] (sourced : Sourced key start traced) (ev : KeyEvent ι) :
    Sourced key start (traced.step wiring key ev) := by
  constructor
  · intro server
    rw [sourced.granted_step, TracedNet.step.eq_def]
    cases takes : traced.takes wiring key ev with
    | none => exact sourced.held server
    | some taken =>
        obtain ⟨taker, source⟩ := taken
        by_cases here : taker = server
        · subst here
          simp [source.copied_outcome start key]
        · simp [here, Function.update_of_ne (Ne.symm here), sourced.held server]
  · refine List.rel_append ?_ (sourced.sends ev)
    cases ev with
    | person | offer => exact sourced.sent
    | deliver index | lose index => exact Traverse.forall₂_eraseIdx sourced.sent index

theorem sourced_trace [DecidableEq ι] (start : ι → KeyServer) (events : List (KeyEvent ι)) :
    Sourced key ⟨start, []⟩ (KeyNet.trace wiring key start events) := by
  induction events using List.reverseRecOn with
  | nil => exact ⟨fun _ => rfl, .nil⟩
  | append_singleton events ev ih =>
      rw [KeyNet.trace, List.foldl_append]
      exact ih.step ev

end TracedNet

namespace KeyNet

/-- What has happened once a change was made and some of what followed. -/
def since (before : List (KeyEvent ι)) (change : KeyEvent ι) (after : List (KeyEvent ι)) (m : Nat) : List (KeyEvent ι) :=
  before ++ change :: after.take m

theorem since_succ {before after : List (KeyEvent ι)} {change ev : KeyEvent ι} {m : Nat} (next : after[m]? = some ev) :
    since before change after (m + 1) = since before change after m ++ [ev] := by
  simp [since, List.take_add_one, next]

variable [DecidableEq ι] {wiring : KeyWiring ι} {key : String} {start : ι → KeyServer} {before after : List (KeyEvent ι)}
  {change : KeyEvent ι}

theorem trace_net (events : List (KeyEvent ι)) : (trace wiring key start events).net = run wiring ⟨start, []⟩ events := by
  induction events using List.reverseRecOn with
  | nil => rfl
  | append_singleton events ev ih =>
      rw [trace, run, List.foldl_append, List.foldl_append]
      exact congrArg (step wiring · ev) ih

theorem trace_concat (events : List (KeyEvent ι)) (ev : KeyEvent ι) :
    trace wiring key start (events ++ [ev]) = (trace wiring key start events).step wiring key ev := by
  simp [trace]

/-- For any run, any change to a key that a person makes on a server in it, and any run after
it in which no person changes the key: the server grants to the key what the change made of it
in every state that follows, exactly when every message about the key that it takes goes back
to a change, or to a copy held at the start, that made the same of it. -/
theorem change_stays_iff {server : ι} {authorization : Option (Option String)} {edit : KeyEdit} {fault : Option String}
    (made : (trace wiring key start before).takes wiring key (.person server authorization edit fault) =
      some (server, .made edit))
    (unchanged : ∀ (m : Nat) who authorization' edit' fault', after[m]? = some (.person who authorization' edit' fault') →
      (trace wiring key start (since before (.person server authorization edit fault) after m)).takes wiring key
        (.person who authorization' edit' fault') = none) :
    (∀ m, (run wiring ⟨start, []⟩ (since before (.person server authorization edit fault) after m)).granted server key =
      edit.outcome) ↔
    ∀ (m index : Nat) reason source, after[m]? = some (.deliver index reason) →
      (trace wiring key start (since before (.person server authorization edit fault) after m)).takes wiring key
        (.deliver index reason) = some (server, source) →
      source.outcome ⟨start, []⟩ key = edit.outcome := by
  generalize hchange : KeyEvent.person server authorization edit fault = change at *
  have grants : ∀ m ev, after[m]? = some ev → (run wiring ⟨start, []⟩ (since before change after (m + 1))).granted server key =
      match (trace wiring key start (since before change after m)).takes wiring key ev with
        | some (taker, source) => if taker = server then source.outcome ⟨start, []⟩ key
            else (run wiring ⟨start, []⟩ (since before change after m)).granted server key
        | none => (run wiring ⟨start, []⟩ (since before change after m)).granted server key := by
    intro m ev next
    rw [← @trace_net ι _ wiring key start, since_succ next, trace_concat, ← @trace_net ι _ wiring key start]
    exact (TracedNet.sourced_trace start _).granted_step server
  constructor
  · intro stays m index reason source next taken
    have now := grants m _ next
    rw [taken, stays] at now
    simpa using now.symm
  · intro fresh m
    induction m with
    | zero =>
        have first : since before change after 0 = before ++ [change] := by simp [since]
        rw [first, ← @trace_net ι _ wiring key start, trace_concat, (TracedNet.sourced_trace start before).granted_step, made]
        simp [KeySource.outcome]
    | succ m ih =>
        cases next : after[m]? with
        | none =>
            have past : since before change after (m + 1) = since before change after m := by
              simp [since, List.take_add_one, next]
            rw [past, ih]
        | some ev =>
            rw [grants m ev next]
            cases taken : (trace wiring key start (since before change after m)).takes wiring key ev with
            | none => exact ih
            | some pair =>
                obtain ⟨taker, source⟩ := pair
                by_cases here : taker = server
                · subst here
                  simp only [if_true]
                  cases ev with
                  | person who authorization' edit' fault' =>
                      rw [unchanged m who authorization' edit' fault' next] at taken
                      cases taken
                  | deliver index reason => exact fresh m index reason source next taken
                  | lose => cases taken
                  | offer => cases taken
                · simp only [if_neg here]
                  exact ih

/-- Two servers, each with the admin key of the other, and a key both grant reading. -/
def twins : Bool → KeyServer := fun _ =>
  ⟨⟨(OrderedMap.empty.insert "admin" [.adminOnly]).insert "doomed" [⟨"feeds", true, false, false, .inr ⟨rfl, .inl rfl⟩⟩]⟩,
    some none, false⟩

def twinWiring : KeyWiring Bool := ⟨fun server => [(!server, "admin")], fun _ => 4⟩

/-- A key saved on the first of them. -/
def regranting : KeyEdit := .save ⟨"doomed", false, [], ["feeds"]⟩

theorem change_stays_iff_twins :
    (run twinWiring ⟨twins, []⟩ (since [] (.person false (some (some "admin")) regranting none)
      [.deliver 0 none, .deliver 0 none] 2)).granted false "doomed" = regranting.outcome := by
  refine (@change_stays_iff Bool _ twinWiring "doomed" twins [] [.deliver 0 none, .deliver 0 none] false
    (some (some "admin")) regranting none (by decide) ?_).mpr ?_ 2
  · intro m who authorization edit fault next
    rcases m with _ | _ | m <;> simp at next
  · intro m index reason source next taken
    rcases m with _ | _ | m
    · obtain ⟨rfl, rfl⟩ : 0 = index ∧ none = reason := by simpa using next
      have other : (trace twinWiring "doomed" twins (since [] (.person false (some (some "admin")) regranting none)
          [.deliver 0 none, .deliver 0 none] 0)).takes twinWiring "doomed" (.deliver 0 none) =
        some (true, .made regranting) := by decide
      rw [other] at taken
      cases taken
    · obtain ⟨rfl, rfl⟩ : 0 = index ∧ none = reason := by simpa using next
      have back : (trace twinWiring "doomed" twins (since [] (.person false (some (some "admin")) regranting none)
          [.deliver 0 none, .deliver 0 none] 1)).takes twinWiring "doomed" (.deliver 0 none) =
        some (false, .made regranting) := by decide
      rw [back] at taken
      cases taken
      rfl
    · simp at next

/-- A key is revoked, or granted something else, while the other server is down, which later
offers its old copy. -/
theorem old_copy_returns :
    (run twinWiring ⟨twins, []⟩ (since [] (.person false (some (some "admin")) (.delete "doomed") none)
      [.lose 0, .offer true, .deliver 1 none] 0)).granted false "doomed" = none ∧
    (run twinWiring ⟨twins, []⟩ (since [] (.person false (some (some "admin")) (.delete "doomed") none)
      [.lose 0, .offer true, .deliver 1 none] 3)).granted false "doomed" =
      some [⟨"feeds", true, false, false, .inr ⟨rfl, .inl rfl⟩⟩] ∧
    (run twinWiring ⟨twins, []⟩ (since [] (.person false (some (some "admin")) regranting none)
      [.lose 0, .offer true, .deliver 1 none] 0)).granted false "doomed" = regranting.outcome ∧
    (run twinWiring ⟨twins, []⟩ (since [] (.person false (some (some "admin")) regranting none)
      [.lose 0, .offer true, .deliver 1 none] 3)).granted false "doomed" =
      some [⟨"feeds", true, false, false, .inr ⟨rfl, .inl rfl⟩⟩] := by
  decide

end KeyNet

end SightingDB
