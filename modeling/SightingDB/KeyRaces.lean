import SightingDB.KeyChanges
import SightingDB.Lockout
import SightingDB.Lib.Threads

/-!
Changes to the keys that overlap. Each request works on a private copy of the ACL and adopts it
in a later critical section, with the file written in between through one temporary file. As
long as whoever adopts its copy finds what it copied, and what it wrote, still there, the
requests act as if they had come one after another, in the order in which they were adopted.
-/
namespace SightingDB

open Threads

/-- Where a request to change keys stands. -/
inductive KeyStage
  | asked
  | letIn (caller : String)
  /-- The copy is changed and checked. -/
  | drafted (caller : String) (base acl : Acl)
  /-- The new text is in the temporary file. -/
  | wrote (caller : String) (base acl : Acl)
  /-- The temporary file has been renamed. -/
  | placed (caller : String) (base acl : Acl)
  | answered (reply : Except Refusal KeyReply)

structure KeyThread where
  authorization : Option (Option String)
  change : KeyChange
  stage : KeyStage

structure KeyShared where
  server : KeyServer
  /-- The temporary file, which all requests use. -/
  temp : Option String
  /-- The requests that were adopted, in order; nothing reads it. -/
  adopted : List Nat

namespace KeyThread

/-- The request on its own. -/
def request (t : KeyThread) : KeyRequest := ⟨t.authorization, t.change, none⟩

def goes (t : KeyThread) (stage : KeyStage) : KeyThread := { t with stage := stage }

end KeyThread

/-- One turn of a request: it is let in, takes its copy and checks it, writes the temporary
file, renames it, and adopts the copy. The input is why the file system refuses, if it does. -/
def keyTurn (fault : Option String) (_ : List KeyThread) (i : Nat) (sh : KeyShared) (t : KeyThread) : KeyShared × KeyThread :=
  match t.stage with
  | .asked => match requireAdmin sh.server.acl t.authorization with
    | .error e => (sh, t.goes (.answered (.error e)))
    | .ok caller => (sh, t.goes (.letIn caller))
  | .letIn caller => match t.change.draft sh.server.replaceable caller sh.server.acl with
    | .error e => (sh, t.goes (.answered (.error e)))
    | .ok acl => match sh.server.saveAcl acl none with
      | .error e => (sh, t.goes (.answered (.error e)))
      | .ok _ => (sh, t.goes (.drafted caller sh.server.acl acl))
  | .drafted caller base acl => match sh.server.saveAcl acl fault with
    | .error e => (sh, t.goes (.answered (.error e)))
    | .ok _ => ({ sh with temp := some acl.toToml }, t.goes (.wrote caller base acl))
  | .wrote caller base acl =>
      -- Another request may have renamed the temporary file away.
      match sh.server.saveAcl acl (if sh.temp = none then some "No such file or directory (os error 2)" else fault) with
      | .error e => (sh, t.goes (.answered (.error e)))
      | .ok _ => ({ sh with server := { sh.server with aclFile := some sh.temp }, temp := none }, t.goes (.placed caller base acl))
  | .placed _ base acl =>
      ({ sh with server := { sh.server with acl := acl }, adopted := sh.adopted ++ [i] },
        t.goes (.answered (.ok (t.change.reply base acl))))
  | .answered _ => (sh, t)

def KeyChange.replaces : KeyChange → Bool
  | .replace _ => true
  | _ => false

/-- A request that adopts its copy is still let in, finds the ACL it copied (unless it replaces
all of it), and finds its own text in the file. -/
def adoptsFresh (p : Pool KeyShared KeyThread) : Move (Option String) KeyThread → Bool
  | .start t => match t.stage with
    | .asked => true
    | _ => false
  | .go i _ => match p.threads[i]? with
    | none => true
    | some t => match t.stage with
      | .placed caller base acl => p.shared.server.acl.isAdmin caller &&
          (t.change.replaces || p.shared.server.acl = base) && p.shared.server.aclFile = some (some acl.toToml)
      | _ => true

namespace KeyServer

/-- Every one of some requests is accepted, one after another. -/
def Accepts (s : KeyServer) : List KeyRequest → Prop
  | [] => True
  | r :: rest => (∃ reply, (s.handle r).2 = .ok reply) ∧ (s.handle r).1.Accepts rest

variable {s : KeyServer}

theorem accepts_concat {requests : List KeyRequest} {r : KeyRequest} {reply : KeyReply} (before : s.Accepts requests)
    (last : ((s.run requests).handle r).2 = .ok reply) : s.Accepts (requests ++ [r]) := by
  induction requests generalizing s with
  | nil => exact ⟨⟨reply, last⟩, trivial⟩
  | cons first rest ih => exact ⟨before.1, ih before.2 last⟩

theorem accepts_append {front rest : List KeyRequest} (all : s.Accepts (front ++ rest)) : (s.run front).Accepts rest := by
  induction front generalizing s with
  | nil => exact all
  | cons r front ih => exact ih all.2

theorem run_append (s : KeyServer) (front rest : List KeyRequest) : s.run (front ++ rest) = (s.run front).run rest := by
  simp [run]

theorem handle_constant (s : KeyServer) (r : KeyRequest) : (s.handle r).1.replaceable = s.replaceable ∧
    ((s.handle r).1.aclFile = none ↔ s.aclFile = none) := by
  rcases s.handle_cases r with ⟨e, handled⟩ | ⟨caller, acl, -, -, -, configured, -, handled⟩
  · simp [handled]
  · simp [handled, configured]

theorem run_constant (s : KeyServer) (requests : List KeyRequest) : (s.run requests).replaceable = s.replaceable ∧
    ((s.run requests).aclFile = none ↔ s.aclFile = none) := by
  induction requests generalizing s with
  | nil => simp [run]
  | cons r rest ih =>
      obtain ⟨same, file⟩ := s.handle_constant r
      obtain ⟨same', file'⟩ := ih (s.handle r).1
      exact ⟨same'.trans same, file'.trans file⟩

/-- The file an accepted request leaves is that of the ACL it leaves. -/
theorem file_of_accepted {r : KeyRequest} {reply : KeyReply} (accepted : (s.handle r).2 = .ok reply) :
    (s.handle r).1.aclFile = some (some (s.handle r).1.acl.toToml) := by
  rcases s.handle_cases r with ⟨e, handled⟩ | ⟨caller, acl, -, -, -, -, -, handled⟩
  · rw [handled] at accepted
    cases accepted
  · rw [handled]

end KeyServer

/-- Whether a change puts a key in the ACL. -/
def KeyChange.puts (key : String) : KeyChange → Prop
  | .save entry => entry.key = key
  | .delete _ => False
  | .replace wanted => ∃ entry ∈ wanted, entry.key = key

namespace KeyServer

variable {s : KeyServer} {key : String}

theorem contains_replaced (wanted : List KeyEntry) (start : Acl) (absent : start.contains key = false)
    (others : ∀ entry ∈ wanted, entry.key ≠ key) :
    (wanted.foldl (fun acl entry => acl.set entry.key entry.toGrants) start).contains key = false := by
  induction wanted generalizing start with
  | nil => exact absent
  | cons entry rest ih =>
      refine ih _ ?_ fun other mem => others other (List.mem_cons_of_mem _ mem)
      have other : key ≠ entry.key := fun same => others entry (by simp) same.symm
      simpa [Acl.contains, Acl.set, OrderedMap.contains, OrderedMap.get_insert_of_ne _ _ other] using absent

theorem handle_absent {r : KeyRequest} (absent : s.acl.contains key = false) (other : ¬ r.change.puts key) :
    (s.handle r).1.acl.contains key = false := by
  rcases s.handle_cases r with ⟨e, handled⟩ | ⟨caller, acl, -, -, drafted, -, -, handled⟩
  · rw [handled]
    exact absent
  · rw [handled]
    cases change : r.change with
    | save entry =>
        rw [change] at drafted other
        obtain ⟨-, rfl, -⟩ := saveKey_eq drafted
        have other : key ≠ entry.key := fun same => other same.symm
        simpa [Acl.contains, Acl.set, OrderedMap.contains, OrderedMap.get_insert_of_ne _ _ other] using absent
    | delete gone =>
        rw [change] at drafted
        obtain ⟨-, rfl, -⟩ := deleteKey_eq drafted
        rw [Acl.contains, OrderedMap.not_contains_iff] at absent ⊢
        rw [Acl.remove, OrderedMap.get_erase, absent, ite_self]
    | replace wanted =>
        rw [change] at drafted other
        obtain ⟨-, rfl, -⟩ := replaceKeys_eq drafted
        exact contains_replaced wanted ⟨∅⟩ rfl fun entry mem same => other ⟨entry, mem, same⟩

theorem run_absent {requests : List KeyRequest} (absent : s.acl.contains key = false)
    (others : ∀ r ∈ requests, ¬ r.change.puts key) : (s.run requests).acl.contains key = false := by
  induction requests generalizing s with
  | nil => exact absent
  | cons r rest ih => exact ih (handle_absent absent (others r (by simp))) fun q mem => others q (List.mem_cons_of_mem _ mem)

/-- A key that is deleted and not put back is gone. -/
theorem run_deleted {front rest : List KeyRequest} {r : KeyRequest} (all : s.Accepts (front ++ r :: rest))
    (deletes : r.change = .delete key) (others : ∀ q ∈ rest, ¬ q.change.puts key) :
    (s.run (front ++ r :: rest)).acl.contains key = false := by
  have step : front ++ r :: rest = (front ++ [r]) ++ rest := by simp
  rw [step, run_append, run_concat]
  refine run_absent ?_ others
  obtain ⟨reply, accepted⟩ := (accepts_append all).1
  rcases (s.run front).handle_cases r with ⟨e, handled⟩ | ⟨caller, acl, -, -, drafted, -, -, handled⟩
  · rw [handled] at accepted
    cases accepted
  · rw [handled]
    rw [deletes] at drafted
    obtain ⟨-, rfl, -⟩ := deleteKey_eq drafted
    simp [Acl.contains, Acl.remove, OrderedMap.contains]

end KeyServer

namespace KeyRaces

/-! ## The invariant -/

def isAccepted : KeyStage → Bool
  | .answered (.ok _) => true
  | _ => false

def isPlaced : KeyStage → Bool
  | .placed _ _ _ => true
  | _ => false

/-- The adopted requests, on their own. -/
def history (threads : List KeyThread) (adopted : List Nat) : List KeyRequest :=
  adopted.filterMap fun i => threads[i]?.map (·.request)

/-- What requests have done to the keys is what those that were adopted do one after another;
the file may already be that of a request which is about to be adopted. -/
structure Sequential (s : KeyServer) (threads : List KeyThread) (sh : KeyShared) : Prop where
  nodup : sh.adopted.Nodup
  adopted : ∀ i, i ∈ sh.adopted ↔ ∃ t, threads[i]? = some t ∧ isAccepted t.stage = true
  acl : sh.server.acl = (s.run (history threads sh.adopted)).acl
  replaceable : sh.server.replaceable = s.replaceable
  configured : sh.server.aclFile = none ↔ s.aclFile = none
  accepted : s.Accepts (history threads sh.adopted)
  file : (∃ t ∈ threads, isPlaced t.stage = true) ∨ sh.server.aclFile = (s.run (history threads sh.adopted)).aclFile

/-- What a request knows at the point where it stands. -/
def Stands (sh : KeyShared) (t : KeyThread) : Prop :=
  match t.stage with
  | .asked | .answered _ => True
  | .letIn caller => t.authorization = some (some caller)
  | .drafted caller base acl | .wrote caller base acl | .placed caller base acl =>
      t.authorization = some (some caller) ∧ t.change.draft sh.server.replaceable caller base = .ok acl ∧
        sh.server.aclFile ≠ none

variable {s : KeyServer} {threads : List KeyThread} {sh sh' : KeyShared} {t t' : KeyThread} {i : Nat}

theorem history_set (here : threads[i]? = some t) (same : t'.request = t.request) (adopted : List Nat) :
    history (threads.set i t') adopted = history threads adopted := by
  refine List.filterMap_congr fun j _ => ?_
  by_cases at_ : i = j
  · subst at_
    have bound : i < threads.length := (List.getElem?_eq_some_iff.mp here).1
    rw [List.getElem?_set_self bound, here, Option.map_some, Option.map_some, same]
  · rw [List.getElem?_set_ne at_]

theorem history_append (t : KeyThread) {adopted : List Nat} (within : ∀ i ∈ adopted, i < threads.length) :
    history (threads ++ [t]) adopted = history threads adopted :=
  List.filterMap_congr fun j mem => by rw [List.getElem?_append_left (within j mem)]

/-- The requests whose answer was not an acceptance and is none now. -/
theorem accepted_set (here : threads[i]? = some t) (quiet : isAccepted t'.stage = isAccepted t.stage) (j : Nat) :
    (∃ u, (threads.set i t')[j]? = some u ∧ isAccepted u.stage = true) ↔
      ∃ u, threads[j]? = some u ∧ isAccepted u.stage = true := by
  by_cases at_ : i = j
  · subst at_
    have bound : i < threads.length := (List.getElem?_eq_some_iff.mp here).1
    simp [List.getElem?_set_self bound, here, quiet]
  · rw [List.getElem?_set_ne at_]

/-- A turn that adopts nothing. -/
theorem Sequential.quiet (holds : Sequential s threads sh) (here : threads[i]? = some t) (same : t'.request = t.request)
    (stays : isAccepted t'.stage = isAccepted t.stage) (adopted : sh'.adopted = sh.adopted)
    (acl : sh'.server.acl = sh.server.acl) (replaceable : sh'.server.replaceable = sh.server.replaceable)
    (configured : sh'.server.aclFile = none ↔ sh.server.aclFile = none)
    (file : isPlaced t'.stage = true ∨ sh'.server.aclFile = sh.server.aclFile ∧ isPlaced t.stage = false) :
    Sequential s (threads.set i t') sh' := by
  have bound : i < threads.length := (List.getElem?_eq_some_iff.mp here).1
  refine ⟨adopted ▸ holds.nodup, fun j => ?_, ?_, replaceable.trans holds.replaceable, configured.trans holds.configured,
    ?_, ?_⟩
  · rw [adopted, holds.adopted, accepted_set here stays]
  · rw [acl, adopted, history_set here same, holds.acl]
  · rw [adopted, history_set here same]
    exact holds.accepted
  · rw [adopted, history_set here same]
    rcases file with now | ⟨kept, not_⟩
    · exact .inl ⟨t', List.mem_of_getElem? (List.getElem?_set_self bound), now⟩
    · rcases holds.file with ⟨u, mem, placed⟩ | at_
      · obtain ⟨j, there⟩ := List.getElem?_of_mem mem
        have other : i ≠ j := by
          rintro rfl
          rw [here] at there
          obtain rfl := Option.some.inj there
          rw [not_] at placed
          cases placed
        exact .inl ⟨u, List.mem_of_getElem? ((List.getElem?_set_ne other).trans there), placed⟩
      · exact .inr (kept.trans at_)

/-- A request that adopts its copy does what it would do on its own. -/
theorem Sequential.adopt (holds : Sequential s threads sh) {caller : String} {base acl : Acl}
    (here : threads[i]? = some t) (at_ : t.stage = .placed caller base acl) (stands : Stands sh t)
    (admin : sh.server.acl.isAdmin caller = true) (fresh : t.change.replaces = true ∨ sh.server.acl = base)
    (file : sh.server.aclFile = some (some acl.toToml)) {reply : KeyReply} :
    Sequential s (threads.set i (t.goes (.answered (.ok reply))))
      { sh with server := { sh.server with acl := acl }, adopted := sh.adopted ++ [i] } := by
  have bound : i < threads.length := (List.getElem?_eq_some_iff.mp here).1
  simp only [Stands, at_] at stands
  obtain ⟨given, drafted, configured⟩ := stands
  have new : i ∉ sh.adopted := fun mem => by
    obtain ⟨u, there, accepted⟩ := (holds.adopted i).mp mem
    rw [here] at there
    obtain rfl := Option.some.inj there
    simp [at_, isAccepted] at accepted
  let before := s.run (history threads sh.adopted)
  have now : t.change.draft before.replaceable caller before.acl = .ok acl := by
    have constant : before.replaceable = sh.server.replaceable :=
      (KeyServer.run_constant s _).1.trans holds.replaceable.symm
    rw [constant, ← holds.acl]
    rcases fresh with replaces | same
    · cases change : t.change with
      | replace wanted => simpa [change, KeyChange.draft] using drafted
      | save entry => simp [change, KeyChange.replaces] at replaces
      | delete key => simp [change, KeyChange.replaces] at replaces
    · rw [same]
      exact drafted
  have has : before.aclFile ≠ none := fun none => configured (holds.configured.mpr ((KeyServer.run_constant s _).2.mp none))
  have handled : before.handle t.request =
      ({ before with acl := acl, aclFile := some (some acl.toToml) }, .ok (t.change.reply before.acl acl)) := by
    have letIn : requireAdmin before.acl t.request.authorization = .ok caller := by
      have admin_ : before.acl.isAdmin caller = true := holds.acl ▸ admin
      simp [KeyThread.request, given, requireAdmin, admin_]
    have saved : before.saveAcl acl t.request.fault = .ok { before with acl := acl, aclFile := some (some acl.toToml) } := by
      cases file_ : before.aclFile with
      | none => exact absurd file_ has
      | some text => simp [KeyServer.saveAcl, KeyThread.request, file_]
    simp only [KeyServer.handle, letIn]
    rw [show t.request.change = t.change from rfl, now]
    simp only [saved]
  have history_ : history (threads.set i (t.goes (.answered (.ok reply)))) (sh.adopted ++ [i]) =
      history threads sh.adopted ++ [t.request] := by
    have request : (t.goes (.answered (.ok reply))).request = t.request := rfl
    rw [history_set here request, history, List.filterMap_append]
    simp [history, here]
  refine ⟨?_, fun j => ?_, ?_, holds.replaceable, holds.configured, ?_, .inr ?_⟩
  · exact List.nodup_append.mpr ⟨holds.nodup, by simp, fun a mem b mem' => by
      rw [List.mem_singleton.mp mem']
      exact fun same => new (same ▸ mem)⟩
  · by_cases same : i = j
    · subst same
      simp [List.getElem?_set_self bound, KeyThread.goes, isAccepted]
    · rw [List.getElem?_set_ne same, ← holds.adopted j]
      simp [Ne.symm same]
  · rw [history_, KeyServer.run_concat, handled]
  · rw [history_]
    exact KeyServer.accepts_concat holds.accepted (congrArg Prod.snd handled)
  · rw [history_, KeyServer.run_concat, handled]
    exact file

/-- What a request knows stays true whatever the others do. -/
theorem Stands.mono (stands : Stands sh t) (replaceable : sh'.server.replaceable = sh.server.replaceable)
    (configured : sh'.server.aclFile = none ↔ sh.server.aclFile = none) : Stands sh' t := by
  rw [Stands.eq_def] at stands ⊢
  cases stage : t.stage <;> simp only [stage] at stands ⊢
  case letIn => exact stands
  all_goals exact ⟨stands.1, replaceable ▸ stands.2.1, fun none => stands.2.2 (configured.mp none)⟩

/-- One turn of a request. -/
theorem turn_keeps (holds : Sequential s threads sh) (here : threads[i]? = some t) (stands : Stands sh t) (fault : Option String)
    (fresh : ∀ caller base acl, t.stage = .placed caller base acl → sh.server.acl.isAdmin caller = true ∧
      (t.change.replaces = true ∨ sh.server.acl = base) ∧ sh.server.aclFile = some (some acl.toToml)) :
    let r := keyTurn fault threads i sh t
    Sequential s (threads.set i r.2) r.1 ∧ Stands r.1 r.2 ∧ r.1.server.replaceable = sh.server.replaceable ∧
      (r.1.server.aclFile = none ↔ sh.server.aclFile = none) := by
  have calm : ∀ {stage : KeyStage}, isAccepted stage = isAccepted t.stage → isPlaced t.stage = false →
      Sequential s (threads.set i (t.goes stage)) sh := fun same not_ =>
    holds.quiet here rfl same rfl rfl rfl Iff.rfl (.inr ⟨rfl, not_⟩)
  simp only [keyTurn]
  cases stage : t.stage with
  | asked =>
      simp only
      cases who : requireAdmin sh.server.acl t.authorization with
      | error e => exact ⟨calm (by simp [stage, isAccepted]) (by simp [stage, isPlaced]), trivial, rfl, Iff.rfl⟩
      | ok caller =>
          exact ⟨calm (by simp [stage, isAccepted]) (by simp [stage, isPlaced]), (requireAdmin_eq who).1, rfl, Iff.rfl⟩
  | letIn caller =>
      simp only
      simp only [Stands, stage] at stands
      cases drafted : t.change.draft sh.server.replaceable caller sh.server.acl with
      | error e => exact ⟨calm (by simp [stage, isAccepted]) (by simp [stage, isPlaced]), trivial, rfl, Iff.rfl⟩
      | ok acl =>
          simp only
          cases saved : sh.server.saveAcl acl none with
          | error e => exact ⟨calm (by simp [stage, isAccepted]) (by simp [stage, isPlaced]), trivial, rfl, Iff.rfl⟩
          | ok server =>
              exact ⟨calm (by simp [stage, isAccepted]) (by simp [stage, isPlaced]),
                ⟨stands, drafted, (KeyServer.saveAcl_eq saved).1⟩, rfl, Iff.rfl⟩
  | drafted caller base acl =>
      simp only
      simp only [Stands, stage] at stands
      cases saved : sh.server.saveAcl acl fault with
      | error e => exact ⟨calm (by simp [stage, isAccepted]) (by simp [stage, isPlaced]), trivial, rfl, Iff.rfl⟩
      | ok server =>
          refine ⟨?_, stands, rfl, Iff.rfl⟩
          exact holds.quiet here rfl (by simp [stage, KeyThread.goes, isAccepted]) rfl rfl rfl Iff.rfl
            (.inr ⟨rfl, by simp [stage, isPlaced]⟩)
  | wrote caller base acl =>
      simp only
      simp only [Stands, stage] at stands
      cases saved : sh.server.saveAcl acl (if sh.temp = none then some "No such file or directory (os error 2)" else fault) with
      | error e => exact ⟨calm (by simp [stage, isAccepted]) (by simp [stage, isPlaced]), trivial, rfl, Iff.rfl⟩
      | ok server =>
          have configured : (some sh.temp = (none : Option (Option String)) ↔ sh.server.aclFile = none) :=
            ⟨fun same => (by cases same), fun unset => absurd unset stands.2.2⟩
          refine ⟨?_, ⟨stands.1, stands.2.1, by simp⟩, rfl, configured⟩
          exact holds.quiet here rfl (by simp [stage, KeyThread.goes, isAccepted]) rfl rfl rfl configured (.inl rfl)
  | placed caller base acl =>
      obtain ⟨admin, same, file⟩ := fresh caller base acl stage
      exact ⟨holds.adopt here stage stands admin same file, trivial, rfl, Iff.rfl⟩
  | answered reply =>
      have same : threads.set i t = threads := by
        obtain ⟨bound, at_⟩ := List.getElem?_eq_some_iff.mp here
        rw [← at_, List.set_getElem_self]
      exact ⟨same.symm ▸ holds, stands, rfl, Iff.rfl⟩

theorem step_sequential (s : KeyServer) (p : Pool KeyShared KeyThread) (m : Move (Option String) KeyThread)
    (holds : Pool.Holds (Sequential s) (fun _ sh _ t => Stands sh t) p) (meets : adoptsFresh p m = true) :
    Pool.Holds (Sequential s) (fun _ sh _ t => Stands sh t) (p.step keyTurn m) := by
  refine Pool.step_keeps (fun p m => adoptsFresh p m = true) ?_ ?_ p m holds meets
  · intro p t holds meets
    have asked : t.stage = .asked := by
      simp only [adoptsFresh] at meets
      split at meets
      · assumption
      · cases meets
    have within : ∀ i ∈ p.shared.adopted, i < p.threads.length := fun i mem => by
      obtain ⟨u, there, -⟩ := (holds.shared.adopted i).mp mem
      exact (List.getElem?_eq_some_iff.mp there).1
    refine ⟨⟨holds.shared.nodup, fun j => ?_, ?_, holds.shared.replaceable, holds.shared.configured, ?_, ?_⟩, ?_,
      fun _ _ _ _ stands => stands⟩
    · rw [holds.shared.adopted]
      rcases Nat.lt_trichotomy j p.threads.length with before | last | after
      · rw [List.getElem?_append_left before]
      · subst last
        simp [asked, isAccepted]
      · rw [List.getElem?_eq_none (by omega), List.getElem?_eq_none (by simp; omega)]
    · rw [history_append t within]
      exact holds.shared.acl
    · rw [history_append t within]
      exact holds.shared.accepted
    · rw [history_append t within]
      rcases holds.shared.file with ⟨u, mem, placed⟩ | same
      · exact .inl ⟨u, List.mem_append_left _ mem, placed⟩
      · exact .inr same
    · simp [Stands, asked]
  · intro p i fault t holds meets here
    have turn := turn_keeps holds.shared here (holds.thread i t here) fault fun caller base acl stage => by
      simpa [adoptsFresh, here, stage, and_assoc] using meets
    exact ⟨turn.1, turn.2.1, fun j u other there stands => stands.mono turn.2.2.1 turn.2.2.2⟩

/-! ## Runs -/

/-- A server before any request. -/
def opening (s : KeyServer) : Pool KeyShared KeyThread := ⟨⟨s, none, []⟩, []⟩

theorem opening_sequential (s : KeyServer) : Pool.Holds (Sequential s) (fun _ sh _ t => Stands sh t) (opening s) :=
  ⟨⟨List.nodup_nil, by simp [opening], rfl, rfl, Iff.rfl, trivial, .inr rfl⟩, by simp [opening]⟩

/-- However requests overlap, as long as each adopts what is still fresh: once all have been
accepted, they have done to the ACL and its file what they do one after another in some order,
the file says what the ACL says, and a key that was deleted and not put back since is gone. -/
theorem overlapping_changes (s : KeyServer) (moves : List (Move (Option String) KeyThread))
    (meets : Pool.AllAllowed keyTurn (fun p m => adoptsFresh p m = true) (opening s) moves)
    (accepted : ∀ t ∈ ((opening s).run keyTurn moves).threads, isAccepted t.stage = true) :
    let final := (opening s).run keyTurn moves
    final.shared.adopted.Perm (List.range final.threads.length) ∧
    s.Accepts (history final.threads final.shared.adopted) ∧
    final.shared.server = s.run (history final.threads final.shared.adopted) ∧
    (final.threads ≠ [] → final.shared.server.aclFile = some (some final.shared.server.acl.toToml)) ∧
    ∀ front i later t key, final.shared.adopted = front ++ i :: later → final.threads[i]? = some t →
      t.change = .delete key → (∀ j ∈ later, ∀ u, final.threads[j]? = some u → ¬ u.change.puts key) →
      final.shared.server.acl.contains key = false := by
  intro final
  have holds : Pool.Holds (Sequential s) (fun _ sh _ t => Stands sh t) final :=
    Pool.run_keeps (fun p m holds meets => step_sequential s p m holds meets) moves _ (opening_sequential s) meets
  have inv := holds.shared
  have server : final.shared.server = s.run (history final.threads final.shared.adopted) := by
    have file : final.shared.server.aclFile = (s.run (history final.threads final.shared.adopted)).aclFile := by
      refine inv.file.resolve_left fun ⟨t, mem, placed⟩ => ?_
      have done := accepted t mem
      cases stage : t.stage <;> simp [stage, isPlaced, isAccepted] at placed done
    have constant := (KeyServer.run_constant s (history final.threads final.shared.adopted)).1
    have acl := inv.acl
    have replaceable := inv.replaceable.trans constant.symm
    generalize s.run (history final.threads final.shared.adopted) = at_ at file acl replaceable ⊢
    cases same : final.shared.server
    cases at_
    simp_all
  have all : ∀ i, i ∈ final.shared.adopted ↔ i < final.threads.length := fun i => by
    rw [inv.adopted]
    constructor
    · rintro ⟨t, there, -⟩
      exact (List.getElem?_eq_some_iff.mp there).1
    · intro bound
      exact ⟨final.threads[i], List.getElem?_eq_getElem bound, accepted _ (List.getElem_mem bound)⟩
  refine ⟨?_, inv.accepted, server, fun some_ => ?_, ?_⟩
  · rw [List.perm_ext_iff_of_nodup inv.nodup List.nodup_range]
    exact fun i => (all i).trans List.mem_range.symm
  · have more : history final.threads final.shared.adopted ≠ [] := fun none => by
      have bound : 0 < final.threads.length := List.length_pos_iff.mpr some_
      have mem : final.threads[0].request ∈ history final.threads final.shared.adopted :=
        List.mem_filterMap.mpr ⟨0, (all 0).mpr bound, by simp [List.getElem?_eq_getElem bound]⟩
      rw [none] at mem
      cases mem
    obtain ⟨front, r, split_⟩ := (List.eq_nil_or_concat _).resolve_left more
    rw [List.concat_eq_append] at split_
    have accepts := inv.accepted
    rw [split_] at accepts server
    obtain ⟨reply, last⟩ := (KeyServer.accepts_append accepts).1
    rw [server, KeyServer.run_concat]
    exact KeyServer.file_of_accepted last
  · intro front i later t key order here deletes others
    rw [server]
    have split_ : history final.threads final.shared.adopted =
        history final.threads front ++ t.request :: history final.threads later := by
      rw [order, history, List.filterMap_append, List.filterMap_cons_some (by rw [here]; rfl)]
      rfl
    have accepts := inv.accepted
    rw [split_] at accepts ⊢
    refine KeyServer.run_deleted accepts deletes fun q mem => ?_
    obtain ⟨j, later_, same⟩ := List.mem_filterMap.mp mem
    obtain ⟨u, there, rfl⟩ := Option.map_eq_some_iff.mp same
    exact others j later_ u there

/-- An admin and another key, and two requests of the admin's. -/
def pair : KeyServer := ⟨⟨(OrderedMap.empty.insert "k" [.allData, .adminOnly]).insert "old" [.allData]⟩, some none, false⟩

def asks (change : KeyChange) : Move (Option String) KeyThread := .start ⟨some (some "k"), change, .asked⟩

def turns (i n : Nat) : List (Move (Option String) KeyThread) := List.replicate n (.go i none)

/-- Both are let in before either takes its copy, and the second takes it when the first has
adopted its own. -/
def inTurn : List (Move (Option String) KeyThread) :=
  [asks (.delete "old"), asks (.save ⟨"new", false, ["a"], []⟩)] ++ turns 0 1 ++ turns 1 1 ++ turns 0 4 ++ turns 1 4

/-- Both take their copies before either adopts its own. -/
def overlapping : List (Move (Option String) KeyThread) :=
  [asks (.delete "old"), asks (.save ⟨"new", false, ["a"], []⟩)] ++ turns 0 2 ++ turns 1 2 ++ turns 0 3 ++ turns 1 3

theorem overlapping_changes_in_turn :
    let final := (opening pair).run keyTurn inTurn
    final.shared.server = pair.run (history final.threads [0, 1]) ∧
      final.shared.server.aclFile = some (some final.shared.server.acl.toToml) ∧
      final.shared.server.acl.contains "old" = false ∧ final.shared.server.acl.contains "new" = true := by
  have order : ((opening pair).run keyTurn inTurn).shared.adopted = [0, 1] := by decide
  obtain ⟨-, -, server, file, gone⟩ := overlapping_changes pair inTurn
    (Pool.allAllowed_of_checks (fun _ _ ok => ok) inTurn _ (by decide +kernel)) (by decide)
  rw [order] at server gone
  refine ⟨server, file (by decide), ?_, by decide⟩
  have ended : ((opening pair).run keyTurn inTurn).threads =
      [⟨some (some "k"), .delete "old", .answered (.ok .deleted)⟩,
        ⟨some (some "k"), .save ⟨"new", false, ["a"], []⟩, .answered (.ok (.saved ⟨"new", false, ["a"], []⟩))⟩] := by rfl
  refine gone [] 0 [1] ⟨some (some "k"), .delete "old", .answered (.ok .deleted)⟩ "old" rfl (by rw [ended]; rfl) rfl ?_
  intro j later u there
  obtain rfl : j = 1 := List.mem_singleton.mp later
  rw [ended] at there
  obtain rfl := Option.some.inj there
  exact (by decide : ¬ "new" = "old")

/-- The key whose deletion was accepted first is back, as after neither order. -/
theorem deleted_key_returns : (∀ t ∈ ((opening pair).run keyTurn overlapping).threads, isAccepted t.stage = true) ∧
    ((opening pair).run keyTurn overlapping).shared.adopted = [0, 1] ∧
    ((opening pair).run keyTurn overlapping).shared.server.acl.contains "old" = true ∧
    (pair.run (history ((opening pair).run keyTurn overlapping).threads [0, 1])).acl.contains "old" = false ∧
    (pair.run (history ((opening pair).run keyTurn overlapping).threads [1, 0])).acl.contains "old" = false := by
  decide

end KeyRaces

end SightingDB
