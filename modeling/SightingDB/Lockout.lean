import SightingDB.KeyChanges

/-!
Whether changing keys can lock everyone out. In memory an admin is always left. The file keeps
one as long as nothing in it means anything to TOML, and a replaced list leaves its caller an
admin exactly when it says so itself.
-/
namespace SightingDB

namespace KeyServer

variable {s s' : KeyServer} {r : KeyRequest} {reply : KeyReply}

theorem saveAcl_eq {acl : Acl} {fault : Option String} (saved : s.saveAcl acl fault = .ok s') :
    s.aclFile ≠ none ∧ fault = none ∧ s' = { s with acl := acl, aclFile := some (some acl.toToml) } := by
  rw [saveAcl.eq_def] at saved
  split at saved
  · cases saved
  · cases saved
  · rename_i configured
    exact ⟨by simp [configured], rfl, (Except.ok.inj saved).symm⟩

/-- Everything a request can do. -/
theorem handle_cases (s : KeyServer) (r : KeyRequest) :
    (∃ e, s.handle r = (s, .error e)) ∨
    ∃ caller acl, r.authorization = some (some caller) ∧ s.acl.isAdmin caller = true ∧
      r.change.draft s.replaceable caller s.acl = .ok acl ∧ s.aclFile ≠ none ∧ r.fault = none ∧
      s.handle r = ({ s with acl := acl, aclFile := some (some acl.toToml) }, .ok (r.change.reply s.acl acl)) := by
  simp only [handle]
  cases who : requireAdmin s.acl r.authorization with
  | error e => exact .inl ⟨e, rfl⟩
  | ok caller =>
      obtain ⟨given, admin⟩ := requireAdmin_eq who
      cases drafted : r.change.draft s.replaceable caller s.acl with
      | error e => exact .inl ⟨e, by simp only [drafted]⟩
      | ok acl =>
          cases saved : s.saveAcl acl r.fault with
          | error e => exact .inl ⟨e, by simp only [drafted, saved]⟩
          | ok s' =>
              obtain ⟨configured, fine, rfl⟩ := saveAcl_eq saved
              exact .inr ⟨caller, acl, given, admin, drafted, configured, fine, by simp only [drafted, saved]⟩

theorem run_concat (s : KeyServer) (requests : List KeyRequest) (r : KeyRequest) :
    s.run (requests ++ [r]) = ((s.run requests).handle r).1 := by
  simp [run]

/-- No request takes the last admin away. -/
theorem handle_admin (admin : 0 < s.acl.adminCount) : 0 < (s.handle r).1.acl.adminCount := by
  rcases s.handle_cases r with ⟨e, handled⟩ | ⟨caller, acl, -, -, drafted, -, -, handled⟩
  · rw [handled]
    exact admin
  · rw [handled]
    exact KeyChange.draft_admin admin drafted

theorem handle_writable (writable : s.acl.Writable) (plain : r.change.Plain) : (s.handle r).1.acl.Writable := by
  rcases s.handle_cases r with ⟨e, handled⟩ | ⟨caller, acl, -, -, drafted, -, -, handled⟩
  · rw [handled]
    exact writable
  · rw [handled]
    exact KeyChange.draft_writable writable plain drafted

theorem run_admin (admin : 0 < s.acl.adminCount) (requests : List KeyRequest) : 0 < (s.run requests).acl.adminCount := by
  induction requests generalizing s with
  | nil => exact admin
  | cons r rest ih => exact ih (handle_admin admin)

theorem run_writable (writable : s.acl.Writable) {requests : List KeyRequest} (plain : ∀ r ∈ requests, r.change.Plain) :
    (s.run requests).acl.Writable := by
  induction requests generalizing s with
  | nil => exact writable
  | cons r rest ih =>
      exact ih (handle_writable writable (plain r (by simp))) fun q mem => plain q (by simp [mem])

/-- The entry a list ends up with for a key. -/
def lastFor (key : String) (wanted : List KeyEntry) : Option KeyEntry := (wanted.filter (·.key = key)).getLast?

theorem isAdmin_replaced (wanted : List KeyEntry) (start : Acl) (key : String) :
    (wanted.foldl (fun acl entry => acl.set entry.key entry.toGrants) start).isAdmin key =
      (lastFor key wanted).elim (start.isAdmin key) (·.admin) := by
  induction wanted using List.reverseRecOn with
  | nil => rfl
  | append_singleton rest entry ih =>
      rw [List.foldl_append, List.foldl_cons, List.foldl_nil, Acl.isAdmin_set, KeyEntry.any_admin, ih]
      by_cases same : key = entry.key
      · subst same
        simp [lastFor]
      · simp [lastFor, same, Ne.symm same]

/-- From a server with an admin, after any requests and one more: an admin is left in memory;
if the request was accepted and neither the ACL at the start nor any change names anything
that means something to TOML, the file holds an admin too; and a replaced list leaves the key
that sent it an admin exactly when its last entry for that key says so. -/
theorem no_lockout (s : KeyServer) (admin : 0 < s.acl.adminCount) (before : List KeyRequest) (r : KeyRequest) :
    0 < (s.run (before ++ [r])).acl.adminCount ∧
    (∀ reply, ((s.run before).handle r).2 = .ok reply →
      (s.acl.Writable → (∀ q ∈ before ++ [r], q.change.Plain) →
        ∃ text read, (s.run (before ++ [r])).aclFile = some (some text) ∧ loadAcl text = .ok read ∧ 0 < read.adminCount) ∧
      ∀ wanted caller, r.change = .replace wanted → r.authorization = some (some caller) →
        ((s.run (before ++ [r])).acl.isAdmin caller = true ↔ ∃ entry, lastFor caller wanted = some entry ∧ entry.admin = true)) := by
  rw [run_concat]
  have held := run_admin admin before
  refine ⟨handle_admin held, fun reply accepted => ?_⟩
  rcases (s.run before).handle_cases r with ⟨e, handled⟩ | ⟨caller, acl, given, -, drafted, -, -, handled⟩
  · rw [handled] at accepted
    cases accepted
  · rw [handled]
    refine ⟨fun writable plain => ?_, fun wanted caller' change given' => ?_⟩
    · have kept := @run_writable s writable before fun q mem => plain q (by simp [mem])
      have now := KeyChange.draft_writable kept (plain r (by simp)) drafted
      exact ⟨acl.toToml, acl, rfl, Acl.loadAcl_of_writable now, KeyChange.draft_admin held drafted⟩
    · rw [change] at drafted
      obtain ⟨-, rfl, -⟩ := replaceKeys_eq drafted
      rw [isAdmin_replaced]
      cases lastFor caller' wanted <;> simp [Acl.isAdmin]

/-- One admin, on a server whose keys may be replaced. -/
def lone : KeyServer := ⟨⟨OrderedMap.empty.insert "k" [.allData, .adminOnly]⟩, some none, true⟩

def byAdmin (change : KeyChange) : KeyRequest := ⟨some (some "k"), change, none⟩

/-- A key is added, and then the keys are replaced by a list in which the caller is no admin. -/
def handedOver : KeyRequest := byAdmin (.replace [⟨"k", false, [""], []⟩, ⟨"j", true, [], []⟩])

theorem no_lockout_lone :
    let s := lone.run ([byAdmin (.save ⟨"j", false, ["a"], []⟩)] ++ [handedOver])
    0 < s.acl.adminCount ∧ (∃ text read, s.aclFile = some (some text) ∧ loadAcl text = .ok read ∧ 0 < read.adminCount) ∧
      ¬ s.acl.isAdmin "k" = true := by
  obtain ⟨left, accepted⟩ := no_lockout lone (by decide) [byAdmin (.save ⟨"j", false, ["a"], []⟩)] handedOver
  obtain ⟨file, caller⟩ := accepted (.replaced 2 []) (by decide)
  refine ⟨left, file ⟨by decide, by decide, by decide, by decide, by decide⟩ ?_, ?_⟩
  · intro q asked
    simp only [List.cons_append, List.nil_append, List.mem_cons, List.not_mem_nil, or_false] at asked
    rcases asked with rfl | rfl
    · exact ⟨by decide, by decide⟩
    · intro entry listed
      simp only [List.mem_cons, List.not_mem_nil, or_false] at listed
      rcases listed with rfl | rfl
      · exact ⟨by decide, by decide⟩
      · exact ⟨by decide, by decide⟩
  rw [caller [⟨"k", false, [""], []⟩, ⟨"j", true, [], []⟩] "k" rfl rfl]
  rintro ⟨entry, last, admin⟩
  obtain rfl := Option.some.inj last
  cases admin

/-- The caller makes itself an ordinary key, and a quote in a subtree makes the file unreadable. -/
theorem lone_locked_out : 0 < lone.acl.adminCount ∧
    (lone.handle (byAdmin (.replace [⟨"k", false, [""], []⟩, ⟨"j", true, [], []⟩]))).2 = .ok (.replaced 2 []) ∧
    (lone.handle (byAdmin (.replace [⟨"k", false, [""], []⟩, ⟨"j", true, [], []⟩]))).1.acl.isAdmin "k" = false ∧
    (lone.handle (byAdmin (.save ⟨"j", false, ["a\"b"], []⟩))).2 = .ok (.saved ⟨"j", false, ["a\"b"], []⟩) ∧
    ((lone.handle (byAdmin (.save ⟨"j", false, ["a\"b"], []⟩))).1.aclFile.bind id).map loadAcl = some (.error .unreadable) := by
  have written : ((lone.handle (byAdmin (.save ⟨"j", false, ["a\"b"], []⟩))).1.aclFile.bind id) =
      some (lone.handle (byAdmin (.save ⟨"j", false, ["a\"b"], []⟩))).1.acl.toToml := rfl
  refine ⟨by decide, by decide, by decide, by decide, ?_⟩
  rw [written, Option.map_some, Acl.loadAcl_toToml ⟨by decide, by decide, by decide⟩]
  decide

end KeyServer

end SightingDB
