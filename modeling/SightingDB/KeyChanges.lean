import SightingDB.AclFile

/-!
Changes to the keys, made through the management interface: one key saved or deleted, or the
whole list replaced. A change is worked out on a copy of the ACL, the copy is written to the
file, and only then adopted. The record of revocations is left out.
-/
namespace SightingDB

/-- A request turned down: the status and the message. -/
structure Refusal where
  status : Nat
  message : String
  deriving DecidableEq

/-- `require_admin`: the key of the request, if it is an admin key. -/
def requireAdmin (acl : Acl) (authorization : Option (Option String)) : Except Refusal String :=
  match authorization with
  | none => .error ⟨401, "An admin API key is required."⟩
  | some none => .error ⟨400, "Authorization header is not valid UTF-8."⟩
  | some (some key) => if acl.isAdmin key then .ok key else .error ⟨403, "That key is not an admin key."⟩

/-- The copy `save_key` adopts. -/
def saveKey (acl : Acl) (entry : KeyEntry) : Except Refusal Acl :=
  match entry.validate with
  | .error e => .error ⟨400, e⟩
  | .ok () =>
      let saved := acl.set entry.key entry.toGrants
      if acl.isAdmin entry.key && !entry.admin && saved.adminCount = 0 then
        .error ⟨409, "That would leave no admin key. Grant admin to another key first."⟩
      else .ok saved

/-- The copy `delete_key` adopts. -/
def deleteKey (acl : Acl) (key : String) : Except Refusal Acl :=
  if !acl.contains key then .error ⟨404, "No such key."⟩
  else if (acl.remove key).adminCount = 0 then
    .error ⟨409, "That would revoke the last admin key. Grant admin to another key first."⟩
  else .ok (acl.remove key)

/-- The ACL `replace_keys` adopts. -/
def replaceKeys (replaceable : Bool) (caller : String) (wanted : List KeyEntry) : Except Refusal Acl :=
  if !replaceable then
    .error ⟨403, "This server does not let another replace its keys. Set acl_replaceable in [galaxy] if it should."⟩
  else match wanted.mapM (·.validate) with
    | .error e => .error ⟨400, e⟩
    | .ok _ =>
        let acl := wanted.foldl (fun acl entry => acl.set entry.key entry.toGrants) ⟨∅⟩
        if acl.adminCount = 0 then
          .error ⟨409, "That set has no admin key, and would lock everyone out of this interface."⟩
        else if !acl.contains caller then
          .error ⟨409, "That set does not include the key making this request, which would lock the caller out of the server it is replacing."⟩
        else .ok acl

inductive KeyChange
  | save (entry : KeyEntry)
  | delete (key : String)
  | replace (wanted : List KeyEntry)
  deriving DecidableEq

namespace KeyChange

/-- What a change makes of a copy of the ACL. -/
def draft (replaceable : Bool) (caller : String) (acl : Acl) : KeyChange → Except Refusal Acl
  | .save entry => saveKey acl entry
  | .delete key => deleteKey acl key
  | .replace wanted => replaceKeys replaceable caller wanted

end KeyChange

inductive KeyReply
  | saved (entry : KeyEntry)
  | deleted
  | replaced (held : Nat) (revoked : List String)
  deriving DecidableEq

def KeyChange.reply (before after : Acl) : KeyChange → KeyReply
  | .save entry => .saved entry
  | .delete _ => .deleted
  | .replace wanted => .replaced wanted.length (before.keys.keys.filter fun key => !after.contains key)

/-- The keys of a server. -/
structure KeyServer where
  acl : Acl
  /-- The configured file, and the text in it once it exists. -/
  aclFile : Option (Option String)
  replaceable : Bool
  deriving DecidableEq

structure KeyRequest where
  authorization : Option (Option String)
  change : KeyChange
  /-- Why the file cannot be written, if it cannot. -/
  fault : Option String
  deriving DecidableEq

namespace KeyServer

/-- Persist the ACL, then adopt it. -/
def saveAcl (s : KeyServer) (acl : Acl) (fault : Option String) : Except Refusal KeyServer :=
  match s.aclFile, fault with
  | none, _ => .error ⟨409, "No acl_file is configured, so keys cannot be edited here. Set acl_file in [daemon] and restart."⟩
  | some _, some reason => .error ⟨500, "Could not write the ACL file: " ++ reason⟩
  | some _, none => .ok { s with acl := acl, aclFile := some (some acl.toToml) }

/-- `save_key`, `delete_key` and `replace_keys`. -/
def handle (s : KeyServer) (r : KeyRequest) : KeyServer × Except Refusal KeyReply :=
  match requireAdmin s.acl r.authorization with
  | .error e => (s, .error e)
  | .ok caller => match r.change.draft s.replaceable caller s.acl with
    | .error e => (s, .error e)
    | .ok acl => match s.saveAcl acl r.fault with
      | .error e => (s, .error e)
      | .ok s' => (s', .ok (r.change.reply s.acl acl))

/-- Requests processed one after another. -/
def run (s : KeyServer) (requests : List KeyRequest) : KeyServer := requests.foldl (fun s r => (s.handle r).1) s

end KeyServer

/-! ## What a change does -/

section Changes

variable {acl acl' : Acl} {entry : KeyEntry} {caller : String}

theorem Acl.isAdmin_set (acl : Acl) (key key' : String) (grants : List Grant) :
    (acl.set key grants).isAdmin key' = if key' = key then grants.any (·.admin) else acl.isAdmin key' := by
  by_cases same : key' = key <;> simp [Acl.isAdmin, Acl.set, OrderedMap.get_insert, same]

/-- Somebody can use the interface. -/
theorem Acl.adminCount_pos : 0 < acl.adminCount ↔ ∃ key, acl.isAdmin key = true := by
  rw [Acl.adminCount, OrderedMap.countP_pos]
  refine exists_congr fun key => ?_
  rw [Acl.isAdmin]
  constructor
  · rintro ⟨grants, found, admin⟩
    simpa [found] using admin
  · intro admin
    split at admin
    · cases admin
    · rename_i grants found
      exact ⟨grants, found, admin⟩

theorem KeyEntry.any_admin (entry : KeyEntry) : entry.toGrants.any (·.admin) = entry.admin := by
  cases admin : entry.admin <;> simp [KeyEntry.toGrants, admin, Grant.adminOnly]

theorem requireAdmin_eq {authorization : Option (Option String)} (who : requireAdmin acl authorization = .ok caller) :
    authorization = some (some caller) ∧ acl.isAdmin caller = true := by
  rw [requireAdmin.eq_def] at who
  split at who
  · cases who
  · cases who
  · split_ifs at who with admin
    obtain rfl := Except.ok.inj who
    exact ⟨rfl, admin⟩

theorem saveKey_eq (saved : saveKey acl entry = .ok acl') : entry.validate = .ok () ∧
    acl' = acl.set entry.key entry.toGrants ∧
    (acl.isAdmin entry.key = true → entry.admin = false → acl'.adminCount ≠ 0) := by
  rw [saveKey] at saved
  split at saved
  · cases saved
  · rename_i valid
    simp only at saved
    split_ifs at saved with guard
    obtain rfl := Except.ok.inj saved
    refine ⟨valid, rfl, fun was now none => guard ?_⟩
    simp [was, now, none]

theorem deleteKey_eq {key : String} (deleted : deleteKey acl key = .ok acl') :
    acl.contains key = true ∧ acl' = acl.remove key ∧ acl'.adminCount ≠ 0 := by
  rw [deleteKey] at deleted
  split_ifs at deleted with absent none
  obtain rfl := Except.ok.inj deleted
  exact ⟨by simpa using absent, rfl, none⟩

theorem replaceKeys_eq {replaceable : Bool} {wanted : List KeyEntry}
    (replaced : replaceKeys replaceable caller wanted = .ok acl') : (∀ entry ∈ wanted, entry.validate = .ok ()) ∧
    acl' = wanted.foldl (fun acl entry => acl.set entry.key entry.toGrants) ⟨∅⟩ ∧ acl'.adminCount ≠ 0 ∧
    acl'.contains caller = true := by
  rw [replaceKeys] at replaced
  split_ifs at replaced
  split at replaced
  · cases replaced
  · rename_i valid
    simp only at replaced
    split_ifs at replaced with none absent
    obtain rfl := Except.ok.inj replaced
    refine ⟨fun entry mem => ?_, rfl, none, by simpa using absent⟩
    obtain ⟨_, -, ok⟩ := Traverse.exists_right (Traverse.mapM_eq_ok valid) mem
    exact ok

/-- Whatever is accepted leaves an admin. -/
theorem KeyChange.draft_admin {replaceable : Bool} {change : KeyChange} (admin : 0 < acl.adminCount)
    (drafted : change.draft replaceable caller acl = .ok acl') : 0 < acl'.adminCount := by
  cases change with
  | delete key => exact Nat.pos_of_ne_zero (deleteKey_eq drafted).2.2
  | replace wanted => exact Nat.pos_of_ne_zero (replaceKeys_eq drafted).2.2.1
  | save entry =>
      obtain ⟨-, rfl, guard⟩ := saveKey_eq drafted
      obtain ⟨key, was⟩ := Acl.adminCount_pos.mp admin
      by_cases same : key = entry.key
      · subst same
        cases now : entry.admin with
        | false => exact Nat.pos_of_ne_zero (guard was now)
        | true => exact Acl.adminCount_pos.mpr ⟨entry.key, by rw [Acl.isAdmin_set, if_pos rfl, KeyEntry.any_admin, now]⟩
      · exact Acl.adminCount_pos.mpr ⟨key, by rw [Acl.isAdmin_set, if_neg same, was]⟩

/-! ### The file after a change -/

/-- What passes the checks can be granted. -/
theorem KeyEntry.validate_eq (valid : entry.validate = .ok ()) : validateKey entry.key = .ok () ∧
    (∀ root ∈ entry.read ++ entry.write, validateNamespace root = .ok ()) ∧ entry.toGrants ≠ [] := by
  rw [KeyEntry.validate] at valid
  split at valid
  · cases valid
  · rename_i key
    split at valid
    · cases valid
    · rename_i roots
      split_ifs at valid with none
      refine ⟨key, fun root mem => ?_, fun empty => none ?_⟩
      · obtain ⟨_, -, ok⟩ := Traverse.exists_right (Traverse.mapM_eq_ok roots) mem
        exact ok
      · have admin : entry.admin = false := by
          rw [← KeyEntry.any_admin, empty]
          rfl
        simp only [KeyEntry.toGrants, List.append_eq_nil_iff, List.map_eq_nil_iff] at empty
        obtain ⟨⟨read, rest⟩, -⟩ := empty
        have write : entry.write = [] := by
          refine List.eq_nil_iff_forall_not_mem.mpr fun root mem => ?_
          have := List.filter_eq_nil_iff.mp rest root mem
          simp [read] at this
        simp [admin, read, write]

theorem KeyEntry.root_of_mem {g : Grant} (mem : g ∈ entry.toGrants) : g.root ∈ entry.read ++ entry.write ∨ g.root = "" := by
  simp only [KeyEntry.toGrants, List.mem_append, List.mem_map, List.mem_filter] at mem
  rcases mem with (⟨root, here, rfl⟩ | ⟨root, ⟨here, -⟩, rfl⟩) | admin
  · exact .inl (List.mem_append_left _ here)
  · exact .inl (List.mem_append_right _ here)
  · split_ifs at admin
    · obtain rfl : g = .adminOnly := by simpa using admin
      exact .inr rfl
    · cases admin

/-- Nothing an entry names means anything to the file. -/
def KeyEntry.Plain (entry : KeyEntry) : Prop :=
  Toml.Plain entry.key.toList ∧ ∀ root ∈ entry.read ++ entry.write, Toml.Plain root.toList

def KeyChange.Plain : KeyChange → Prop
  | .save entry => entry.Plain
  | .delete _ => True
  | .replace wanted => ∀ entry ∈ wanted, entry.Plain

theorem Acl.writable_set (writable : acl.Writable) (valid : entry.validate = .ok ()) (plain : entry.Plain) :
    (acl.set entry.key entry.toGrants).Writable := by
  obtain ⟨-, roots, some_⟩ := entry.validate_eq valid
  have entries : ∀ e ∈ (acl.set entry.key entry.toGrants).keys.entries,
      e = (entry.key, entry.toGrants) ∨ e ∈ acl.keys.entries := fun e mem => OrderedMap.mem_insertEntry mem
  have solid : ∀ g ∈ entry.toGrants, ∀ c ∈ g.root.toList, isReserved c = false := by
    intro g here c at_
    rcases entry.root_of_mem here with named | none
    · exact solid_of_validateNamespace (roots _ named) c at_
    · rw [none] at at_
      exact absurd at_ (by simp)
  constructor
  · intro e mem
    rcases entries e mem with rfl | old
    · exact plain.1
    · exact writable.key e old
  · intro e mem
    rcases entries e mem with rfl | old
    · exact some_
    · exact writable.some_ e old
  · intro e mem g here
    rcases entries e mem with rfl | old
    · rcases entry.root_of_mem here with named | none
      · exact plain.2 _ named
      · rw [none]
        exact fun c at_ => absurd at_ (by simp)
    · exact writable.plain e old g here
  · intro e mem g here
    rcases entries e mem with rfl | old
    · exact fun comma => (not_reserved (solid g here _ comma)).2.1 rfl
    · exact writable.comma e old g here
  · intro e mem g here
    rcases entries e mem with rfl | old
    · exact trim_of_solid fun c at_ => (not_reserved (solid g here c at_)).1
    · exact writable.trimmed e old g here

theorem Acl.writable_remove (writable : acl.Writable) (key : String) : (acl.remove key).Writable := by
  have entries : ∀ e ∈ (acl.remove key).keys.entries, e ∈ acl.keys.entries := fun e mem => List.mem_of_mem_filter mem
  exact ⟨fun e mem => writable.key e (entries e mem), fun e mem => writable.some_ e (entries e mem),
    fun e mem => writable.plain e (entries e mem), fun e mem => writable.comma e (entries e mem),
    fun e mem => writable.trimmed e (entries e mem)⟩

/-- Plain changes to an ACL that can be written leave one that can. -/
theorem KeyChange.draft_writable {replaceable : Bool} {change : KeyChange} (writable : acl.Writable) (plain : change.Plain)
    (drafted : change.draft replaceable caller acl = .ok acl') : acl'.Writable := by
  cases change with
  | save entry =>
      obtain ⟨valid, rfl, -⟩ := saveKey_eq drafted
      exact Acl.writable_set writable valid plain
  | delete key =>
      obtain ⟨-, rfl, -⟩ := deleteKey_eq drafted
      exact Acl.writable_remove writable key
  | replace wanted =>
      obtain ⟨valid, rfl, -⟩ := replaceKeys_eq drafted
      have folded : ∀ (l : List KeyEntry) (start : Acl), start.Writable → (∀ entry ∈ l, entry.validate = .ok ()) →
          (∀ entry ∈ l, entry.Plain) →
          (l.foldl (fun acl entry => acl.set entry.key entry.toGrants) start).Writable := by
        intro l
        induction l with
        | nil => exact fun _ kept _ _ => kept
        | cons entry rest ih =>
            intro start kept valid plain
            exact ih _ (Acl.writable_set kept (valid entry (by simp)) (plain entry (by simp)))
              (fun e mem => valid e (by simp [mem])) fun e mem => plain e (by simp [mem])
      refine folded wanted ⟨∅⟩ ?_ valid plain
      constructor <;> exact fun e mem => absurd mem List.not_mem_nil

end Changes

end SightingDB
