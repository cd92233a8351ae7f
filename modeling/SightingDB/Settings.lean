import SightingDB.TierChanges
import SightingDB.Lockout
import SightingDB.Vocabulary

/-!
The settings a server keeps in files of its own (keys, tag vocabulary, storage tiers) and the
six requests that change them. Keys and tags are written out first and adopted afterwards; the
tier policy is changed first.
-/
namespace SightingDB

/-- Which file operations of a request fail, with what the system says. -/
structure FileFaults where
  createDir : Option String
  write : Option String
  rename : Option String
  deriving DecidableEq

/-- The operations are tried in turn; the first that fails ends the write and leaves the file as
it was. -/
def FileFaults.reason (faults : FileFaults) : Option String := faults.createDir <|> faults.write <|> faults.rename

inductive SettingsChange
  | keys (change : KeyChange)
  | defineTag (name colour description : String)
  | undefineTag (tag : String)
  | setTier (change : TierChange)
  deriving DecidableEq

structure SettingsRequest where
  authorization : Option (Option String)
  change : SettingsChange
  faults : FileFaults
  deriving DecidableEq

/-- The vocabulary stands for the table of tags; how often each is used is left out. -/
inductive SettingsReply
  | keys (reply : KeyReply)
  | tags (vocabulary : Vocabulary) (editable : Bool)
  | tier (reply : TierReply)
  deriving DecidableEq

/-- What is in memory, with each file's configured place and its text once it is written. -/
structure SettingsServer where
  acl : Acl
  aclFile : Option (Option String)
  replaceable : Bool
  vocabulary : Vocabulary
  tagsFile : Option (Option String)
  policy : TierPolicy
  tiersFile : Option (Option String)
  deriving DecidableEq

namespace SettingsServer

def keyServer (s : SettingsServer) : KeyServer := ⟨s.acl, s.aclFile, s.replaceable⟩

def tierServer (s : SettingsServer) : TierServer := ⟨s.acl, s.policy, s.tiersFile⟩

/-- The key of a request, before anything is asked of it. -/
def presented (authorization : Option (Option String)) : Except Refusal String :=
  match authorization with
  | none => .error ⟨401, "An API key is required."⟩
  | some none => .error ⟨400, "Authorization header is not valid UTF-8."⟩
  | some (some key) => .ok key

def requireVocabularyReader (s : SettingsServer) (authorization : Option (Option String)) : Except Refusal String := do
  let key ← presented authorization
  if s.acl.isAdmin key || s.acl.canRead key "/" then .ok key
  else .error ⟨403, "Seeing how tags are shown needs an admin key, or read across all namespaces."⟩

def requireVocabularyEditor (s : SettingsServer) (authorization : Option (Option String)) : Except Refusal String := do
  let key ← presented authorization
  if s.acl.isAdmin key || (s.acl.canRead key "/" && s.acl.canWrite key "/") then .ok key
  else .error ⟨403, "Changing how tags are shown needs an admin key, or read and write across all namespaces: the vocabulary is server-wide, so a key scoped to one subtree would be reaching past it."⟩

def requireTagsFile (s : SettingsServer) : Except Refusal Unit :=
  match s.tagsFile with
  | none => .error ⟨409, "No tags_file is configured, so tag colours cannot be edited here. Set tags_file in [daemon] and restart."⟩
  | some _ => .ok ()

/-- Persist the vocabulary, then adopt it. -/
def saveTags (s : SettingsServer) (vocabulary : Vocabulary) (faults : FileFaults) : Except Refusal SettingsServer := do
  s.requireTagsFile
  match faults.reason with
  | some reason => .error ⟨500, "Could not write the tag vocabulary: " ++ reason⟩
  | none => .ok { s with vocabulary := vocabulary, tagsFile := some (some vocabulary.toToml) }

def listTags (s : SettingsServer) (authorization : Option (Option String)) : Except Refusal SettingsReply := do
  let _ ← s.requireVocabularyReader authorization
  .ok (.tags s.vocabulary s.tagsFile.isSome)

/-- What `define_tag` and `undefine_tag` do with the change they make of a copy. -/
def changeTags (s : SettingsServer) (r : SettingsRequest) (status : Nat)
    (draft : Vocabulary → Except String Vocabulary) : SettingsServer × Except Refusal SettingsReply :=
  match s.requireVocabularyEditor r.authorization, s.requireTagsFile with
  | .error e, _ => (s, .error e)
  | .ok _, .error e => (s, .error e)
  | .ok _, .ok _ => match draft s.vocabulary with
    | .error e => (s, .error ⟨status, e⟩)
    | .ok vocabulary => match s.saveTags vocabulary r.faults with
      | .error e => (s, .error e)
      | .ok s' => (s', s'.listTags r.authorization)

def defineTag (s : SettingsServer) (r : SettingsRequest) (name colour description : String) :
    SettingsServer × Except Refusal SettingsReply :=
  s.changeTags r 400 fun vocabulary => vocabulary.set name colour description

def undefineTag (s : SettingsServer) (r : SettingsRequest) (tag : String) :
    SettingsServer × Except Refusal SettingsReply :=
  s.changeTags r 404 fun vocabulary => vocabulary.remove tag

/-- `save_key`, `delete_key` and `replace_keys`. -/
def changeKeys (s : SettingsServer) (r : SettingsRequest) (change : KeyChange) :
    SettingsServer × Except Refusal SettingsReply :=
  let (keys, answer) := s.keyServer.handle ⟨r.authorization, change, r.faults.reason⟩
  ({ s with acl := keys.acl, aclFile := keys.aclFile }, answer.map .keys)

def setTier (s : SettingsServer) (r : SettingsRequest) (change : TierChange) :
    SettingsServer × Except Refusal SettingsReply :=
  let (tiers, answer) := s.tierServer.setTier ⟨r.authorization, change, r.faults.reason⟩
  ({ s with policy := tiers.policy, tiersFile := tiers.tiersFile }, answer.map .tier)

def handle (s : SettingsServer) (r : SettingsRequest) : SettingsServer × Except Refusal SettingsReply :=
  match r.change with
  | .keys change => s.changeKeys r change
  | .defineTag name colour description => s.defineTag r name colour description
  | .undefineTag tag => s.undefineTag r tag
  | .setTier change => s.setTier r change

def run (s : SettingsServer) (requests : List SettingsRequest) : SettingsServer :=
  requests.foldl (fun s r => (s.handle r).1) s

/-- Storage settings that pass every check, differ from those in force, and cannot be written. -/
def Premature (s : SettingsServer) (r : SettingsRequest) : Prop :=
  ∃ change shard entry, r.change = .setTier change ∧
    s.tierServer.vet ⟨r.authorization, change, r.faults.reason⟩ = .ok (shard, entry) ∧
    r.faults.reason ≠ none ∧ s.policy.set shard entry ≠ s.policy

/-! ## What a request that fails leaves -/

variable {s : SettingsServer} {r : SettingsRequest}

theorem changeKeys_error {change : KeyChange} {e : Refusal} (failed : (s.changeKeys r change).2 = .error e) :
    (s.changeKeys r change).1 = s := by
  simp only [changeKeys] at failed ⊢
  rcases s.keyServer.handle_cases ⟨r.authorization, change, r.faults.reason⟩ with ⟨e, handled⟩ | ⟨_, _, _, _, _, _, _, handled⟩
  · rw [handled, keyServer]
  · rw [handled] at failed
    cases failed

/-- Whoever may edit the vocabulary may see it. -/
theorem listTags_of_editor {key : String} (editor : s.requireVocabularyEditor r.authorization = .ok key) :
    s.listTags r.authorization = .ok (.tags s.vocabulary s.tagsFile.isSome) := by
  cases who : presented r.authorization with
  | error e => simp [requireVocabularyEditor, who, bind, Except.bind] at editor
  | ok caller =>
      simp only [requireVocabularyEditor, who, bind, Except.bind] at editor
      split_ifs at editor with may
      have reads : (s.acl.isAdmin caller || s.acl.canRead caller "/") = true := by
        rw [Bool.or_eq_true, Bool.and_eq_true] at may
        rw [Bool.or_eq_true]
        exact may.imp_right And.left
      simp [listTags, requireVocabularyReader, who, bind, Except.bind, reads]

theorem saveTags_eq {vocabulary : Vocabulary} {faults : FileFaults} {s' : SettingsServer}
    (saved : s.saveTags vocabulary faults = .ok s') :
    s' = { s with vocabulary := vocabulary, tagsFile := some (some vocabulary.toToml) } := by
  cases file : s.requireTagsFile with
  | error e => simp [saveTags, file, bind, Except.bind] at saved
  | ok _ =>
      cases reason : faults.reason with
      | some text => simp [saveTags, file, reason, bind, Except.bind] at saved
      | none => simpa [saveTags, file, reason, bind, Except.bind, eq_comm] using saved

theorem changeTags_error {status : Nat} {draft : Vocabulary → Except String Vocabulary} {e : Refusal}
    (failed : (s.changeTags r status draft).2 = .error e) : (s.changeTags r status draft).1 = s := by
  rw [changeTags] at failed ⊢
  split at failed
  · rfl
  · rfl
  · rename_i key _ editor _
    cases drafted : draft s.vocabulary with
    | error e => rfl
    | ok vocabulary =>
        cases saved : s.saveTags vocabulary r.faults with
        | error e => simp only [saved]
        | ok s' =>
            -- The answer is the table, which an editor is always shown.
            have still : s'.requireVocabularyEditor r.authorization = .ok key := by
              rw [saveTags_eq saved]
              exact editor
            simp only [drafted, saved] at failed
            rw [listTags_of_editor still] at failed
            cases failed

/-- Storage settings that fail change nothing exactly when nothing was to change, or the failure was
not that of the file. -/
theorem setTier_error {change : TierChange} : (∀ e, (s.setTier r change).2 = .error e → (s.setTier r change).1 = s) ↔
    ∀ shard entry, s.tierServer.vet ⟨r.authorization, change, r.faults.reason⟩ = .ok (shard, entry) →
      r.faults.reason ≠ none → s.policy.set shard entry = s.policy := by
  rw [setTier, TierServer.setTier]
  cases admitted : s.tierServer.vet ⟨r.authorization, change, r.faults.reason⟩ with
  | error e => exact iff_of_true (fun _ _ => rfl) fun _ _ impossible => by cases impossible
  | ok found =>
      obtain ⟨shard, entry⟩ := found
      cases fault : r.faults.reason with
      | none => exact iff_of_true (fun _ impossible => by cases impossible) fun _ _ _ absent => absurd rfl absent
      | some text =>
          constructor
          · intro same shard' entry' admitted' _
            obtain ⟨rfl, rfl⟩ := Prod.mk.inj (Except.ok.inj admitted')
            exact congrArg policy (same _ rfl)
          · intro same e _
            have unchanged : s.tierServer.policy.set shard entry = s.policy := same shard entry rfl (by simp)
            simp only [unchanged]
            rfl

theorem error_iff (s : SettingsServer) (r : SettingsRequest) :
    (∀ e, (s.handle r).2 = .error e → (s.handle r).1 = s) ↔ ¬ s.Premature r := by
  obtain ⟨authorization, change, faults⟩ := r
  cases change with
  | keys change =>
      refine iff_of_true (fun e failed => changeKeys_error failed) ?_
      rintro ⟨_, _, _, other, -⟩
      cases other
  | defineTag name colour description =>
      refine iff_of_true (fun e failed => changeTags_error failed) ?_
      rintro ⟨_, _, _, other, -⟩
      cases other
  | undefineTag tag =>
      refine iff_of_true (fun e failed => changeTags_error failed) ?_
      rintro ⟨_, _, _, other, -⟩
      cases other
  | setTier change =>
      rw [handle, setTier_error]
      constructor
      · rintro same ⟨_, shard, entry, itself, admitted, fault, differs⟩
        obtain rfl := SettingsChange.setTier.inj itself
        exact differs (same shard entry admitted fault)
      · intro fine shard entry admitted fault
        by_contra differs
        exact fine ⟨change, shard, entry, rfl, admitted, fault, differs⟩

/-! ## Memory and files -/

/-- Every file that was written says what is in memory. -/
structure Agrees (s : SettingsServer) : Prop where
  acl : ∀ text, s.aclFile = some (some text) → text = s.acl.toToml
  tags : ∀ text, s.tagsFile = some (some text) → text = s.vocabulary.toToml
  tiers : ∀ text, s.tiersFile = some (some text) → text = s.policy.save

theorem changeKeys_agrees (agrees : s.Agrees) (change : KeyChange) : (s.changeKeys r change).1.Agrees := by
  simp only [changeKeys]
  rcases s.keyServer.handle_cases ⟨r.authorization, change, r.faults.reason⟩ with ⟨e, handled⟩ | ⟨_, acl, _, _, _, _, _, handled⟩
  · rw [handled]
    exact agrees
  · rw [handled]
    refine ⟨fun text written => ?_, agrees.tags, agrees.tiers⟩
    simpa [eq_comm] using written

theorem changeTags_agrees (agrees : s.Agrees) (status : Nat) (draft : Vocabulary → Except String Vocabulary) :
    (s.changeTags r status draft).1.Agrees := by
  rw [changeTags]
  split
  · exact agrees
  · exact agrees
  · cases draft s.vocabulary with
    | error e => exact agrees
    | ok vocabulary =>
        cases saved : s.saveTags vocabulary r.faults with
        | error e => simpa only [saved] using agrees
        | ok s' =>
            simp only [saved]
            rw [saveTags_eq saved]
            refine ⟨agrees.acl, fun text written => ?_, agrees.tiers⟩
            simpa [eq_comm] using written

theorem setTier_agrees (agrees : s.Agrees) {change : TierChange}
    (fine : ∀ e, (s.setTier r change).2 = .error e → (s.setTier r change).1 = s) : (s.setTier r change).1.Agrees := by
  cases answer : (s.setTier r change).2 with
  | error e =>
      rw [fine e answer]
      exact agrees
  | ok reply =>
      simp only [setTier] at answer ⊢
      rcases s.tierServer.setTier_cases ⟨r.authorization, change, r.faults.reason⟩ with
        ⟨e, -, handled⟩ | ⟨shard, entry, -, policy, -, saved, failed⟩
      · rw [handled] at answer
        cases answer
      · by_cases fault : r.faults.reason = none
        · refine ⟨agrees.acl, agrees.tags, fun text written => ?_⟩
          rw [policy]
          simpa [(saved fault).1, eq_comm] using written
        · obtain ⟨-, e, refused⟩ := failed fault
          rw [refused] at answer
          cases answer

theorem handle_agrees (agrees : s.Agrees) (fine : ¬ s.Premature r) : (s.handle r).1.Agrees := by
  rw [← error_iff] at fine
  rw [handle] at fine ⊢
  cases change : r.change with
  | keys keyChange => exact changeKeys_agrees agrees keyChange
  | defineTag name colour description => exact changeTags_agrees agrees _ _
  | undefineTag tag => exact changeTags_agrees agrees _ _
  | setTier tierChange =>
      simp only [change] at fine
      exact setTier_agrees agrees fine

/-- Requests of which none sets storage settings that cannot be written. -/
def Steady (s : SettingsServer) : List SettingsRequest → Prop
  | [] => True
  | r :: rest => ¬ s.Premature r ∧ (s.handle r).1.Steady rest

theorem run_agrees {requests : List SettingsRequest} (agrees : s.Agrees) (steady : s.Steady requests) :
    (s.run requests).Agrees := by
  induction requests generalizing s with
  | nil => exact agrees
  | cons r rest ih => exact ih (handle_agrees agrees steady.1) steady.2

/-- A request that is not answered with success leaves memory and files exactly as they were,
unless it sets storage settings that pass every check, change the policy, and cannot be written.
Without such requests memory and files never part. -/
theorem error_leaves_settings (s : SettingsServer) :
    (∀ r, (∀ e, (s.handle r).2 = .error e → (s.handle r).1 = s) ↔ ¬ s.Premature r) ∧
    ∀ requests, s.Agrees → s.Steady requests → (s.run requests).Agrees :=
  ⟨s.error_iff, fun _ => run_agrees⟩

/-- One admin that may write everywhere, and files for everything. -/
def furnished : SettingsServer :=
  ⟨⟨OrderedMap.empty.insert "k" [.allData, .adminOnly]⟩, some none, false, ∅, some none, .default, some none⟩

/-- Settings for one shard, then a colour with the disk full. -/
def upkeep : List SettingsRequest :=
  [⟨some (some "k"), .setTier ⟨"feeds", some "cold", none⟩, ⟨none, none, none⟩⟩,
    ⟨some (some "k"), .defineTag "tlp:red" "#f00" "", ⟨none, some "disk full", none⟩⟩]

theorem error_leaves_settings_furnished : (furnished.run upkeep).Agrees := by
  have blank : furnished.Agrees := ⟨nofun, nofun, nofun⟩
  refine (error_leaves_settings furnished).2 upkeep blank ⟨?_, ?_, trivial⟩
  · rintro ⟨_, _, _, -, -, fault, -⟩
    exact fault rfl
  · rintro ⟨_, _, _, other, -⟩
    cases other

/-- The shard is cold from now on, and the answer says it could not be done. -/
theorem failed_change_stays :
    (furnished.handle ⟨some (some "k"), .setTier ⟨"feeds", some "cold", none⟩, ⟨none, some "disk full", none⟩⟩).2 =
      .error ⟨500, "Could not write the tier file: disk full"⟩ ∧
    ((furnished.handle ⟨some (some "k"), .setTier ⟨"feeds", some "cold", none⟩, ⟨none, some "disk full", none⟩⟩).1.policy.resolve
      "feeds").tier = .cold ∧ (furnished.policy.resolve "feeds").tier = .hot := by
  decide

end SettingsServer

end SightingDB
