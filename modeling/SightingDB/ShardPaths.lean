import SightingDB.Snapshot
import SightingDB.Acl

/-!
Where the files of a database directory lie. Shards are named by clients, so a file name must not
lead out of the directory, nor meet another file there, whatever the case of its letters counts for.
-/
namespace SightingDB

/-- `Path::join`: an absolute path takes the place of the directory. -/
def joinPath (dir name : String) : String :=
  if startsWithChar name '/' then name
  else if dir = "" || dir.toList.getLast? = some '/' then dir ++ name else dir ++ "/" ++ name

/-- `Path::file_stem` of a file name. -/
def fileStem (name : String) : String :=
  if name = ".." then name
  else match rsplitOnce '.' name with
    | none => name
    | some (before, _) => if before = "" then name else before

/-- `Path::with_extension` on a file name. -/
def withExtension (name extension : String) : String := fileStem name ++ "." ++ extension

def shardSuffix : String := ".json.zst"

def activityFile : String := "activity.json"

def latestFile : String := "latest.json"

/-- The snapshot of an older version. -/
def legacySnapshot : String := "sightingdb.json"

/-- What `write_shard` and `save_json` write before they rename it. -/
def tempOf (name : String) : String := withExtension name "tmp"

/-- The other files of the directory, and those on their way there. -/
inductive OtherFile (digest : String → UInt32) : String → Prop
  | activity : OtherFile digest activityFile
  | latest : OtherFile digest latestFile
  | legacy : OtherFile digest legacySnapshot
  | shardTemp (shard : String) : OtherFile digest (tempOf (shardFile digest shard))
  | activityTemp : OtherFile digest (tempOf activityFile)
  | latestTemp : OtherFile digest (tempOf latestFile)

/-- The encoded and truncated name of a shard. -/
def safeName (shard : String) : List Char := (shard.toList.flatMap encodeChar).take 80

/-- Two names on a file system that takes upper and lower case for the same. -/
def SameFolded (name other : String) : Prop := asciiLowercase name = asciiLowercase other

/-- What `load` takes for a shard. -/
def isShardFile (path : String) : Bool := shardSuffix.toList.isSuffixOf path.toList

/-- Letters and digits, and what stands between them in a file name. -/
def isFileChar (c : Char) : Bool := c.isAlphanum || c = '.' || c = '_' || c = '-' || c = '%'

variable {digest : String → UInt32} {shard : String}

/-! ## Digits -/

theorem length_hexDigits (letter width n : Nat) : (hexDigits letter width n).length = width := by
  induction width generalizing n with
  | zero => rfl
  | succ width ih =>
      unfold hexDigits
      rw [List.length_append, ih, List.length_singleton]

/-- What holds of sixteen digits holds of them all. -/
theorem forall_hexDigits (P : Char → Prop) {letter : Nat}
    (each : ∀ digit : Fin 16, P (if digit.val < 10 then Char.ofNat (48 + digit.val) else Char.ofNat (letter + digit.val - 10)))
    (width n : Nat) : ∀ c ∈ hexDigits letter width n, P c := by
  induction width generalizing n with
  | zero => exact nofun
  | succ width ih =>
      intro c member
      unfold hexDigits at member
      rcases List.mem_append.mp member with front | last
      · exact ih _ c front
      · rw [List.mem_singleton.mp last]
        exact each ⟨n % 16, Nat.mod_lt _ (by decide)⟩

/-- Digits of one width tell numbers apart that fit in it. -/
theorem hexDigits_inj {width n m : Nat} (small : n < 16 ^ width) (small' : m < 16 ^ width)
    (same : hexDigits 97 width n = hexDigits 97 width m) : n = m := by
  induction width generalizing n m with
  | zero => omega
  | succ width ih =>
      unfold hexDigits at same
      obtain ⟨front, last⟩ := List.append_inj' same rfl
      have digits : ∀ a b : Fin 16,
          (if a.val < 10 then Char.ofNat (48 + a.val) else Char.ofNat (97 + a.val - 10)) =
            (if b.val < 10 then Char.ofNat (48 + b.val) else Char.ofNat (97 + b.val - 10)) → a = b := by decide
      have low := digits ⟨n % 16, Nat.mod_lt _ (by decide)⟩ ⟨m % 16, Nat.mod_lt _ (by decide)⟩ (List.singleton_inj.mp last)
      have high := ih (Nat.div_lt_of_lt_mul (by rwa [← Nat.pow_succ'])) (Nat.div_lt_of_lt_mul (by rwa [← Nat.pow_succ'])) front
      have low_ : n % 16 = m % 16 := congrArg Fin.val low
      omega

/-! ## Names -/

theorem isFileChar_encodeChar (c : Char) : ∀ d ∈ encodeChar c, isFileChar d = true := by
  unfold encodeChar
  split
  · rename_i plain
    intro d member
    rw [List.mem_singleton.mp member]
    unfold isFileChar
    rw [plain, Bool.true_or]
  · intro d member
    obtain ⟨byte, _, listed⟩ := List.mem_flatMap.mp member
    rcases List.mem_cons.mp listed with rfl | digit
    · decide
    · exact forall_hexDigits (isFileChar · = true) (by decide) 2 byte.toNat d digit

/-- The name of a shard that clients have named. -/
theorem shardFile_user (user : shard ≠ internalShard) : (shardFile digest shard).toList =
    (safeName shard ++ '-' :: hexDigits 97 8 (digest shard).toNat) ++ shardSuffix.toList := by
  unfold shardFile safeName shardSuffix
  rw [if_neg user, String.toList_ofList, List.append_assoc, List.cons_append]

theorem shardFile_chars (digest : String → UInt32) (shard : String) : ∀ c ∈ (shardFile digest shard).toList, isFileChar c = true := by
  by_cases user : shard = internalShard
  · unfold shardFile
    rw [if_pos user]
    decide
  · rw [shardFile_user user]
    intro c member
    rcases List.mem_append.mp member with front | suffix
    · rcases List.mem_append.mp front with safe | rest
      · obtain ⟨d, _, encoded⟩ := List.mem_flatMap.mp (List.mem_of_mem_take safe)
        exact isFileChar_encodeChar d c encoded
      · rcases List.mem_cons.mp rest with rfl | digit
        · decide
        · exact forall_hexDigits (isFileChar · = true) (by decide) 8 _ c digit
    · exact (by decide : ∀ c ∈ shardSuffix.toList, isFileChar c = true) c suffix

theorem shardFile_suffix (digest : String → UInt32) (shard : String) :
    ∃ front, (shardFile digest shard).toList = front ++ shardSuffix.toList := by
  by_cases user : shard = internalShard
  · refine ⟨"sightingdb".toList, ?_⟩
    unfold shardFile
    rw [if_pos user]
    decide
  · exact ⟨_, shardFile_user user⟩

/-! ## Names apart -/

/-- The last character of a name in lower case. -/
def lastFolded (name : String) : Option Char := (asciiLowercase name).toList.getLast?

theorem lastFolded_append {name : String} {front back : List Char} (split : name.toList = front ++ back) (some_ : back ≠ []) :
    lastFolded name = (back.map Char.toLower).getLast? := by
  unfold lastFolded asciiLowercase
  rw [String.toList_ofList, split, List.map_append, List.getLast?_append_of_ne_nil _ (by simpa using some_)]

theorem lastFolded_shardFile (digest : String → UInt32) (shard : String) : lastFolded (shardFile digest shard) = some 't' := by
  obtain ⟨front, split⟩ := shardFile_suffix digest shard
  rw [lastFolded_append split (by decide)]
  decide

theorem lastFolded_temp (name : String) : lastFolded (tempOf name) = some 'p' := by
  have split : (tempOf name).toList = (fileStem name).toList ++ ".tmp".toList := by
    unfold tempOf withExtension
    rw [String.toList_append, String.toList_append, List.append_assoc]
    rfl
  rw [lastFolded_append split (by decide)]
  decide

theorem lastFolded_other {other : String} (listed : OtherFile digest other) : lastFolded other ≠ some 't' := by
  cases listed with
  | activity => decide
  | latest => decide
  | legacy => decide
  | shardTemp shard =>
      rw [lastFolded_temp]
      decide
  | activityTemp =>
      rw [lastFolded_temp]
      decide
  | latestTemp =>
      rw [lastFolded_temp]
      decide

/-- The hash of a shard in lower case is as it was. -/
theorem toLower_hexDigits (width n : Nat) : (hexDigits 97 width n).map Char.toLower = hexDigits 97 width n := by
  refine (List.map_congr_left fun c member => ?_).trans (List.map_id _)
  exact forall_hexDigits (fun c => c.toLower = c) (by decide) width n c member

theorem folded_user (user : shard ≠ internalShard) : (asciiLowercase (shardFile digest shard)).toList =
    ((safeName shard).map Char.toLower ++ '-' :: hexDigits 97 8 (digest shard).toNat) ++ shardSuffix.toList := by
  have suffix : shardSuffix.toList.map Char.toLower = shardSuffix.toList := by decide
  have dash : Char.toLower '-' = '-' := by decide
  unfold asciiLowercase
  rw [String.toList_ofList, shardFile_user user, List.map_append, List.map_append, List.map_cons, toLower_hexDigits, suffix, dash]

/-- The file of the internal shard is too short for a dash and a hash. -/
theorem internal_apart (user : shard ≠ internalShard) :
    ¬SameFolded (shardFile digest shard) (shardFile digest internalShard) := by
  intro same
  have texts := congrArg String.toList same
  have internal : (asciiLowercase (shardFile digest internalShard)).toList = "sightingdb".toList ++ shardSuffix.toList := by
    have own : shardFile digest internalShard = "sightingdb.json.zst" := if_pos rfl
    rw [own]
    decide
  rw [folded_user user, internal] at texts
  have names := List.append_cancel_right texts
  have lengths := congrArg List.length names
  rw [List.length_append, List.length_cons, length_hexDigits] at lengths
  match safe : (safeName shard).map Char.toLower with
  | [] =>
      rw [safe] at lengths
      exact absurd lengths (by decide)
  | [c] =>
      rw [safe] at names
      have second := congrArg (fun l => l[1]?) names
      exact absurd second (by simp)
  | _ :: _ :: _ =>
      rw [safe] at lengths
      simp at lengths

/-- Shards whose names come out the same have hashes to tell them apart. -/
theorem users_apart {other : String} (user : shard ≠ internalShard) (user' : other ≠ internalShard)
    (hashes : (safeName shard).map Char.toLower = (safeName other).map Char.toLower → digest shard ≠ digest other) :
    ¬SameFolded (shardFile digest shard) (shardFile digest other) := by
  intro same
  have texts := congrArg String.toList same
  rw [folded_user user, folded_user user'] at texts
  obtain ⟨safe, rest⟩ := List.append_inj' (List.append_cancel_right texts) (by
    rw [List.length_cons, List.length_cons, length_hexDigits, length_hexDigits])
  have digits := hexDigits_inj (UInt32.toNat_lt _) (UInt32.toNat_lt _) (List.cons.inj rest).2
  exact hashes safe (UInt32.toNat_inj.mp digits)

/-! ## Inside the directory -/

theorem segments_slash (dir name : String) : segments (dir ++ "/" ++ name) = segments dir ++ segments name := by
  have text : (dir ++ "/" ++ name).toList = dir.toList ++ '/' :: name.toList := by simp
  unfold segments splitOnChar
  rw [text, List.splitOn_append_cons_self, List.map_append, List.filter_append]

theorem segments_name {name : String} (some_ : name ≠ "") (free : '/' ∉ name.toList) : segments name = [name] := by
  unfold segments splitOnChar
  rw [List.splitOn_eq_singleton free, List.map_singleton, String.ofList_toList]
  exact List.filter_eq_self.mpr fun s member => by rw [List.mem_singleton.mp member]; exact decide_eq_true some_

theorem relative_of_free {name : String} (free : '/' ∉ name.toList) : startsWithChar name '/' = false := by
  unfold startsWithChar
  rw [beq_eq_false_iff_ne]
  intro first
  exact free (List.mem_of_mem_head? first)

/-- A name without a slash is one step further from the directory. -/
theorem segments_joinPath {name : String} (some_ : name ≠ "") (free : '/' ∉ name.toList) (dir : String) :
    segments (joinPath dir name) = segments dir ++ [name] := by
  unfold joinPath
  rw [relative_of_free free, if_neg Bool.false_ne_true]
  split
  · rename_i ends
    rw [Bool.or_eq_true, decide_eq_true_eq, decide_eq_true_eq] at ends
    rcases ends with rfl | slash
    · rw [String.empty_append, segments_name some_ free]
      rfl
    · obtain ⟨front, split⟩ := List.getLast?_eq_some_iff.mp slash
      have text : dir = String.ofList front ++ "/" := by
        rw [← String.toList_inj, split, String.toList_append, String.toList_ofList]
        rfl
      have bare := segments_slash (String.ofList front) ""
      rw [String.append_empty] at bare
      rw [text, segments_slash, bare, segments_name some_ free]
      exact congrArg (· ++ [name]) (List.append_nil _).symm
  · rw [segments_slash, segments_name some_ free]

theorem joinPath_eq {name : String} (free : '/' ∉ name.toList) (dir : String) :
    ∃ between, (joinPath dir name).toList = dir.toList ++ between ++ name.toList := by
  unfold joinPath
  rw [relative_of_free free, if_neg Bool.false_ne_true]
  split
  · exact ⟨[], by simp⟩
  · exact ⟨['/'], by simp⟩

/-- The file of any shard lies in the directory itself, is taken for a shard when the directory is read, and is none of the
other files there, finished or not; shards have different files as long as their hashes differ where their encoded names do
not. All of it holds as well where the case of letters does not count. -/
theorem shard_files_apart (digest : String → UInt32) (dbdir namespace_ other : String)
    (hashes : (safeName (shardOf namespace_)).map Char.toLower = (safeName (shardOf other)).map Char.toLower →
      shardOf namespace_ ≠ shardOf other → digest (shardOf namespace_) ≠ digest (shardOf other)) :
    let name := shardFile digest (shardOf namespace_)
    (segments (joinPath dbdir name) = segments dbdir ++ [name] ∧ name ≠ "." ∧ name ≠ ".." ∧
      ∀ c ∈ name.toList, isFileChar c = true) ∧
    startsWith (joinPath dbdir name) dbdir = true ∧
    isShardFile (joinPath dbdir name) = true ∧
    (∀ file, OtherFile digest file → ¬SameFolded name file) ∧
    (shardOf namespace_ ≠ internalShard → ¬SameFolded name (shardFile digest internalShard)) ∧
    (shardOf namespace_ ≠ shardOf other → ¬SameFolded name (shardFile digest (shardOf other))) := by
  intro name
  have chars := shardFile_chars digest (shardOf namespace_)
  have free : '/' ∉ name.toList := fun slash => absurd (chars _ slash) (by decide)
  obtain ⟨front, split⟩ := shardFile_suffix digest (shardOf namespace_)
  obtain ⟨between, path⟩ := joinPath_eq free dbdir
  have long : ∀ short : String, short.toList.length < 9 → name ≠ short := by
    intro short few same
    have length := congrArg (fun s : String => s.toList.length) same
    have suffix : shardSuffix.toList.length = 9 := by decide
    change (shardFile digest (shardOf namespace_)).toList.length = short.toList.length at length
    rw [split, List.length_append, suffix] at length
    omega
  have last : ∀ file, lastFolded file ≠ some 't' → ¬SameFolded name file := by
    intro file apart same
    apply apart
    rw [← lastFolded_shardFile digest (shardOf namespace_)]
    exact congrArg (fun s : String => s.toList.getLast?) same.symm
  refine ⟨⟨segments_joinPath (long "" (by decide)) free dbdir, long "." (by decide), long ".." (by decide), chars⟩, ?_, ?_, ?_, ?_, ?_⟩
  · unfold startsWith
    rw [path, List.append_assoc]
    exact List.isPrefixOf_iff_prefix.mpr (List.prefix_append _ _)
  · unfold isShardFile
    rw [path, split, ← List.append_assoc]
    exact List.isSuffixOf_iff_suffix.mpr (List.suffix_append _ _)
  · intro file listed
    exact last file (lastFolded_other listed)
  · intro user
    exact internal_apart user
  · intro apart
    by_cases user : shardOf namespace_ = internalShard
    · intro same
      have other_ : shardOf other ≠ internalShard := fun internal => apart (user.trans internal.symm)
      have back : SameFolded (shardFile digest (shardOf other)) (shardFile digest internalShard) := by
        rw [← user]
        exact same.symm
      exact internal_apart other_ back
    · by_cases user' : shardOf other = internalShard
      · rw [user']
        exact internal_apart user
      · exact users_apart user user' fun safe => hashes safe apart

/-- Two organisations whose names differ by the case of a letter. -/
theorem shard_files_apart_case : ¬SameFolded
    (shardFile (fun shard => if shard = "MyOrg" then 1 else 0) (shardOf "MyOrg/ips"))
    (shardFile (fun shard => if shard = "MyOrg" then 1 else 0) (shardOf "myorg/ips")) :=
  (shard_files_apart (fun shard => if shard = "MyOrg" then 1 else 0) "/var/lib/sighting" "MyOrg/ips" "myorg/ips"
    fun _ _ => by decide).2.2.2.2.2 (by decide)

end SightingDB
