import SightingDB.TierChanges
import SightingDB.PrefixRules
import SightingDB.Lib.PrefixCover

/-!
Whose settings a change of tier reaches. The key is asked about the namespace of the request;
the change is to the whole shard that namespace is in.
-/
namespace SightingDB

/-! ## Shards and segments -/

section Shards

variable {name first : String}

/-- An ordinary shard holds the names whose first segment it is. -/
theorem shardOf_eq_iff (ordinary : startsWithChar first '_' = false) :
    shardOf name = first ↔ (segments name).head? = some first := by
  have internal : startsWithChar internalShard '_' = true := by decide
  rw [shardOf, firstSegment_eq]
  cases head : (segments name).head? with
  | none =>
      simp only [Option.getD_none, internal, if_true, reduceCtorEq, iff_false]
      rintro rfl
      rw [internal] at ordinary
      cases ordinary
  | some other =>
      simp only [Option.getD_some, Option.some.injEq]
      split_ifs with under
      · constructor
        · rintro rfl
          rw [internal] at ordinary
          cases ordinary
        · rintro rfl
          rw [under] at ordinary
          cases ordinary
      · rfl

/-- The first segment of a name that does not start with a slash starts as the name does. -/
theorem exists_head {c : Char} {rest : List Char} (shape : name.toList = c :: rest) (solid : c ≠ '/') :
    ∃ first, (segments name).head? = some first ∧ first.toList.head? = some c := by
  obtain ⟨part, others, parts⟩ := List.exists_cons_of_ne_nil (List.splitOn_ne_nil '/' rest)
  refine ⟨String.ofList (c :: part), ?_, by simp⟩
  rw [segments_eq, shape, Segments.of, List.splitOn_cons_eq_if_modifyHead, parts]
  simp [solid]

theorem segments_child {a : String} (free : '/' ∉ first.toList ∧ first ≠ "") (label : '/' ∉ a.toList ∧ a ≠ "") :
    segments (first ++ "/" ++ a) = [first, a] := by
  have single {s : String} (solid : '/' ∉ s.toList ∧ s ≠ "") : Segments.of '/' s.toList = [s.toList] :=
    Segments.of_solid solid.1 fun none_ => solid.2 (by simpa using none_)
  have whole : (first ++ "/" ++ a).toList = first.toList ++ '/' :: a.toList := by simp
  rw [segments_eq, whole, Segments.of_append_cons, single free, single label]
  simp

theorem solid_of_head (head : (segments name).head? = some first) : '/' ∉ first.toList ∧ first ≠ "" := by
  have member : first ∈ segments name := List.mem_of_head? head
  obtain ⟨part, some_⟩ := List.mem_filter.mp member
  obtain ⟨l, split, rfl⟩ := List.mem_map.mp part
  exact ⟨by simpa using sep_not_mem_splitOn split, by simpa using some_⟩

/-- There is no end of names for a segment. -/
theorem infinite_labels : {a : String | '/' ∉ a.toList ∧ a ≠ ""}.Infinite := by
  refine Set.infinite_of_injective_forall_mem (f := fun n : Nat => String.ofList (List.replicate (n + 1) 'a')) ?_ fun n => ?_
  · intro n m same
    have := congrArg String.length same
    simpa using this
  · constructor
    · simp
    · intro none_
      have := congrArg String.length none_
      simp at this

theorem segments_solid (free : '/' ∉ first.toList ∧ first ≠ "") : segments first = [first] := by
  have single : Segments.of '/' first.toList = [first.toList] :=
    Segments.of_solid free.1 fun none_ => free.2 (by simpa using none_)
  rw [segments_eq, single]
  simp

theorem trimWhere_append_of_all {p : Char → Bool} {cs blanks : List Char} (all : ∀ c ∈ blanks, p c = true) :
    trimWhere p (cs ++ blanks) = trimWhere p cs := by
  rw [trimWhere, trimWhere, List.dropWhile_append]
  split_ifs with none_
  · rw [List.isEmpty_iff.mp none_, List.dropWhile_eq_nil_iff.mpr all]
  · rw [List.rdropWhile, List.reverse_append, List.dropWhile_append_of_pos fun c mem => all c (List.mem_reverse.mp mem)]
    rfl

/-- The spellings of a shard that are trimmed to the same name: each is a shard of its own. -/
def Spelling (shard other : String) : Prop :=
  trim other = trim shard ∧ startsWithChar other '_' = false ∧ '/' ∉ other.toList ∧ other ≠ ""

/-- There is no end of spellings. -/
theorem infinite_spellings (ordinary : startsWithChar first '_' = false) (solid : '/' ∉ first.toList ∧ first ≠ "") :
    {other | Spelling first other}.Infinite := by
  refine Set.infinite_of_injective_forall_mem (f := fun n : Nat => first ++ String.ofList (List.replicate n ' ')) ?_ fun n => ?_
  · intro n m same
    have := congrArg String.length same
    simpa using this
  · have text : (first ++ String.ofList (List.replicate n ' ')).toList = first.toList ++ List.replicate n ' ' := by simp
    refine ⟨?_, ?_, ?_, ?_⟩
    · rw [trim, text, trimWhere_append_of_all, ← trim]
      intro c mem
      rw [List.eq_of_mem_replicate mem]
      decide
    · have some_ : first.toList ≠ [] := fun none_ => solid.2 (by simpa using none_)
      rw [startsWithChar] at ordinary ⊢
      rw [text, List.head?_append_of_ne_nil _ some_]
      exact ordinary
    · rw [text, List.mem_append]
      rintro (here | blank)
      · exact solid.1 here
      · exact absurd (List.eq_of_mem_replicate blank) (by decide)
    · intro none_
      have := congrArg String.toList none_
      rw [text] at this
      exact solid.2 (by simpa using (List.append_eq_nil_iff.mp this).1)

end Shards

/-! ## Who may write a whole shard -/

namespace Acl

variable {acl : Acl} {key shard : String}

theorem canWrite_iff {grants : List Grant} (known : acl.keys.get key = some grants) {name : String} :
    acl.canWrite key name = true ↔ ∃ grant ∈ grants, grant.write = true ∧ segments grant.root <+: segments name := by
  simp [canWrite, allows, known, Grant.covers_iff]

/-- A key may write all there can be in a shard when one of its grants is over the shard or over
everything. -/
theorem canWrite_shard {grants : List Grant} (known : acl.keys.get key = some grants)
    (ordinary : startsWithChar shard '_' = false) (solid : '/' ∉ shard.toList ∧ shard ≠ "") :
    (∀ name, shardOf name = shard → acl.canWrite key name = true) ↔
      ∃ grant ∈ grants, grant.write = true ∧ (segments grant.root = [] ∨ segments grant.root = [shard]) := by
  have at_ (l : List String) : l = [] ∨ l = [shard] ↔ l <+: [shard] := by
    rw [← List.nil_append [shard], List.prefix_concat_iff, List.prefix_nil, or_comm]
  simp only [at_]
  constructor
  · intro every
    have children := (PrefixCover.all_children_iff infinite_labels
      ((grants.filter (·.write)).map fun grant => segments grant.root) [shard]).mp fun a label => by
        have inside : shardOf (shard ++ "/" ++ a) = shard := by
          rw [shardOf_eq_iff ordinary, segments_child solid label]
          rfl
        obtain ⟨grant, member, write, start⟩ := (canWrite_iff known).mp (every _ inside)
        rw [segments_child solid label] at start
        exact ⟨_, List.mem_map_of_mem (List.mem_filter.mpr ⟨member, write⟩), start⟩
    obtain ⟨root, member, start⟩ := children
    obtain ⟨grant, held, rfl⟩ := List.mem_map.mp member
    obtain ⟨member, write⟩ := List.mem_filter.mp held
    exact ⟨grant, member, write, start⟩
  · rintro ⟨grant, member, write, start⟩ name inside
    obtain ⟨rest, shape⟩ : ∃ rest, segments name = shard :: rest := by
      have head := (shardOf_eq_iff ordinary).mp inside
      cases parts : segments name with
      | nil => simp [parts] at head
      | cons first rest =>
          obtain rfl : first = shard := by simpa [parts] using head
          exact ⟨rest, rfl⟩
    refine (canWrite_iff known).mpr ⟨grant, member, write, start.trans ?_⟩
    rw [shape, ← List.singleton_append]
    exact List.prefix_append _ _

/-- A key may write under every spelling of a shard only when one of its grants is over everything. -/
theorem canWrite_spellings {grants : List Grant} (known : acl.keys.get key = some grants)
    (ordinary : startsWithChar shard '_' = false) (solid : '/' ∉ shard.toList ∧ shard ≠ "")
    (every : ∀ other, Spelling shard other → acl.canWrite key other = true) :
    ∃ grant ∈ grants, grant.write = true ∧ segments grant.root = [] := by
  have children := (PrefixCover.all_children_iff (infinite_spellings ordinary solid)
    ((grants.filter (·.write)).map fun grant => segments grant.root) []).mp fun other spelling => by
      obtain ⟨grant, member, write, start⟩ := (canWrite_iff known).mp (every other spelling)
      rw [segments_solid spelling.2.2] at start
      exact ⟨_, List.mem_map_of_mem (List.mem_filter.mpr ⟨member, write⟩), start⟩
  obtain ⟨root, member, start⟩ := children
  obtain ⟨grant, held, rfl⟩ := List.mem_map.mp member
  obtain ⟨member, write⟩ := List.mem_filter.mp held
  exact ⟨grant, member, write, List.prefix_nil.mp start⟩

end Acl

/-! ## A change of tier -/

/-- What a shard with an entry of its own is kept by. -/
def TierPolicy.given (policy : TierPolicy) (entry : TierEntry) : ResolvedTier :=
  ⟨entry.tier.getD policy.defaultTier, entry.warmIdle.getD policy.warmIdle⟩

/-- A shard's settings are found by its trimmed name, so every spelling of it has them. -/
theorem TierPolicy.resolve_set_of_eq (policy : TierPolicy) {shard other : String} (entry : TierEntry)
    (ordinary : other ≠ internalShard) (same : trimSlashes (trim other) = trimSlashes (trim shard)) :
    (policy.set shard entry).resolve other = policy.given entry := by
  rw [resolve, if_neg ordinary, TierPolicy.entry, same, set, given]
  split_ifs with clears
  · obtain ⟨_ | tier, _ | idle⟩ := entry
    · simp
    · simp [TierEntry.isEmpty] at clears
    · simp [TierEntry.isEmpty] at clears
    · simp [TierEntry.isEmpty] at clears
  · simp

/-- All spellings of a shard have one entry. -/
theorem TierPolicy.resolve_of_eq (policy : TierPolicy) {shard other : String} (ordinary : shard ≠ internalShard)
    (ordinary' : other ≠ internalShard) (same : trimSlashes (trim other) = trimSlashes (trim shard)) :
    policy.resolve other = policy.resolve shard := by
  rw [resolve, resolve, if_neg ordinary, if_neg ordinary', TierPolicy.entry, TierPolicy.entry, same]

/-- Settings change only where they are stored. -/
theorem TierPolicy.resolve_set_of_ne (policy : TierPolicy) {shard other : String} (entry : TierEntry)
    (apart : trimSlashes (trim other) ≠ trimSlashes (trim shard)) :
    (policy.set shard entry).resolve other = policy.resolve other := by
  have stored : ((policy.set shard entry).entries.get (trimSlashes (trim other))) =
      policy.entries.get (trimSlashes (trim other)) := by
    rw [set]
    split_ifs
    · rw [OrderedMap.get_erase, if_neg apart]
    · rw [OrderedMap.get_insert_of_ne _ _ apart]
  have defaults : (policy.set shard entry).defaultTier = policy.defaultTier ∧
      (policy.set shard entry).warmIdle = policy.warmIdle := by
    rw [set]
    split_ifs <;> exact ⟨rfl, rfl⟩
  simp only [resolve, TierPolicy.entry, stored, defaults]

/-- Given the settings it has, a shard is left as it is, and so is every other. -/
theorem TierPolicy.resolve_set_given {policy : TierPolicy} {shard : String} {entry : TierEntry}
    (ordinary : shard ≠ internalShard) (same : policy.given entry = policy.resolve shard) (other : String) :
    (policy.set shard entry).resolve other = policy.resolve other := by
  by_cases internal : other = internalShard
  · rw [resolve, resolve, if_pos internal, if_pos internal, set]
    split_ifs <;> rfl
  · by_cases slot : trimSlashes (trim other) = trimSlashes (trim shard)
    · rw [resolve_set_of_eq _ _ internal slot, same, resolve_of_eq _ ordinary internal slot]
    · exact resolve_set_of_ne _ _ slot

namespace TierServer

variable {s : TierServer} {r : TierRequest}

theorem vet_ordinary {shard : String} {entry : TierEntry} (admitted : s.vet r = .ok (shard, entry)) :
    startsWithChar r.change.shard '_' = false ∧ '/' ∉ r.change.shard.toList ∧ r.change.shard ≠ "" := by
  obtain ⟨-, -, -, named, internal⟩ := vet_eq admitted
  cases shape : r.change.name.toList with
  | nil => exact absurd (by simpa using shape) named
  | cons c rest =>
      have solid : c ≠ '/' := by
        rintro rfl
        have := startsWithChar_trimSlashes (trim r.change.namespace_)
        simp only [TierChange.name] at shape
        simp [startsWithChar, shape] at this
      obtain ⟨first, head, start⟩ := exists_head shape solid
      have ordinary : startsWithChar first '_' = false := by
        rw [startsWithChar, start, ← List.head?_cons (a := c) (l := rest), ← shape]
        exact internal
      rw [TierChange.shard, (shardOf_eq_iff ordinary).mpr head]
      exact ⟨ordinary, solid_of_head head⟩

/-- The request leaves its shard the settings it had. -/
def Settled (s : TierServer) (r : TierRequest) : Prop :=
  ∀ entry, r.change.entry = .ok entry → s.policy.given entry = s.policy.resolve r.change.shard

instance (s : TierServer) (r : TierRequest) : Decidable (s.Settled r) :=
  match found : r.change.entry with
  | .error e => isTrue fun entry same => by simp [found] at same
  | .ok entry => decidable_of_iff (s.policy.given entry = s.policy.resolve r.change.shard)
      ⟨fun same entry' here => (Except.ok.inj (found.symm.trans here)) ▸ same, fun all => all entry found⟩

/-- Whether a request is about a namespace, or changes how it is kept. -/
def Reaches (s : TierServer) (r : TierRequest) (name : String) : Prop :=
  shardOf name = r.change.shard ∨ (s.setTier r).1.policy.resolve (shardOf name) ≠ s.policy.resolve (shardOf name)

/-- For every accepted change of tier: the key may write every namespace, there already or not, of
the shard in question and every other one whose settings change, exactly when one of its grants is
over everything, or is over that shard and no settings change. Settings are stored and found by
the trimmed name of a shard, so those of all its spellings change together. -/
theorem settings_within_scope (s : TierServer) (r : TierRequest) {caller : String} {reply : TierReply}
    (who : requireAdmin s.acl r.authorization = .ok caller) (accepted : (s.setTier r).2 = .ok reply) :
    (∀ name, s.Reaches r name → s.acl.canWrite caller name = true) ↔
      ∃ grants, s.acl.keys.get caller = some grants ∧ ∃ grant ∈ grants, grant.write = true ∧
        (segments grant.root = [] ∨ segments grant.root = [r.change.shard] ∧ s.Settled r) := by
  rcases s.setTier_cases r with ⟨e, -, handled⟩ | ⟨shard, entry, admitted, policy, -⟩
  · rw [handled] at accepted
    cases accepted
  obtain ⟨ordinary, solid⟩ := vet_ordinary admitted
  obtain ⟨itself, stored, -⟩ := vet_eq admitted
  rw [itself] at policy
  have outside {other : String} (start : startsWithChar other '_' = false) : other ≠ internalShard := by
    rintro rfl
    exact absurd start (by decide)
  have settled : s.Settled r ↔ s.policy.given entry = s.policy.resolve r.change.shard :=
    ⟨fun all => all entry stored, fun same entry' here => Except.ok.inj (stored.symm.trans here) ▸ same⟩
  obtain ⟨-, admin⟩ := requireAdmin_eq who
  cases known : s.acl.keys.get caller with
  | none => simp [Acl.isAdmin, known] at admin
  | some grants =>
      simp only [Option.some.injEq, exists_eq_left']
      constructor
      · intro every
        by_cases same : s.Settled r
        · obtain ⟨grant, member, write, above⟩ := (Acl.canWrite_shard known ordinary solid).mp fun name inside =>
            every name (.inl inside)
          exact ⟨grant, member, write, above.imp_right fun at_ => ⟨at_, same⟩⟩
        · -- All spellings of the shard change, and only a grant over everything is over all of them.
          obtain ⟨grant, member, write, everything⟩ := Acl.canWrite_spellings known ordinary solid fun other spelling => by
            have own : shardOf other = other := by
              rw [shardOf_eq_iff spelling.2.1, segments_solid spelling.2.2]
              rfl
            have slot : trimSlashes (trim other) = trimSlashes (trim r.change.shard) := by rw [spelling.1]
            refine every other (.inr fun kept => same (settled.mpr ?_))
            rw [own, policy, TierPolicy.resolve_set_of_eq _ _ (outside spelling.2.1) slot] at kept
            rw [kept, TierPolicy.resolve_of_eq _ (outside ordinary) (outside spelling.2.1) slot]
          exact ⟨grant, member, write, .inl everything⟩
      · rintro ⟨grant, member, write, everything | ⟨at_, same⟩⟩ name reached
        · refine (Acl.canWrite_iff known).mpr ⟨grant, member, write, ?_⟩
          rw [everything]
          exact List.nil_prefix
        · refine (Acl.canWrite_shard known ordinary solid).mpr ⟨grant, member, write, .inr at_⟩ name ?_
          rcases reached with inside | changed
          · exact inside
          · rw [policy, TierPolicy.resolve_set_given (outside ordinary) (settled.mp same)] at changed
            exact absurd rfl changed

/-- What makes a grant of reading and writing well formed, wherever its root is. -/
theorem own_readWrite (root : String) :
    false = true ∧ root = "" ∧ true = false ∧ true = false ∨ false = false ∧ (true = true ∨ true = true) :=
  .inr ⟨rfl, .inl rfl⟩

/-- An admin of one feed. -/
def feedAdmin (root : String) : TierServer :=
  ⟨⟨OrderedMap.empty.insert "k" [⟨root, true, true, false, own_readWrite root⟩, .adminOnly]⟩, .default, some none⟩

def cool (name : String) : TierRequest := ⟨some (some "k"), ⟨name, some "cold", none⟩, none⟩

/-- An admin that may write everywhere may be asked about every namespace it reaches; an admin of
the shard alone changes another spelling of it, too. -/
theorem settings_within_scope_feeds :
    (∀ name, (feedAdmin "").Reaches (cool "feeds/misp") name → (feedAdmin "").acl.canWrite "k" name = true) ∧
    ¬ ∀ name, (feedAdmin "feeds").Reaches (cool "feeds/misp") name → (feedAdmin "feeds").acl.canWrite "k" name = true := by
  constructor
  · exact (@settings_within_scope (feedAdmin "") (cool "feeds/misp") "k"
      (reply ((feedAdmin "").policy.set "feeds" ⟨some .cold, none⟩) "feeds") (by decide) (by decide)).mpr
      ⟨_, rfl, _, List.mem_cons_self, rfl, .inl (by decide)⟩
  · rw [@settings_within_scope (feedAdmin "feeds") (cool "feeds/misp") "k"
      (reply ((feedAdmin "feeds").policy.set "feeds" ⟨some .cold, none⟩) "feeds") (by decide) (by decide)]
    rintro ⟨grants, known, grant, member, write, over_⟩
    obtain rfl := Option.some.inj ((show (feedAdmin "feeds").acl.keys.get "k" = some _ from rfl).symm.trans known)
    have narrow : ∀ grant ∈ ([⟨"feeds", true, true, false, own_readWrite "feeds"⟩, .adminOnly] : List Grant),
        grant.write = true → segments grant.root ≠ [] := by decide
    have cools : ¬ (feedAdmin "feeds").Settled (cool "feeds/misp") := by decide
    rcases over_ with everything | ⟨-, same⟩
    · exact narrow grant member write everything
    · exact cools same

/-- A key scoped to one namespace of a shard changes how the others are kept. -/
theorem one_feed_for_all : (∃ reply, ((feedAdmin "feeds/misp").setTier (cool "feeds/misp")).2 = .ok reply) ∧
    (feedAdmin "feeds/misp").acl.canWrite "k" "feeds/other" = false ∧
    shardOf "feeds/other" = (cool "feeds/misp").change.shard ∧
    ((feedAdmin "feeds/misp").policy.resolve (shardOf "feeds/other")).tier = .hot ∧
    (((feedAdmin "feeds/misp").setTier (cool "feeds/misp")).1.policy.resolve (shardOf "feeds/other")).tier = .cold := by
  refine ⟨⟨_, rfl⟩, ?_⟩
  decide

end TierServer

end SightingDB
