import SightingDB.CountedOnce
import SightingDB.RequestPaths

/-!
Searches. A read of a value leaves a shadow sighting on the server the client asked, and what
that server passes on asks for none. Recording happens in three places: where a value is read
here, where a single read is passed on, and where an item of a batch is.
-/
namespace SightingDB

/-! ## The query of a read that is passed on -/

/-- `suppressing_shadow`: the query with `noshadow` added. The path goes along as it is. -/
def suppressingShadow (query : String) : String :=
  if query = "" then "noshadow"
  else if (splitOnChar '&' query).any fun part => part = "noshadow" || startsWith part "noshadow=" then query
  else query ++ "&noshadow"

section Suppressing

variable {shown : Shown} {query : String}

theorem queryPairs_noshadow (shows : Percent.Shows shown) (query : String) :
    queryPairs shown (query ++ "&noshadow") = queryPairs shown query ++ [("noshadow", "")] := by
  have parts : splitOnChar '&' (query ++ "&noshadow") = splitOnChar '&' query ++ ["noshadow"] := by
    have text : (query ++ "&noshadow").toList = query.toList ++ '&' :: "noshadow".toList := by simp
    rw [splitOnChar, text, List.splitOn_append_cons_self, List.map_append]
    rfl
  have plain : FormPlain "noshadow" := by decide
  rw [queryPairs, parts, List.filter_append, List.map_append, ← queryPairs]
  simp [queryPair_name shows (by decide) plain]

/-- A query that names `noshadow` gives it to the handler. -/
theorem noshadow_given (shows : Percent.Shows shown)
    (named : (splitOnChar '&' query).any (fun part => part = "noshadow" || startsWith part "noshadow=") = true) :
    ∃ pair ∈ queryPairs shown query, pair.1 = "noshadow" := by
  obtain ⟨part, mem, starts⟩ := List.any_eq_true.mp named
  have plain : FormPlain "noshadow" := by decide
  have some_ : part ≠ "" := by
    rintro rfl
    revert starts
    decide
  refine ⟨queryPair shown part, List.mem_map_of_mem (List.mem_filter.mpr ⟨mem, by simpa using some_⟩), ?_⟩
  rcases Bool.or_eq_true _ _ ▸ starts with bare | valued
  · obtain rfl := of_decide_eq_true bare
    rw [queryPair_name shows (by decide) plain]
  · obtain ⟨value, rfl⟩ := eq_append_of_startsWith valued
    have text : "noshadow=" = "noshadow" ++ "=" := by decide
    have parted : splitOnce '=' ("noshadow" ++ "=" ++ value) = some ("noshadow", value) :=
      splitOnce_append (by decide) value
    rw [text, queryPair, parted]
    exact formDecode_plain shows plain

theorem ReadQuery.field_append {pairs : List (String × String)} {name value : String} (name' : String)
    (fresh : ReadQuery.field pairs name = some none) : ReadQuery.field (pairs ++ [(name, value)]) name' =
      if name' = name then some (some value) else ReadQuery.field pairs name' := by
  by_cases same : name' = name
  · subst same
    have none_ : pairs.filter (·.1 = name') = [] := by
      simp only [ReadQuery.field] at fresh
      split at fresh
      · assumption
      · cases fresh
      · cases fresh
    simp [ReadQuery.field, List.filter_append, none_]
  · simp [ReadQuery.field, List.filter_append, Ne.symm same, same]

/-- The mirror is asked for what the client asked for, and for no shadow. -/
theorem suppressingShadow_asks (shows : Percent.Shows shown) {asked : ReadQuery}
    (reads : ReadQuery.ofPairs (queryPairs shown query) = some asked) (unsaid : asked.noshadow = none) :
    ReadQuery.ofPairs (queryPairs shown (suppressingShadow query)) = some { asked with noshadow := some "" } := by
  have fields := reads
  simp only [ReadQuery.ofPairs, Option.bind_eq_bind, Option.bind_eq_some_iff] at fields
  obtain ⟨val, val_, noshadow, noshadow_, count, count_, forMerge, forMerge_, offset, offset_, limit, limit_, same⟩ := fields
  obtain rfl := Option.some.inj same
  obtain rfl : noshadow = none := unsaid
  have fresh : ¬ ∃ pair ∈ queryPairs shown query, pair.1 = "noshadow" := by
    rintro ⟨pair, mem, named⟩
    simp only [ReadQuery.field] at noshadow_
    split at noshadow_
    · rename_i none_
      have kept : pair ∈ (queryPairs shown query).filter (·.1 = "noshadow") :=
        List.mem_filter.mpr ⟨mem, by simpa using named⟩
      rw [none_] at kept
      cases kept
    · cases noshadow_
    · cases noshadow_
  have pairs : queryPairs shown (suppressingShadow query) = queryPairs shown query ++ [("noshadow", "")] := by
    rw [suppressingShadow]
    split_ifs with empty named
    · subst empty
      exact queryPairs_noshadow shows ""
    · exact absurd (noshadow_given shows named) fresh
    · exact queryPairs_noshadow shows query
  have number (name : String) (other : name ≠ "noshadow") :
      ReadQuery.numberField (queryPairs shown query ++ [("noshadow", "")]) name =
        ReadQuery.numberField (queryPairs shown query) name := by
    rw [ReadQuery.numberField, ReadQuery.field_append name noshadow_, if_neg other, ReadQuery.numberField]
  simp [ReadQuery.ofPairs, pairs, ReadQuery.field_append _ noshadow_, number, val_, count_, forMerge_, offset_, limit_]

end Suppressing

/-! ## Searches of a request -/

/-- The searches a request asks to have recorded: reads of a value, without `noshadow`. -/
def Ask.searches : Ask → List (String × String)
  | .read _ name (some value) false => [(name, value)]
  | .readBulk _ items => (items.filter (!·.noshadow)).map fun item => (item.namespace_, item.value)
  | _ => []

/-- The namespaces a request reads values of. -/
def Ask.searched : Ask → List String
  | .read _ name _ _ => [name]
  | .readBulk _ items => items.map (·.namespace_)
  | _ => []

def Ask.isBatch : Ask → Bool
  | .readBulk _ _ => true
  | _ => false

/-- The servers' databases, and the searches recorded: where, and of what. -/
structure Searched where
  dbs : Nat → Database
  log : List (Nat × String × String)

namespace Searched

variable (st : Searched) (worlds : Nat → World) (s : Nat)

/-- A search recorded where it is not answered. -/
def note (name value : String) : Searched where
  dbs := Function.update st.dbs s
    ((st.dbs s).write (worlds s) (shadowPrefix ++ name) value (worlds s).now .default)
  log := st.log ++ [(s, name, value)]

/-- `sighting_reader::read` at a server. -/
def read (name value : String) (withStats withShadow : Bool) : Searched where
  dbs := Function.update st.dbs s (SightingDB.read (st.dbs s) (worlds s) name value withStats withShadow).1
  log := st.log ++ if withShadow && !startsWith name configPrefix then [(s, name, value)] else []

/-- `sighting_reader::read_namespace` at a server. -/
def readNamespace (name : String) : Searched where
  dbs := Function.update st.dbs s
    (if startsWith name configPrefix then st.dbs s else ((st.dbs s).namespaceViews (worlds s) name).1)
  log := st.log

end Searched

namespace Network

variable (net : Network) (worlds : Nat → World)

/-- One item of a batch: read here, or noted and passed on. -/
def readItem (s : Nat) (headers : Headers) (withStats : Bool) (st : Searched) (item : BulkSighting) : Searched :=
  match (net.sites s).galaxy with
  | none => st.read worlds s item.namespace_ item.value withStats (!item.noshadow)
  | some galaxy =>
      if !(net.sites s).elsewhere item.namespace_ then
        st.read worlds s item.namespace_ item.value withStats (!item.noshadow)
      else match headers.hopsLeft galaxy.maxHops with
        | none => st
        | some _ => match galaxy.readerUrl net.weigh item.namespace_ item.value with
          | .error _ => st
          | .ok _ => if item.noshadow then st else st.note worlds s item.namespace_ item.value

/-- What a server does itself with a read. Other requests record no search. -/
def handle (m : Message) (st : Searched) : Searched :=
  match m.ask with
  | .read withStats name val noshadow =>
      if !(net.sites m.server).authorized m.headers name .read then st
      else match (net.sites m.server).shouldForward m.headers name, val with
        | some (_, none), _ => st
        | some (_, some _), some value => if noshadow then st else st.note worlds m.server name value
        | some (_, some _), none => st
        | none, some value => st.read worlds m.server name value withStats (!noshadow)
        | none, none => if withStats then st else st.readNamespace worlds m.server name
  | .readBulk withStats items =>
      if items.all fun item => (net.sites m.server).authorized m.headers item.namespace_ .read then
        items.foldl (net.readItem worlds m.server m.headers withStats) st
      else st
  | _ => st

/-- A request, and then everything it causes elsewhere, to a depth. `reaches` says of every way a
copy takes whether it arrives. -/
def serve (reaches : List Message → Bool) : Nat → List Message → Message → Searched → Searched
  | 0, _, m, st => net.handle worlds m st
  | depth + 1, way, m, st => (net.next m).foldl
      (fun st m' => if reaches (m' :: way) then serve reaches depth (m' :: way) m' st else st) (net.handle worlds m st)

/-! ## What is recorded -/

/-- Whether a server records the search of an item of a batch. -/
def notesItem (s : Nat) (headers : Headers) (item : BulkSighting) : Bool :=
  !item.noshadow && match (net.sites s).galaxy with
    | none => !startsWith item.namespace_ configPrefix
    | some galaxy =>
        if !(net.sites s).elsewhere item.namespace_ then !startsWith item.namespace_ configPrefix
        else (headers.hopsLeft galaxy.maxHops).isSome && !(galaxy.liveHolders item.namespace_).isEmpty

/-- The searches a server records of a request. -/
def recorded (m : Message) : List (String × String) :=
  match m.ask with
  | .read _ name (some value) false =>
      if !(net.sites m.server).authorized m.headers name .read then []
      else match (net.sites m.server).shouldForward m.headers name with
        | some (_, none) => []
        | some (_, some _) => [(name, value)]
        | none => if startsWith name configPrefix then [] else [(name, value)]
  | .readBulk _ items =>
      if items.all fun item => (net.sites m.server).authorized m.headers item.namespace_ .read then
        (items.filter (net.notesItem m.server m.headers)).map fun item => (item.namespace_, item.value)
      else []
  | _ => []

variable {net worlds} {m : Message} {st : Searched}

/-- A reader is found as long as a holder answers. -/
theorem readerUrl_isOk (galaxy : Galaxy) (weigh : String → String → Nat) (name value : String) :
    (galaxy.readerUrl weigh name value).isOk = !(galaxy.liveHolders name).isEmpty := by
  have chosen : (galaxy.readerFor weigh name value).isSome = !(galaxy.liveHolders name).isEmpty := by
    have found (peers : List Peer) :
        (Galaxy.heaviest (fun peer => weigh value peer.url) peers).isSome = !peers.isEmpty := by
      rw [Bool.eq_iff_iff, Option.isSome_iff_ne_none, Ne, Galaxy.heaviest_eq_none]
      simp
    simp only [Galaxy.readerFor, found]
    split_ifs with current
    · rfl
    · cases live : galaxy.liveHolders name with
      | nil => simp [live] at current
      | cons peer rest =>
          rw [live] at current
          simp [current]
  simp only [Galaxy.readerUrl]
  split_ifs with none_
  · have live : galaxy.liveHolders name = [] := by
      rw [Galaxy.liveHolders, List.isEmpty_iff.mp none_, List.filter_nil]
    rw [live]
    rfl
  · rw [← chosen]
    cases galaxy.readerFor weigh name value <;> rfl

theorem readItem_log {s : Nat} {headers : Headers} {withStats : Bool} {item : BulkSighting} :
    (net.readItem worlds s headers withStats st item).log = st.log ++
      (([item].filter (net.notesItem s headers)).map fun item => (s, item.namespace_, item.value)) := by
  cases galaxy_ : (net.sites s).galaxy with
  | none =>
      cases shadow : item.noshadow <;> cases config : startsWith item.namespace_ configPrefix <;>
        simp [readItem, notesItem, Searched.read, galaxy_, shadow, config]
  | some galaxy =>
      cases away : (net.sites s).elsewhere item.namespace_ with
      | false =>
          cases shadow : item.noshadow <;> cases config : startsWith item.namespace_ configPrefix <;>
            simp [readItem, notesItem, Searched.read, galaxy_, away, shadow, config]
      | true =>
          have found := readerUrl_isOk galaxy net.weigh item.namespace_ item.value
          cases hops : headers.hopsLeft galaxy.maxHops with
          | none => simp [readItem, notesItem, galaxy_, away, hops]
          | some n =>
              cases url : galaxy.readerUrl net.weigh item.namespace_ item.value <;> rw [url] at found <;>
                cases shadow : item.noshadow <;>
                simp [readItem, notesItem, galaxy_, away, hops, url, shadow, ← found, Except.isOk, Except.toBool,
                  Searched.note]

theorem readItems_log {s : Nat} {headers : Headers} {withStats : Bool} {items : List BulkSighting} {st : Searched} :
    (items.foldl (net.readItem worlds s headers withStats) st).log = st.log ++
      ((items.filter (net.notesItem s headers)).map fun item => (s, item.namespace_, item.value)) := by
  induction items generalizing st with
  | nil => simp
  | cons item rest ih =>
      rw [List.foldl_cons, ih, readItem_log, List.append_assoc, ← List.map_append, ← List.filter_append]
      rfl

theorem handle_log : (net.handle worlds m st).log = st.log ++ (net.recorded m).map (Prod.mk m.server) := by
  obtain ⟨s, headers, ask⟩ := m
  cases ask with
  | read withStats name val noshadow =>
      cases authorized : (net.sites s).authorized headers name .read with
      | false => cases val <;> cases noshadow <;> simp [handle, recorded, authorized]
      | true =>
          cases decided : (net.sites s).shouldForward headers name with
          | none =>
              cases val <;> cases noshadow <;> cases config : startsWith name configPrefix <;> cases withStats <;>
                simp [handle, recorded, authorized, decided, Searched.read, Searched.readNamespace, config]
          | some forward =>
              obtain ⟨galaxy, hops⟩ := forward
              cases hops <;> cases val <;> cases noshadow <;>
                simp [handle, recorded, authorized, decided, Searched.note]
  | readBulk withStats items =>
      simp only [handle, recorded]
      split_ifs with authorized
      · rw [readItems_log, List.map_map]
        rfl
      · simp
  | _ => simp [handle, recorded]

/-- A sub-batch asks for no shadow. -/
theorem readBulkForwards_silent {s : Nat} {headers : Headers} {withStats : Bool} {items : List BulkSighting}
    {posted : Posted} (sent : posted ∈ net.readBulkForwards s headers withStats items) : posted.ask.searches = [] := by
  simp only [readBulkForwards] at sent
  split at sent
  · cases sent
  · split at sent
    · cases sent
    · obtain ⟨group, -, to_⟩ := List.mem_flatMap.mp sent
      rw [(forwardTo_spends to_).asked]
      simp [Ask.searches]

theorem forwards_silent {s : Nat} {headers : Headers} {ask : Ask} {posted : Posted}
    (sent : posted ∈ net.forwards s headers ask) : posted.ask.searches = [] := by
  cases ask with
  | read withStats name val noshadow =>
      simp only [forwards] at sent
      split_ifs at sent
      · rw [(readForwards_spends sent).asked]
        cases val <;> rfl
      · cases sent
  | readBulk withStats items =>
      simp only [forwards] at sent
      split_ifs at sent
      · exact readBulkForwards_silent sent
      · cases sent
  | write name query =>
      simp only [forwards] at sent
      split_ifs at sent
      · split at sent
        · rw [(forwardWrite_spends sent).asked]
          rfl
        · cases sent
      · cases sent
  | writeBulk items =>
      simp only [forwards] at sent
      split at sent
      · split at sent
        · rw [(forwardBatch_spends sent).asked]
          rfl
        · cases sent
      · cases sent
  | stix name val recursive =>
      have gathers {names : List String} (sent : posted ∈ net.gatheredExport s names) : posted.ask.searches = [] := by
        obtain ⟨wanted, spends⟩ := gatheredExport_spends sent
        rw [spends.asked]
        rfl
      cases val with
      | some value =>
          simp only [forwards] at sent
          split_ifs at sent
          · cases sent
          · cases sent
          · rw [(readForwards_spends sent).asked]
            rfl
      | none =>
          simp only [forwards] at sent
          split_ifs at sent
          · cases sent
          · rcases List.mem_append.mp sent with listed | gathered
            · rw [(listingForwards_spends listed).1.asked]
              rfl
            · exact gathers gathered
          · exact gathers sent
  | stixApi body =>
      have gathers {names : List String} (sent : posted ∈ net.gatheredExport s names) : posted.ask.searches = [] := by
        obtain ⟨wanted, spends⟩ := gatheredExport_spends sent
        rw [spends.asked]
        rfl
      simp only [forwards] at sent
      split_ifs at sent
      · cases sent
      · rcases List.mem_append.mp sent with listed | gathered
        · rw [(listingForwards_spends listed).1.asked]
          rfl
        · exact gathers gathered
      · exact gathers sent
  | namespaces => cases sent

/-- What a server passes on asks for no shadow. -/
theorem next_silent {m' : Message} (passed : m' ∈ net.next m) : m'.ask.searches = [] := by
  obtain ⟨posted, sent, arrived⟩ := List.mem_filterMap.mp passed
  obtain ⟨server, -, rfl⟩ := Option.map_eq_some_iff.mp arrived
  exact forwards_silent sent

theorem recorded_sublist : (net.recorded m).Sublist m.ask.searches := by
  obtain ⟨s, headers, ask⟩ := m
  cases ask with
  | read withStats name val noshadow =>
      cases val <;> cases noshadow <;> simp only [recorded, Ask.searches, List.nil_sublist]
      split
      · exact List.nil_sublist _
      · split
        · exact List.nil_sublist _
        · exact List.Sublist.refl _
        · split <;> simp
  | readBulk withStats items =>
      simp only [recorded, Ask.searches]
      split_ifs
      · refine (List.monotone_filter_right items fun item noted => ?_).map _
        simp only [notesItem, Bool.and_eq_true] at noted
        exact noted.1
      · exact List.nil_sublist _
  | _ => exact List.nil_sublist _

/-- A copy that asks for no shadow leaves none, wherever it goes. -/
theorem serve_silent {reaches : List Message → Bool} {depth : Nat} {way : List Message}
    (silent : m.ask.searches = []) : (net.serve worlds reaches depth way m st).log = st.log := by
  have here (m : Message) (silent : m.ask.searches = []) (st : Searched) : (net.handle worlds m st).log = st.log := by
    have none_ : net.recorded m = [] := List.sublist_nil.mp (silent ▸ recorded_sublist)
    rw [handle_log, none_, List.map_nil, List.append_nil]
  induction depth generalizing way m st with
  | zero => exact here m silent st
  | succ depth ih =>
      rw [← here m silent st]
      refine List.foldlRecOn (motive := fun st' : Searched => st'.log = (net.handle worlds m st).log) _ _ rfl ?_
      intro st' same m' passed
      split_ifs
      · exact (ih (next_silent passed)).trans same
      · exact same

/-- Only the server that was asked records anything. -/
theorem serve_log {reaches : List Message → Bool} {depth : Nat} {way : List Message} :
    (net.serve worlds reaches depth way m st).log = st.log ++ (net.recorded m).map (Prod.mk m.server) := by
  rw [← @handle_log net worlds m st]
  cases depth with
  | zero => rfl
  | succ depth =>
      refine List.foldlRecOn (motive := fun st' : Searched => st'.log = (net.handle worlds m st).log) _ _ rfl ?_
      intro st' same m' passed
      split_ifs
      · exact (serve_silent (next_silent passed)).trans same
      · exact same

end Network

/-! ## What is recorded is counted -/

section Finds

variable {names : ShardFiles} {dir : Dir} {w : World} {db : Database}

theorem shardOf_of_internal {name : String} (internal : isInternal name = true) : shardOf name = internalShard := by
  cases first : firstSegment name with
  | none => simp [isInternal, first] at internal
  | some segment =>
      have under : startsWithChar segment '_' = true := by simpa [isInternal, first] using internal
      simp [shardOf, first, under]

theorem shardOf_shadow (name : String) : shardOf (shadowPrefix ++ name) = internalShard :=
  shardOf_of_internal (isInternal_of_shadow (startsWith_append shadowPrefix name))

/-- A look at what is held moves nothing. -/
theorem Finds.looks (finds : Finds names dir w [] db) (query : Query)
    (resident : db.Keeps db.node db.namespaces → (query.apply db w).1.Keeps db.node db.namespaces) :
    Finds names dir w [] (query.apply db w).1 ∧ held names dir (query.apply db w).1 = held names dir db := by
  rcases finds with all | ⟨⟨now, rfl⟩, consistent, used⟩
  · have kept := resident ⟨all, rfl, rfl⟩
    refine ⟨.inl kept.resident, funext fun name => ?_⟩
    rw [Database.held_resident kept.resident, Database.held_resident all, kept.namespaces]
  · have looked := (query.reads consistent now).1
    exact ⟨.inr ⟨⟨now, rfl⟩, looked.consistent, used⟩, looked.held⟩

/-- A shadow left is one more sighting of its value. -/
theorem Finds.note (finds : Finds names dir w [] db) (name value : String) :
    Finds names dir w [] (db.write w (shadowPrefix ++ name) value w.now .default) ∧
      Raises (held names dir db) (held names dir (db.write w (shadowPrefix ++ name) value w.now .default))
        (shadowPrefix ++ name) value := by
  simp only [Database.write]
  rcases finds with all | ⟨⟨now, rfl⟩, consistent, used⟩
  · obtain ⟨resident, raises⟩ := @recordWrite_resident names dir w db all db.node (shadowPrefix ++ name) value w.now
      .default ""
    exact ⟨.inl resident, raises⟩
  · have internal : names.used (shardOf (shadowPrefix ++ name)) := by
      rw [shardOf_shadow]
      exact names.internal
    have done := recordWrite_does consistent now internal db.node value (World.sound names dir now).now .default ""
    refine ⟨.inr ⟨⟨now, rfl⟩, done.consistent, used⟩, ?_⟩
    rw [done.held]
    exact Contents.write_raises _ _ _ _ _ _ _ _ _ _

theorem Finds.namespaceViews (finds : Finds names dir w [] db) (name : String) :
    Finds names dir w [] (db.namespaceViews w name).1 ∧
      held names dir (db.namespaceViews w name).1 = held names dir db := by
  refine finds.looks (.namespaceViews name) fun keeps => ?_
  have counts (views : List AttributeView) {db' : Database} (keeps : db'.Keeps db.node db.namespaces) :
      (db'.withConsensus w views).1.Keeps db.node db.namespaces := by
    induction views generalizing db' with
    | nil => exact keeps
    | cons v rest ih => exact ih (keeps.count w allNamespace v.value).1
  simp only [Query.apply, Database.namespaceViews, keeps.namespace_]
  cases db.namespaces.get name with
  | none => exact keeps.touch _
  | some ns => exact counts _ (keeps.touch _)

theorem Finds.count (finds : Finds names dir w [] db) (name value : String) :
    Finds names dir w [] (db.count w name value).1 ∧ held names dir (db.count w name value).1 = held names dir db :=
  finds.looks (.count name value) fun keeps => (keeps.count w name value).1

theorem Finds.view (finds : Finds names dir w [] db) (name value : String) (consensus : Nat) (withStats : Bool) :
    Finds names dir w [] (db.view w name value consensus withStats).1 ∧
      held names dir (db.view w name value consensus withStats).1 = held names dir db := by
  refine finds.looks (.view name value consensus withStats) fun keeps => ?_
  simp only [Query.apply, Database.view, keeps.namespace_]
  cases db.namespaces.get name <;> exact keeps.touch _

/-- A read with a shadow is a shadow left, and one without leaves all as it is. -/
theorem Finds.read (finds : Finds names dir w [] db) (name value : String) (withStats withShadow : Bool) :
    Finds names dir w [] (SightingDB.read db w name value withStats withShadow).1 ∧
      if withShadow && !startsWith name configPrefix then
        Raises (held names dir db) (held names dir (SightingDB.read db w name value withStats withShadow).1)
          (shadowPrefix ++ name) value
      else held names dir (SightingDB.read db w name value withStats withShadow).1 = held names dir db := by
  simp only [SightingDB.read]
  cases config : startsWith name configPrefix with
  | true => simpa using finds
  | false =>
      obtain ⟨counted, same⟩ := finds.count allNamespace value
      obtain ⟨viewed, same'⟩ := counted.view name value (db.count w allNamespace value).2 withStats
      generalize (db.count w allNamespace value).1.view w name value (db.count w allNamespace value).2 withStats =
        result at viewed same' ⊢
      cases withShadow with
      | false => exact ⟨viewed, same'.trans same⟩
      | true =>
          obtain ⟨noted, raises⟩ := viewed.note name value
          rw [same', same] at raises
          exact ⟨noted, raises⟩

end Finds

namespace Network

section Counting

variable (names : Nat → ShardFiles) (dirs : Nat → Dir)

/-- The total count of a value at a server. -/
def total (dbs : Nat → Database) (s : Nat) (name value : String) : Nat :=
  (Contents.cell (held (names s) (dirs s) (dbs s)) name value).count

/-- Every server finds what it holds. -/
def Standing (worlds : Nat → World) (dbs : Nat → Database) : Prop :=
  ∀ s, Finds (names s) (dirs s) (worlds s) [] (dbs s)

/-- Whether a search recorded left its shadow on a value. -/
def shadows (s : Nat) (name value : String) (e : Nat × String × String) : Bool :=
  e.1 = s && shadowPrefix ++ e.2.1 = name && e.2.2 = value

/-- Every search recorded has raised the total of its value in the shadow by one. -/
structure Counted (worlds : Nat → World) (before : Nat → Database) (st : Searched) : Prop where
  standing : Standing names dirs worlds st.dbs
  totals : ∀ s name value, name ≠ allNamespace → total names dirs st.dbs s name value =
    (total names dirs before s name value + st.log.countP (shadows s name value)) % u64Size

variable {names dirs} {net : Network} {worlds : Nat → World} {before : Nat → Database} {st st' : Searched} {s : Nat}
  {m : Message}

theorem Counted.refl (standing : Standing names dirs worlds before) : Counted names dirs worlds before ⟨before, []⟩ where
  standing := standing
  totals s name value _ := by simp [total, Attribute.count]

/-- One server's database changes, and nothing held does. -/
theorem Counted.still (counted : Counted names dirs worlds before st) {db : Database}
    (dbs : st'.dbs = Function.update st.dbs s db) (log : st'.log = st.log)
    (finds : Finds (names s) (dirs s) (worlds s) [] db)
    (same : held (names s) (dirs s) db = held (names s) (dirs s) (st.dbs s)) :
    Counted names dirs worlds before st' where
  standing k := by
    rw [dbs]
    by_cases here : k = s
    · subst here
      simpa using finds
    · simpa [here] using counted.standing k
  totals k name value other := by
    rw [log, ← counted.totals k name value other, total, total, dbs]
    by_cases here : k = s
    · subst here
      rw [Function.update_self, same]
    · rw [Function.update_of_ne here]

/-- One server's database takes a shadow, and the log says so. -/
theorem Counted.shadowed (counted : Counted names dirs worlds before st) {db : Database} {name value : String}
    (dbs : st'.dbs = Function.update st.dbs s db) (log : st'.log = st.log ++ [(s, name, value)])
    (finds : Finds (names s) (dirs s) (worlds s) [] db)
    (raises : Raises (held (names s) (dirs s) (st.dbs s)) (held (names s) (dirs s) db) (shadowPrefix ++ name) value) :
    Counted names dirs worlds before st' where
  standing k := by
    rw [dbs]
    by_cases here : k = s
    · subst here
      simpa using finds
    · simpa [here] using counted.standing k
  totals k name' value' other := by
    have known := counted.totals k name' value' other
    rw [log, List.countP_append, List.countP_singleton, total, dbs]
    by_cases here : k = s
    · subst here
      rw [Function.update_self, raises name' value' other]
      by_cases mine : name' = shadowPrefix ++ name ∧ value' = value
      · obtain ⟨rfl, rfl⟩ := mine
        rw [← total, known]
        simp [shadows, Nat.mod_add_mod, Nat.add_assoc]
      · have apart : shadows k name' value' (k, name, value) = false := by
          simp only [shadows]
          grind
        rw [if_neg mine, ← total, known]
        simp [apart]
    · rw [Function.update_of_ne here, ← total, known]
      simp [shadows, Ne.symm here]

theorem Counted.note (counted : Counted names dirs worlds before st) (name value : String) :
    Counted names dirs worlds before (st.note worlds s name value) := by
  obtain ⟨finds, raises⟩ := (counted.standing s).note name value
  exact counted.shadowed rfl rfl finds raises

theorem Counted.read (counted : Counted names dirs worlds before st) (name value : String)
    (withStats withShadow : Bool) : Counted names dirs worlds before (st.read worlds s name value withStats withShadow) := by
  obtain ⟨finds, done⟩ := (counted.standing s).read name value withStats withShadow
  split_ifs at done with leaves
  · exact counted.shadowed rfl (by simp [Searched.read, leaves]) finds done
  · exact counted.still rfl (by simp [Searched.read, leaves]) finds done

theorem Counted.readNamespace (counted : Counted names dirs worlds before st) (name : String) :
    Counted names dirs worlds before (st.readNamespace worlds s name) := by
  obtain ⟨finds, same⟩ := (counted.standing s).namespaceViews name
  by_cases config : startsWith name configPrefix = true
  · exact counted.still rfl rfl (by simpa [config] using counted.standing s) (by simp [config])
  · exact counted.still rfl rfl (by simpa [config] using finds) (by simpa [config] using same)

theorem Counted.readItem (counted : Counted names dirs worlds before st) {headers : Headers} {withStats : Bool}
    (item : BulkSighting) : Counted names dirs worlds before (net.readItem worlds s headers withStats st item) := by
  have here := counted.read (s := s) item.namespace_ item.value withStats (!item.noshadow)
  simp only [Network.readItem]
  split
  · exact here
  · split
    · exact here
    · split
      · exact counted
      · split
        · exact counted
        · split
          · exact counted
          · exact counted.note _ _

theorem Counted.handle (counted : Counted names dirs worlds before st) :
    Counted names dirs worlds before (net.handle worlds m st) := by
  simp only [Network.handle]
  split
  · split
    · exact counted
    · split
      · exact counted
      · split
        · exact counted
        · exact counted.note _ _
      · exact counted
      · exact counted.read _ _ _ _
      · split
        · exact counted
        · exact counted.readNamespace _
  · split
    · exact List.foldlRecOn _ _ counted fun st' counted item _ => counted.readItem item
    · exact counted
  · exact counted

theorem Counted.serve (counted : Counted names dirs worlds before st) {reaches : List Message → Bool} {depth : Nat}
    {way : List Message} : Counted names dirs worlds before (net.serve worlds reaches depth way m st) := by
  induction depth generalizing way m st with
  | zero => exact counted.handle
  | succ depth ih =>
      refine List.foldlRecOn _ _ counted.handle fun st' counted m' _ => ?_
      split_ifs
      · exact ih counted
      · exact counted

end Counting

/-! ## One search, one shadow -/

section OneShadow

variable (net : Network)

/-- A namespace kept elsewhere is on a mirror that answers. -/
def Reached (s : Nat) (name : String) : Prop :=
  ∀ galaxy, (net.sites s).galaxy = some galaxy → (net.sites s).elsewhere name = true → galaxy.liveHolders name ≠ []

/-- What it takes for every search of a request to be recorded. -/
structure Noted (m : Message) : Prop where
  allowed : ∀ name ∈ m.ask.searched, (net.sites m.server).authorized m.headers name .read = true
  public_ : ∀ search ∈ m.ask.searches, startsWith search.1 configPrefix = false
  reached : m.ask.isBatch = true → ∀ search ∈ m.ask.searches, net.Reached m.server search.1

variable {net} {m : Message}

theorem hopsLeft_client {headers : Headers} (client : headers.hops = .absent) (max : Nat) :
    headers.hopsLeft max = some max := by
  simp only [Headers.hopsLeft, client]

theorem elsewhere_public {site : Site} {name : String} (elsewhere : site.elsewhere name = true) :
    startsWith name configPrefix = false := by
  by_contra config
  have internal := isInternal_of_config (by simpa using config)
  simp [Site.elsewhere, internal] at elsewhere

/-- Of a client's batch a server notes what is wanted, public and within reach. -/
theorem notesItem_client {s : Nat} {headers : Headers} (client : headers.hops = .absent) (item : BulkSighting) :
    net.notesItem s headers item = true ↔
      item.noshadow = false ∧ startsWith item.namespace_ configPrefix = false ∧ net.Reached s item.namespace_ := by
  simp only [notesItem, Bool.and_eq_true, Bool.not_eq_true', Reached]
  refine and_congr_right fun _ => ?_
  cases galaxy_ : (net.sites s).galaxy with
  | none => simp
  | some galaxy =>
      cases away : (net.sites s).elsewhere item.namespace_ with
      | false => simp
      | true => simp [hopsLeft_client client, elsewhere_public away]

theorem shouldForward_client {site : Site} {headers : Headers} (client : headers.hops = .absent) {name : String}
    {galaxy : Galaxy} {hops : Option Nat} (decided : site.shouldForward headers name = some (galaxy, hops)) :
    site.elsewhere name = true ∧ hops = some galaxy.maxHops := by
  simp only [Site.shouldForward] at decided
  cases here : site.stores.holds name with
  | true => simp [here] at decided
  | false =>
      cases known : site.galaxy with
      | none => simp [here, known] at decided
      | some galaxy' =>
          cases internal : isInternal name with
          | true => simp [here, known, internal] at decided
          | false =>
              simp only [here, known, internal, Bool.false_eq_true, if_false, Option.some.injEq, Prod.mk.injEq] at decided
              obtain ⟨rfl, rfl⟩ := decided
              exact ⟨by simp [Site.elsewhere, here, internal], hopsLeft_client client _⟩

theorem recorded_read {headers : Headers} (client : headers.hops = .absent) (s : Nat) (withStats : Bool)
    (name value : String) : net.recorded ⟨s, headers, .read withStats name (some value) false⟩ =
      if (net.sites s).authorized headers name .read && !startsWith name configPrefix then [(name, value)] else [] := by
  simp only [recorded]
  cases (net.sites s).authorized headers name .read with
  | false => rfl
  | true =>
      cases decided : (net.sites s).shouldForward headers name with
      | none => cases config : startsWith name configPrefix <;> simp
      | some forward =>
          obtain ⟨galaxy, hops⟩ := forward
          obtain ⟨elsewhere, rfl⟩ := shouldForward_client client decided
          simp [elsewhere_public elsewhere]

/-- As much is recorded as is asked for only when nothing is left out. -/
theorem recorded_readBulk {headers : Headers} (client : headers.hops = .absent) (s : Nat) (withStats : Bool)
    (items : List BulkSighting) :
    net.recorded ⟨s, headers, .readBulk withStats items⟩ = (Ask.readBulk withStats items).searches ↔
      (Ask.readBulk withStats items).searches = [] ∨
        (∀ item ∈ items, (net.sites s).authorized headers item.namespace_ .read = true) ∧
          ∀ item ∈ items, item.noshadow = false →
            startsWith item.namespace_ configPrefix = false ∧ net.Reached s item.namespace_ := by
  simp only [recorded, Ask.searches]
  by_cases allowed : (items.all fun item => (net.sites s).authorized headers item.namespace_ .read) = true
  · rw [if_pos allowed]
    have every : ∀ item ∈ items, (net.sites s).authorized headers item.namespace_ .read = true :=
      List.all_eq_true.mp allowed
    constructor
    · intro same
      have fewer : (items.filter (net.notesItem s headers)).Sublist (items.filter fun item => !item.noshadow) :=
        List.monotone_filter_right items fun item noted => by
          simpa using ((notesItem_client client item).mp noted).1
      have same' : items.filter (net.notesItem s headers) = items.filter fun item => !item.noshadow :=
        fewer.eq_of_length (by simpa using congrArg List.length same)
      refine .inr ⟨every, fun item mem wanted => ?_⟩
      have kept : item ∈ items.filter (net.notesItem s headers) := by
        rw [same']
        exact List.mem_filter.mpr ⟨mem, by simp [wanted]⟩
      exact ((notesItem_client client item).mp (List.mem_filter.mp kept).2).2
    · rintro (nothing | ⟨-, noted⟩)
      · have none_ : items.filter (fun item => !item.noshadow) = [] := List.map_eq_nil_iff.mp nothing
        have fewer : items.filter (net.notesItem s headers) = [] := List.filter_eq_nil_iff.mpr fun item mem noted =>
          List.filter_eq_nil_iff.mp none_ item mem (by simpa using ((notesItem_client client item).mp noted).1)
        rw [none_, fewer]
      · refine congrArg _ (List.filter_congr fun item mem => ?_)
        rw [Bool.eq_iff_iff, notesItem_client client]
        constructor
        · rintro ⟨wanted, -⟩
          simp [wanted]
        · intro wanted
          have wanted' : item.noshadow = false := by simpa using wanted
          exact ⟨wanted', noted item mem wanted'⟩
  · rw [if_neg allowed]
    constructor
    · exact fun nothing => .inl nothing.symm
    · rintro (nothing | ⟨every, -⟩)
      · exact nothing.symm
      · exact absurd (List.all_eq_true.mpr every) allowed

theorem recorded_iff (client : m.headers.hops = .absent) :
    net.recorded m = m.ask.searches ↔ m.ask.searches = [] ∨ net.Noted m := by
  obtain ⟨s, headers, ask⟩ := m
  have nothing (silent : ask.searches = []) : net.recorded ⟨s, headers, ask⟩ = ask.searches ↔
      ask.searches = [] ∨ net.Noted ⟨s, headers, ask⟩ := by
    rw [silent]
    have none_ : net.recorded ⟨s, headers, ask⟩ = [] := List.sublist_nil.mp (silent ▸ recorded_sublist)
    simp [none_]
  cases ask with
  | read withStats name val noshadow =>
      cases val with
      | none => exact nothing rfl
      | some value =>
          cases noshadow with
          | true => exact nothing rfl
          | false =>
              rw [recorded_read client]
              simp only [Ask.searches, List.cons_ne_nil, false_or]
              constructor
              · intro same
                split_ifs at same with noted
                obtain ⟨allowed, public_⟩ := Bool.and_eq_true _ _ ▸ noted
                exact ⟨by simpa [Ask.searched] using allowed, by simpa [Ask.searches] using public_, by simp [Ask.isBatch]⟩
              · rintro ⟨allowed, public_, -⟩
                simp only [Ask.searched, Ask.searches, List.mem_singleton, forall_eq] at allowed public_
                simp [allowed, public_]
  | readBulk withStats items =>
      rw [recorded_readBulk client]
      refine or_congr_right ⟨fun ⟨allowed, noted⟩ => ⟨?_, ?_, fun _ => ?_⟩, fun noted => ⟨?_, ?_⟩⟩
      · simpa [Ask.searched] using allowed
      · rintro search asked
        obtain ⟨item, mem, rfl⟩ := List.mem_map.mp asked
        obtain ⟨mem, wanted⟩ := List.mem_filter.mp mem
        exact (noted item mem (by simpa using wanted)).1
      · rintro search asked
        obtain ⟨item, mem, rfl⟩ := List.mem_map.mp asked
        obtain ⟨mem, wanted⟩ := List.mem_filter.mp mem
        exact (noted item mem (by simpa using wanted)).2
      · exact fun item mem => noted.allowed _ (List.mem_map_of_mem mem)
      · intro item mem wanted
        have asked : (item.namespace_, item.value) ∈ (Ask.readBulk withStats items).searches :=
          List.mem_map.mpr ⟨item, List.mem_filter.mpr ⟨mem, by simp [wanted]⟩, rfl⟩
        exact ⟨noted.public_ (item.namespace_, item.value) asked, noted.reached rfl (item.namespace_, item.value) asked⟩
  | write name query => exact nothing rfl
  | writeBulk items => exact nothing rfl
  | stix name val recursive => exact nothing rfl
  | stixApi body => exact nothing rfl
  | namespaces => exact nothing rfl

/-- A read and a batch of the one item record alike, unless the namespace is out of reach. -/
theorem recorded_alike {headers : Headers} (client : headers.hops = .absent) (s : Nat) (withStats : Bool)
    {item : BulkSighting} (wanted : item.noshadow = false) :
    net.recorded ⟨s, headers, .readBulk withStats [item]⟩ =
      net.recorded ⟨s, headers, .read withStats item.namespace_ (some item.value) false⟩ ↔
      ((net.sites s).authorized headers item.namespace_ .read = true → net.Reached s item.namespace_) := by
  rw [recorded_read client]
  simp only [recorded, List.all_cons, List.all_nil, Bool.and_true]
  cases (net.sites s).authorized headers item.namespace_ .read with
  | false => simp
  | true =>
      have noted := @notesItem_client net s headers client item
      simp only [wanted, true_and] at noted
      cases config : startsWith item.namespace_ configPrefix with
      | true =>
          have here : net.Reached s item.namespace_ := fun galaxy _ elsewhere => by
            rw [elsewhere_public elsewhere] at config
            cases config
          cases notes : net.notesItem s headers item with
          | true => simp [notes, config] at noted
          | false => simp [notes, here]
      | false =>
          cases notes : net.notesItem s headers item with
          | true =>
              rw [notes, config] at noted
              simp [notes, (noted.mp rfl).2]
          | false =>
              rw [notes, config] at noted
              simp only [Bool.false_eq_true, true_and, false_iff] at noted
              simp [notes, noted]

/-- Every search recorded raises the total of its value in the shadow by one, and nothing else
raises any. A client's request has each of its searches recorded once, where it was asked, exactly
when the key may read all that is named, none of it is the server's configuration, and what a
batch asks for elsewhere is within reach. A single read asks the last of nothing. -/
theorem one_search_one_shadow (names : Nat → ShardFiles) (dirs : Nat → Dir) (net : Network) (worlds : Nat → World)
    (reaches : List Message → Bool) (depth : Nat) (m : Message) (client : m.headers.hops = .absent)
    (dbs : Nat → Database) (standing : Standing names dirs worlds dbs) :
    (∀ s name value, name ≠ allNamespace →
      total names dirs (net.serve worlds reaches depth [] m ⟨dbs, []⟩).dbs s name value =
        (total names dirs dbs s name value +
          (net.serve worlds reaches depth [] m ⟨dbs, []⟩).log.countP (shadows s name value)) % u64Size) ∧
    ((net.serve worlds reaches depth [] m ⟨dbs, []⟩).log = m.ask.searches.map (Prod.mk m.server) ↔
      m.ask.searches = [] ∨ net.Noted m) ∧
    ∀ withStats item, item.noshadow = false →
      ((net.serve worlds reaches depth [] ⟨m.server, m.headers, .readBulk withStats [item]⟩ ⟨dbs, []⟩).log =
        (net.serve worlds reaches depth []
          ⟨m.server, m.headers, .read withStats item.namespace_ (some item.value) false⟩ ⟨dbs, []⟩).log ↔
        ((net.sites m.server).authorized m.headers item.namespace_ .read = true →
          net.Reached m.server item.namespace_)) := by
  have once : Function.Injective (List.map (Prod.mk m.server) : List (String × String) → _) :=
    List.map_injective_iff.mpr (Prod.mk_right_injective m.server)
  refine ⟨((Counted.refl standing).serve).totals, ?_, fun withStats item wanted => ?_⟩
  · rw [serve_log, List.nil_append, once.eq_iff, recorded_iff client]
  · rw [serve_log, serve_log, List.nil_append, List.nil_append, once.eq_iff, recorded_alike client m.server withStats wanted]

/-- A client reads through the router what the node behind it holds. -/
def throughGateway : Message := ⟨0, Traffic.keyed, .readBulk false [Traffic.sightingIn "a/x"]⟩

theorem one_search_one_shadow_gateway : throughGateway.headers.hops = .absent ∧
    Standing (fun _ => .sample) (fun _ => ⟨none, ∅⟩) Traffic.gateway.worlds Traffic.gateway.idle.dbs ∧
    (Traffic.gateway.toNetwork.serve Traffic.gateway.worlds (fun _ => true) 1 [] throughGateway ⟨Traffic.gateway.idle.dbs, []⟩).log =
      [(0, "a/x", "v")] := by
  have standing : Standing (fun _ => .sample) (fun _ => ⟨none, ∅⟩) Traffic.gateway.worlds Traffic.gateway.idle.dbs :=
    fun s => .inl fun shard meta_ found => by
      simp [Traffic.gateway.idle, Database.withNode, Database.attachStore] at found
  refine ⟨rfl, standing, ((one_search_one_shadow (fun _ => .sample) (fun _ => ⟨none, ∅⟩) Traffic.gateway.toNetwork
    Traffic.gateway.worlds (fun _ => true) 1 throughGateway rfl Traffic.gateway.idle.dbs standing).2.1.mpr (.inr ?_))⟩
  refine ⟨by decide, by decide, fun _ search asked galaxy known _ => ?_⟩
  obtain rfl : search = ("a/x", "v") := List.mem_singleton.mp asked
  obtain rfl := Option.some.inj known
  decide

/-- The gateway with its node not answering. -/
def adrift : Network :=
  { Traffic.gateway.toNetwork with
    sites := fun s => { Traffic.gateway.sites s with
      galaxy := (Traffic.gateway.sites s).galaxy.map fun galaxy => { galaxy with down := fun _ => true } } }

/-- A single read of what no mirror answers for is recorded, and a batch of the same is not. -/
theorem batch_leaves_no_shadow : (adrift.sites 0).authorized Traffic.keyed "a/x" .read = true ∧
    (adrift.serve Traffic.gateway.worlds (fun _ => true) 1 []
      ⟨0, Traffic.keyed, .read false "a/x" (some "v") false⟩ ⟨Traffic.gateway.idle.dbs, []⟩).log = [(0, "a/x", "v")] ∧
    (adrift.serve Traffic.gateway.worlds (fun _ => true) 1 [] throughGateway ⟨Traffic.gateway.idle.dbs, []⟩).log = [] := by
  decide

end OneShadow

end Network

end SightingDB
