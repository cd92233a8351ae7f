import SightingDB.PeerFile

/-!
Whether saved peers come back. They do exactly when nothing in them means anything to TOML and
no address would be tidied again: a text that is decoded on the way is shortened, so the
longest text with something to decode in it cannot be found again in what is read.
-/
namespace SightingDB

namespace Peer

/-- The texts of a peer that are put between quotes. -/
def texts (peer : Peer) : List String := peer.url :: peer.key :: peer.stores.prefixes

/-- Nothing in the peer means anything to the file, and its address is tidy. -/
structure Writable (peer : Peer) : Prop where
  plain : ∀ t ∈ peer.texts, Toml.Plain t.toList
  tidy : tidyUrl peer.url = peer.url

/-- The subtrees as they are written: none for a full mirror. -/
def namespaces (peer : Peer) : Option (List String) := if peer.stores.everything then none else some peer.stores.prefixes

/-- What the file says of a peer. -/
def pairs (peer : Peer) : List (String × Toml.Value) :=
  [("url", .scalar (.str peer.url)), ("key", .scalar (.str peer.key))] ++
    (if peer.stores.everything then [] else [("namespaces", .array (peer.stores.prefixes.map .str))]) ++
    (if peer.enabled then [] else [("enabled", .scalar (.bool false))])

def asFile (peer : Peer) : FilePeer :=
  ⟨peer.url, peer.key, peer.namespaces, if peer.enabled then none else some false⟩

variable {peer : Peer}

theorem checked_again (fit : peer.Fit) (tidy : tidyUrl peer.url = peer.url) : peer.asFile.check = some peer := by
  have some_ : peer.url ≠ "" := fun none => by
    have scheme := fit.scheme
    rw [none] at scheme
    exact absurd scheme (by decide)
  have stores : peer.namespaces.elim .storeEverything (StoragePolicy.fromPrefixes []) = peer.stores := by
    rcases fit.stores with all | ⟨not_all, -, again⟩
    · simp [namespaces, all, StoragePolicy.storeEverything]
    · simp [namespaces, not_all, again]
  have valid : peer.stores.prefixes.mapM validateNamespace = .ok (peer.stores.prefixes.map fun _ => ()) := by
    have each := fit.valid
    generalize peer.stores.prefixes = names at each ⊢
    induction names with
    | nil => rfl
    | cons name rest ih =>
        rw [List.mapM_cons, each name (by simp), ih fun other mem => each other (List.mem_cons_of_mem _ mem)]
        rfl
  have router : peer.stores.isRouter = false := by
    rcases fit.stores with all | ⟨-, more, -⟩
    · rw [all]
      rfl
    · simp [StoragePolicy.isRouter, more]
  have enabled : (if peer.enabled then none else some false).getD true = peer.enabled := by
    cases peer.enabled <;> rfl
  simp only [asFile, FilePeer.check, validatedPeer, tidy, fit.trimmed, fit.key, some_, stores, valid, router, fit.scheme,
    enabled, if_false, Bool.not_true, Bool.false_eq_true, Except.toOption]

theorem tidy_of_checked {entry : FilePeer} (checked : entry.check = some peer) :
    peer.url = tidyUrl entry.url ∧ peer.key = trim entry.key ∧
      peer.stores = entry.namespaces.elim .storeEverything (StoragePolicy.fromPrefixes []) := by
  rw [FilePeer.check] at checked
  cases valid : validatedPeer entry.url entry.key entry.namespaces (entry.enabled.getD true) with
  | error e =>
      rw [valid] at checked
      cases checked
  | ok found =>
      rw [valid] at checked
      obtain rfl := Option.some.inj checked
      obtain ⟨url, key, -, stores, -⟩ := validatedPeer_eq valid
      exact ⟨url, key, stores⟩

theorem ofTable_pairs (peer : Peer) : FilePeer.ofTable peer.pairs = some peer.asFile := by
  have texts : (peer.stores.prefixes.map Toml.Scalar.str).mapM textOf = some peer.stores.prefixes :=
    Traverse.mapM_written _ fun _ _ => rfl
  cases everything : peer.stores.everything <;> cases enabled : peer.enabled <;>
    simp [FilePeer.ofTable, pairs, asFile, namespaces, everything, enabled, List.lookup_cons, List.lookup_nil, textList, flag, texts]

theorem pairs_nodup (peer : Peer) : (peer.pairs.map Prod.fst).Nodup := by
  cases everything : peer.stores.everything <;> cases enabled : peer.enabled <;> simp [pairs, everything, enabled]

theorem pairs_plain (plain : ∀ t ∈ peer.texts, Toml.Plain t.toList) : ∀ p ∈ peer.pairs, Toml.Bare p.1 ∧ p.2.Plain := by
  have bare : Toml.Bare "url" ∧ Toml.Bare "key" ∧ Toml.Bare "namespaces" ∧ Toml.Bare "enabled" := by
    refine ⟨?_, ?_, ?_, ?_⟩ <;> constructor <;> decide
  intro p mem
  simp only [pairs, List.mem_append, List.mem_cons, List.not_mem_nil, or_false] at mem
  rcases mem with ((rfl | rfl) | names) | off
  · exact ⟨bare.1, plain _ (by simp [texts])⟩
  · exact ⟨bare.2.1, plain _ (by simp [texts])⟩
  · split_ifs at names
    · cases names
    · obtain rfl := List.mem_singleton.mp names
      refine ⟨bare.2.2.1, fun s here => ?_⟩
      obtain ⟨t, inside, rfl⟩ := List.mem_map.mp here
      exact plain t (by simp [texts, inside])
  · split_ifs at off
    · cases off
    · obtain rfl := List.mem_singleton.mp off
      exact ⟨bare.2.2.2, trivial⟩

end Peer

namespace PeersFile

/-- The lines of a peer, as characters. -/
def block (peer : Peer) : List (List Char) := "[[peers]]".toList :: (peer.pairs.map Toml.bareWritten ++ [[]])

theorem peerLines_toList (peer : Peer) : (peerLines peer).map String.toList = block peer := by
  have names : (namespacesLine peer.stores).toList =
      Toml.bareWritten ("namespaces", .array (peer.stores.prefixes.map .str)) := by
    simp [namespacesLine, joinBy, Toml.bareWritten, Toml.Value.written, Toml.Scalar.written, Toml.quoted, Toml.quoteMark,
      Function.comp_def]
  cases everything : peer.stores.everything <;> cases enabled : peer.enabled <;>
    simp [peerLines, block, Peer.pairs, everything, enabled, names, Toml.bareWritten, Toml.Value.written, Toml.Scalar.written,
      Toml.quoted, Toml.quoteMark]

theorem toToml_toList (peers : List Peer) :
    (toToml peers).toList = Toml.unlines (fileHeader.map String.toList ++ peers.flatMap block) := by
  rw [toToml, String.toList_ofList, List.map_append, List.map_flatMap]
  simp only [peerLines_toList]

-- The characters are taken out of the literals first; decoding them by evaluation is slow.
theorem header_lines : (fileHeader.map String.toList).mapM Toml.line = some (List.replicate 6 .blank) ∧
    ∀ l ∈ fileHeader.map String.toList, '\n' ∉ l ∧ Toml.backslash ∉ l := by
  simp only [fileHeader, List.map_cons, List.map_nil]
  repeat rw [String.toList_ofList]
  decide

/-- When everything in them stands for itself, the entries of the file are the peers'. -/
theorem loadFilePeers_plain {peers : List Peer} (plain : ∀ peer ∈ peers, ∀ t ∈ peer.texts, Toml.Plain t.toList) :
    loadFilePeers (some (toToml peers)) = peers.filterMap fun peer => peer.asFile.check := by
  have single : ∀ l ∈ fileHeader.map String.toList ++ peers.flatMap block, '\n' ∉ l := by
    intro l mem
    rcases List.mem_append.mp mem with header | entry
    · exact (header_lines.2 l header).1
    · obtain ⟨peer, here, inside⟩ := List.mem_flatMap.mp entry
      rcases List.mem_cons.mp inside with rfl | inside
      · decide
      rcases List.mem_append.mp inside with pair | last
      · obtain ⟨p, at_, rfl⟩ := List.mem_map.mp pair
        obtain ⟨bare, value⟩ := Peer.pairs_plain (plain peer here) p at_
        exact Toml.bareWritten_single bare value
      · obtain rfl := List.mem_singleton.mp last
        simp
  have block_ : ∀ peer ∈ peers, (block peer).mapM Toml.line =
      some (.array "peers" :: (peer.pairs.map (fun p => .pair p.1 p.2) ++ [.blank])) := by
    intro peer here
    have array : Toml.line "[[peers]]".toList = some (.array "peers") := by decide
    have pairs : (peer.pairs.map Toml.bareWritten).mapM Toml.line = some (peer.pairs.map fun p => .pair p.1 p.2) := by
      rw [List.mapM_map, Traverse.mapM_eq_some_iff, List.forall₂_map_right_iff, List.forall₂_same]
      exact fun p mem => Toml.line_bareWritten (Peer.pairs_plain (plain peer here) p mem).1
        (Peer.pairs_plain (plain peer here) p mem).2
    have blank : [([] : List Char)].mapM Toml.line = some [.blank] := rfl
    rw [block, List.mapM_cons, array, List.mapM_append, pairs, blank]
    rfl
  have doc := Toml.document_arrays "peers" (peers.map Peer.pairs) 6 (by
    intro qs mem
    obtain ⟨peer, -, rfl⟩ := List.mem_map.mp mem
    exact peer.pairs_nodup)
  have entries : (peers.map Peer.pairs).mapM FilePeer.ofTable = some (peers.map Peer.asFile) := by
    rw [List.mapM_map, Traverse.mapM_eq_some_iff, List.forall₂_map_right_iff, List.forall₂_same]
    exact fun peer _ => peer.ofTable_pairs
  rw [List.flatMap_map] at doc
  simp only [loadFilePeers, toToml_toList]
  rw [Toml.document_unlines single, List.mapM_append, header_lines.1, Traverse.mapM_flatMap block_]
  simp only [Option.bind_eq_bind, Option.bind_some, Option.pure_def, List.append_assoc]
  rw [doc, Option.bind_some]
  cases peers with
  | nil => rfl
  | cons peer rest =>
      have read : filePeers [("peers", .array ((peer :: rest).map Peer.pairs))] = some ((peer :: rest).map Peer.asFile) := by
        rw [← entries]
        rfl
      simp only [List.map_cons, List.isEmpty_cons, Bool.false_eq_true, if_false] at read ⊢
      rw [read]
      simp only [← List.map_cons, List.filterMap_map, Function.comp_def]

/-! ## What cannot come back -/

/-- A line of the file is one of the lines that were put in it, or a part of one. -/
theorem mem_splitOn_unlines {chunks : List (List Char)} {l : List Char} (mem : l ∈ (Toml.unlines chunks).splitOn '\n') :
    l = [] ∨ ∃ chunk ∈ chunks, l ∈ chunk.splitOn '\n' := by
  induction chunks with
  | nil => exact .inl (by simpa [Toml.unlines] using mem)
  | cons chunk chunks ih =>
      have step : Toml.unlines (chunk :: chunks) = chunk ++ '\n' :: Toml.unlines chunks := by simp [Toml.unlines]
      rw [step, List.splitOn_append_cons_self, List.mem_append] at mem
      rcases mem with here | later
      · exact .inr ⟨chunk, by simp, here⟩
      · rcases ih later with blank | ⟨c, inside, at_⟩
        · exact .inl blank
        · exact .inr ⟨c, List.mem_cons_of_mem _ inside, at_⟩

theorem prefix_solid {name : String} (valid : validateNamespace name = .ok ()) : ',' ∉ name.toList ∧ '\n' ∉ name.toList :=
  ⟨fun mem => (not_reserved (solid_of_validateNamespace valid _ mem)).2.1 rfl, fun mem =>
    absurd (not_reserved (solid_of_validateNamespace valid _ mem)).1 (by decide)⟩

/-- The line of a list of subtrees. -/
def namesLine (names : List String) : List Char :=
  ['n', 'a', 'm', 'e', 's', 'p', 'a', 'c', 'e', 's', ' ', '=', ' ', '['] ++
    ([',', ' '].intercalate ((names.map String.toList).map Toml.quoted) ++ [']'])

theorem namesWritten (names : List String) :
    Toml.bareWritten ("namespaces", .array (names.map .str)) = namesLine names := by
  simp [Toml.bareWritten, Toml.Value.written, Toml.Scalar.written, namesLine, Function.comp_def]

theorem line_of_names {names : List String} (valid : ∀ name ∈ names, validateNamespace name = .ok ()) {l : List Char}
    (part : l ∈ (namesLine names).splitOn '\n') : namesLine names = l := by
  have single : '\n' ∉ namesLine names := fun mem => by
    rcases List.mem_append.mp mem with front | mem
    · exact absurd front (by decide)
    rcases List.mem_append.mp mem with inside | last
    · rcases Toml.mem_intercalate inside with sep | ⟨_, quoted_, at_⟩
      · exact absurd sep (by decide)
      · simp only [List.map_map, List.mem_map, Function.comp_apply] at quoted_
        obtain ⟨name, here, rfl⟩ := quoted_
        have := (prefix_solid (valid name here)).2
        simp [Toml.quoted, Toml.quoteMark, this] at at_
    · exact absurd last (by decide)
  rw [List.splitOn_eq_singleton single] at part
  exact (List.mem_singleton.mp part).symm

theorem key_of_names {names : List String} {k : String} {v : Toml.Value}
    (read : Toml.line (namesLine names) = some (.pair k v)) : k = "namespaces" := by
  have bare : Toml.Bare "namespaces" := by constructor <;> decide
  rw [← namesWritten, Toml.bareWritten, Toml.line_bare bare, Toml.ending] at read
  obtain ⟨v', -, read⟩ := Option.bind_eq_some_iff.mp read
  split_ifs at read
  obtain ⟨rfl, -⟩ := Toml.Line.pair.inj (Option.some.inj read)
  exact String.ofList_toList

/-- What is decoded from a line of the file and does not stand for itself is shorter than a text
with a backslash in it that was written to the file. -/
theorem spelled_shorter {peers : List Peer} (fit : ∀ peer ∈ peers, peer.Fit) {l : List Char}
    (mem : l ∈ (toToml peers).toList.splitOn '\n') {k : String} {v : Toml.Value} (read : Toml.line l = some (.pair k v))
    {t : String} (here : t ∈ v.texts) (odd : ¬ Toml.Plain t.toList) (comma : k = "namespaces" → ',' ∉ t.toList) :
    ∃ peer ∈ peers, ∃ text ∈ peer.texts, Toml.backslash ∈ text.toList ∧ t.toList.length < text.toList.length := by
  obtain ⟨body, inside, unquoted⟩ := Toml.line_texts read here
  have slash : Toml.backslash ∈ body := by
    by_contra straight
    obtain ⟨same, plain⟩ := Toml.plain_of_unquote unquoted straight
    exact odd (same ▸ plain)
  have shorter : t.toList.length < body.length := by
    simpa using (Toml.unquote_shortens (p := fun _ => true) (fun _ _ => rfl) unquoted).2 slash
  have among : ∀ {cs : List Char}, Toml.quoted body <:+: cs → Toml.backslash ∈ cs := fun inside =>
    inside.subset (by simp [Toml.quoted, slash])
  rw [toToml_toList] at mem
  rcases mem_splitOn_unlines mem with rfl | ⟨chunk, at_, part⟩
  · exact absurd (among inside) (by simp)
  have whole : Toml.quoted body <:+: chunk := inside.trans (infix_of_mem_splitOn part)
  rcases List.mem_append.mp at_ with header | entry
  · exact absurd (among whole) (header_lines.2 chunk header).2
  obtain ⟨peer, member, at_⟩ := List.mem_flatMap.mp entry
  have apart : Toml.backslash ≠ Toml.quoteMark := by decide
  -- A URL and a key each stand alone between the quotes of their line.
  have alone : ∀ (front : List Char) (text : String), text ∈ peer.texts → Toml.quoteMark ∉ front → Toml.backslash ∉ front →
      chunk = front ++ (Toml.quoted text.toList ++ []) →
      ∃ peer ∈ peers, ∃ text ∈ peer.texts, Toml.backslash ∈ text.toList ∧ t.toList.length < text.toList.length := by
    intro front text one before off same
    rw [same] at whole
    have long := Toml.length_le_of_framed whole before (by simp)
    have has := among whole
    refine ⟨peer, member, text, one, ?_, by omega⟩
    simpa [Toml.quoted, off, apart] using has
  rcases List.mem_cons.mp at_ with rfl | at_
  · exact absurd (among whole) (by decide)
  rcases List.mem_append.mp at_ with pair | last
  · obtain ⟨p, one, rfl⟩ := List.mem_map.mp pair
    simp only [Peer.pairs, List.mem_append, List.mem_cons, List.not_mem_nil, or_false] at one
    rcases one with ((rfl | rfl) | names) | off
    · exact alone ['u', 'r', 'l', ' ', '=', ' '] peer.url (by simp [Peer.texts]) (by decide) (by decide)
        (by simp [Toml.bareWritten, Toml.Value.written, Toml.Scalar.written])
    · exact alone ['k', 'e', 'y', ' ', '=', ' '] peer.key (by simp [Peer.texts]) (by decide) (by decide)
        (by simp [Toml.bareWritten, Toml.Value.written, Toml.Scalar.written])
    · split_ifs at names
      · cases names
      · obtain rfl := List.mem_singleton.mp names
        have valid := (fit peer member).valid
        rw [namesWritten] at whole part
        obtain rfl := line_of_names valid part
        obtain rfl := key_of_names read
        have off : ',' ∉ body := fun at_ => by
          have scanned := Toml.unquote_eq_some.mp unquoted
          rcases Toml.scan_keeps (d := ',') (by decide) scanned (List.mem_append_left _ at_) with kept | none
          · exact comma rfl kept
          · cases none
        obtain ⟨_, part_, has, long⟩ := Toml.length_le_of_listed [']'] whole (by decide) (by decide) off (by decide) slash
        obtain ⟨name, one, rfl⟩ := List.mem_map.mp part_
        exact ⟨peer, member, name, by simp [Peer.texts, one], has, by omega⟩
    · split_ifs at off
      · cases off
      · obtain rfl := List.mem_singleton.mp off
        exact absurd (among whole) (by decide)
  · obtain rfl := List.mem_singleton.mp last
    exact absurd (among whole) (by simp)

theorem ofTable_eq {fields : List (String × Toml.Value)} {entry : FilePeer} (read : FilePeer.ofTable fields = some entry) :
    ("url", .scalar (.str entry.url)) ∈ fields ∧ ("key", .scalar (.str entry.key)) ∈ fields ∧
      ∀ list, entry.namespaces = some list → ∃ items, ("namespaces", .array items) ∈ fields ∧
        ∀ raw ∈ list, .str raw ∈ items := by
  rw [FilePeer.ofTable.eq_def] at read
  split at read
  · rename_i url key namespaces enabled url_ key_ namespaces_ enabled_
    obtain rfl := Option.some.inj read
    refine ⟨Toml.mem_of_lookup url_, Toml.mem_of_lookup key_, fun list given => ?_⟩
    obtain rfl : namespaces = some list := given
    rw [textList.eq_def] at namespaces_
    split at namespaces_
    · cases namespaces_
    · rename_i items found
      obtain ⟨texts, each, same⟩ := Option.map_eq_some_iff.mp namespaces_
      obtain rfl := Option.some.inj same
      refine ⟨items, Toml.mem_of_lookup found, fun raw mem => ?_⟩
      obtain ⟨item, inside, is_text⟩ := Traverse.exists_left (Traverse.mapM_eq_some_iff.mp each) mem
      cases item with
      | str t =>
          obtain rfl : t = raw := Option.some.inj is_text
          exact inside
      | int n => cases is_text
      | bool b => cases is_text
    · cases namespaces_
  · cases read

/-- A peer that is loaded stands in a table of the file. -/
theorem loaded_eq {text : String} {peer : Peer} (mem : peer ∈ loadFilePeers (some text)) :
    ∃ entry : FilePeer, entry.check = some peer ∧ ∃ fields, FilePeer.ofTable fields = some entry ∧
      ∀ p ∈ fields, ∃ l ∈ text.toList.splitOn '\n', Toml.line l = some (.pair p.1 p.2) := by
  simp only [loadFilePeers] at mem
  split at mem
  · cases mem
  · rename_i entries read
    obtain ⟨entry, here, checked⟩ := List.mem_filterMap.mp mem
    obtain ⟨doc, document, read⟩ := Option.bind_eq_some_iff.mp read
    rw [filePeers.eq_def] at read
    split at read
    · obtain rfl := Option.some.inj read
      cases here
    · rename_i tables found
      obtain ⟨fields, inside, table⟩ := Traverse.exists_left (Traverse.mapM_eq_some_iff.mp read) here
      exact ⟨entry, checked, fields, table, fun p pair => Toml.document_pair document found inside pair⟩
    · obtain rfl := Option.some.inj read
      cases here
    · cases read

/-- Trimming keeps what stands for itself, and lengthens nothing. -/
theorem plain_of_inside {cs ds : List Char} (inside : cs <:+: ds) (plain : Toml.Plain ds) : Toml.Plain cs :=
  fun c mem => plain c (inside.subset mem)

theorem trim_inside (s : String) : (trim s).toList <:+: s.toList := by
  simpa [trim] using trimWhere_inside isWhitespace s.toList

theorem trimSlashes_inside (s : String) : (trimSlashes s).toList <:+: s.toList := by
  simpa [trimSlashes] using trimWhere_inside (· = '/') s.toList

theorem tidyUrl_inside (url : String) : (tidyUrl url).toList <:+: url.toList := by
  have ends_ : (trimEndSlashes (trim url)).toList <+: (trim url).toList := by
    simpa [trimEndSlashes] using List.rdropWhile_prefix _ _
  exact ends_.isInfix.trans (trim_inside url)

/-- If the peers come back, a text in them that does not stand for itself is spelled by a longer one. -/
theorem longer_of_same {peers : List Peer} (fit : ∀ peer ∈ peers, peer.Fit)
    (same : loadFilePeers (some (toToml peers)) = peers) {peer : Peer} (mem : peer ∈ peers) {t : String}
    (here : t ∈ peer.texts) (odd : ¬ Toml.Plain t.toList) :
    ∃ peer' ∈ peers, ∃ t' ∈ peer'.texts, ¬ Toml.Plain t'.toList ∧ t.toList.length < t'.toList.length := by
  -- The text read from the file is at least as long as what was made of it.
  have through : ∀ {p : String × Toml.Value} {raw : String}, (∃ l ∈ (toToml peers).toList.splitOn '\n',
      Toml.line l = some (.pair p.1 p.2)) → raw ∈ p.2.texts → t.toList <:+: raw.toList →
      (p.1 = "namespaces" → ',' ∉ raw.toList) →
      ∃ peer' ∈ peers, ∃ t' ∈ peer'.texts, ¬ Toml.Plain t'.toList ∧ t.toList.length < t'.toList.length := by
    rintro p raw ⟨l, at_, read⟩ inside trimmed comma
    have raw_ : ¬ Toml.Plain raw.toList := fun plain => odd (plain_of_inside trimmed plain)
    obtain ⟨peer', member, t', one, slash, longer⟩ := spelled_shorter fit at_ read inside raw_ comma
    exact ⟨peer', member, t', one, fun plain => (plain _ slash).2.1 rfl, by have := trimmed.length_le; omega⟩
  obtain ⟨entry, checked, fields, table, lines⟩ := loaded_eq (same.symm ▸ mem)
  obtain ⟨url, key, stores⟩ := Peer.tidy_of_checked checked
  obtain ⟨url_, key_, names_⟩ := ofTable_eq table
  simp only [Peer.texts, List.mem_cons] at here
  rcases here with rfl | rfl | name
  · exact through (lines _ url_) (by simp [Toml.Value.texts, Toml.Scalar.texts]) (url ▸ tidyUrl_inside entry.url)
      fun named => absurd named (by simp)
  · exact through (lines _ key_) (by simp [Toml.Value.texts, Toml.Scalar.texts]) (key ▸ trim_inside entry.key)
      fun named => absurd named (by simp)
  · cases given : entry.namespaces with
    | none =>
        rw [given, Option.elim_none] at stores
        rw [stores] at name
        cases name
    | some list =>
        rw [given, Option.elim_some] at stores
        obtain ⟨items, names, each⟩ := names_ list given
        rcases StoragePolicy.fromPrefixes_cases [] list with all | ⟨more, tidied, from_, -⟩
        · rw [stores, all] at name
          cases name
        · have valid := (fit peer mem).valid t name
          rw [stores, tidied] at name
          obtain ⟨-, raw, inside, made⟩ := from_ t (by simpa using name)
          refine @through _ raw (lines _ names) ?_ ?_ fun _ comma => ?_
          · exact List.mem_flatMap.mpr ⟨_, each raw inside, by simp [Toml.Scalar.texts]⟩
          · rw [made]
            exact (trimSlashes_inside _).trans (trim_inside raw)
          · -- Trimming takes no comma away, and a subtree that passes has none.
            refine (prefix_solid valid).1 ?_
            rw [made]
            simp only [trimSlashes, trim, String.toList_ofList]
            exact mem_trimWhere (mem_trimWhere comma (by decide)) (by decide)

/-- Peers that come back hold nothing that means anything to the file. -/
theorem plain_of_same {peers : List Peer} (fit : ∀ peer ∈ peers, peer.Fit)
    (same : loadFilePeers (some (toToml peers)) = peers) : ∀ peer ∈ peers, ∀ t ∈ peer.texts, Toml.Plain t.toList := by
  by_contra some_
  push Not at some_
  obtain ⟨peer, mem, t, here, odd⟩ := some_
  -- One such text spells the next, so there are ever longer ones.
  have unbounded : ∀ n, ∃ peer ∈ peers, ∃ t ∈ peer.texts, ¬ Toml.Plain t.toList ∧ n ≤ t.toList.length := by
    intro n
    induction n with
    | zero => exact ⟨peer, mem, t, here, odd, Nat.zero_le _⟩
    | succ n ih =>
        obtain ⟨peer, mem, t, here, odd, long⟩ := ih
        obtain ⟨peer', mem', t', here', odd', longer⟩ := longer_of_same fit same mem here odd
        exact ⟨peer', mem', t', here', odd', by omega⟩
  let all := ((peers.flatMap Peer.texts).map String.toList).flatten
  obtain ⟨peer, mem, t, here, -, long⟩ := unbounded (all.length + 1)
  have bound : t.toList.length ≤ all.length :=
    (List.sublist_flatten_of_mem (List.mem_map_of_mem (List.mem_flatMap.mpr ⟨peer, mem, here⟩))).length_le
  omega

end PeersFile

/-- A list whose items are all kept is one of which each item is kept. -/
theorem kept_of_filterMap {α : Type} {f : α → Option α} {l : List α} (same : l.filterMap f = l) : ∀ x ∈ l, f x = some x := by
  induction l with
  | nil => exact fun x mem => by cases mem
  | cons y l ih =>
      cases here : f y with
      | none =>
          rw [List.filterMap_cons_none here] at same
          have short := List.length_filterMap_le f l
          rw [same] at short
          exact absurd short (by simp)
      | some z =>
          rw [List.filterMap_cons_some here] at same
          obtain ⟨rfl, rest⟩ := List.cons.inj same
          intro x mem
          rcases List.mem_cons.mp mem with rfl | later
          · exact here
          · exact ih rest x later

/-- Of any peers that were accepted, the ones written to the file come back in order and as they
were exactly when nothing in them means anything to TOML and no address is tidied again. -/
theorem peers_come_back_iff (settings : PeerSettings) (peers : List Peer) (accepted : settings.Accepted peers) :
    loadFilePeers (some (PeersFile.toToml (settings.editablePeers peers))) = settings.editablePeers peers ↔
      ∀ peer ∈ settings.editablePeers peers, peer.Writable := by
  have fit := accepted.fit
  generalize settings.editablePeers peers = saved at fit ⊢
  constructor
  · intro same
    have plain := PeersFile.plain_of_same fit same
    rw [PeersFile.loadFilePeers_plain plain] at same
    intro peer mem
    exact ⟨plain peer mem, (Peer.tidy_of_checked (kept_of_filterMap same peer mem)).1.symm⟩
  · intro writable
    rw [PeersFile.loadFilePeers_plain fun peer mem => (writable peer mem).plain]
    have each : ∀ peer ∈ saved, peer.asFile.check = some peer := fun peer mem =>
      Peer.checked_again (fit peer mem) (writable peer mem).tidy
    rw [List.filterMap_congr each, List.filterMap_some]

/-- A server with no peers in its configuration, and a full mirror it is told about. -/
def outpost : PeerSettings := ⟨"0.0.0.0:9999", []⟩

def mirror (key : String) : Peer := ⟨"http://a:1", key, .storeEverything, true⟩

theorem peers_come_back_outpost : loadFilePeers (some (PeersFile.toToml (outpost.editablePeers [mirror "k"]))) =
    outpost.editablePeers [mirror "k"] := by
  refine (peers_come_back_iff outpost [mirror "k"] ?_).mpr ?_
  · exact @PeerSettings.Accepted.add outpost [] " http://a:1/" "k" none true (mirror "k") _ (.configured (by simp))
      (by decide) (by decide)
  · have saved : outpost.editablePeers [mirror "k"] = [mirror "k"] := by decide
    rw [saved]
    intro peer mem
    obtain rfl := List.mem_singleton.mp mem
    exact ⟨by decide, by decide⟩

/-- A quote in the key of a peer loses the peers. -/
theorem quoted_mirror_lost : outpost.Accepted [mirror "k\""] ∧
    loadFilePeers (some (PeersFile.toToml (outpost.editablePeers [mirror "k\""]))) ≠ outpost.editablePeers [mirror "k\""] := by
  have accepted : outpost.Accepted [mirror "k\""] :=
    @PeerSettings.Accepted.add outpost [] "http://a:1" "k\"" none true (mirror "k\"") _ (.configured (by simp))
      (by decide) (by decide)
  refine ⟨accepted, fun same => ?_⟩
  have plain := PeersFile.plain_of_same accepted.fit same (mirror "k\"") (by decide) "k\"" (by decide)
  exact absurd plain (by decide)

end SightingDB
