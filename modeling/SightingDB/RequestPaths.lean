import SightingDB.Text
import SightingDB.Lib.Percent

/-!
The paths on which a server reads a peer's copy of a namespace, and what the peer's read
handler makes of them. A name is put into the path as it stands; the layer below takes some
characters only, ends the path at a question mark or a number sign and decodes it once.
-/
namespace SightingDB

/-- The path `pull_namespace` and `rebuild_consensus` ask for a page on. -/
def mergePath (name : String) (offset : Nat) : String :=
  "/r/" ++ name ++ "?for_merge&offset=" ++ toString offset ++ "&limit=500"

/-- The path `behind_on` asks for a count on. -/
def countPath (name : String) : String := "/r/" ++ name ++ "?count"

def upperHex (n : Nat) : Char := (Nat.digitChar n).toUpper

/-- One byte of a path segment. -/
def urlByte (byte : UInt8) : List Char :=
  let c := Char.ofNat byte.toNat
  if c.isAlphanum || c = '-' || c = '_' || c = '.' || c = '~' then [c]
  else ['%', upperHex (byte.toNat / 16), upperHex (byte.toNat % 16)]

/-- Percent-encode what has to go in a path segment. -/
def urlencodingOf (value : String) : String := String.ofList ((Percent.bytes value).flatMap urlByte)

/-! ## The layer below -/

/-- What ends the path of a request. -/
def endsPath (c : Char) : Bool := c = '?' || c = '#'

/-- Bytes shown as text. -/
abbrev Shown := List UInt8 → String

/-- What is written in a path that is encoded, and what stands in the queries built here. -/
def plainInPath (c : Char) : Bool := c.isAlphanum || c ∈ ['-', '_', '.', '~', '%', '/']

def plainInQuery (c : Char) : Bool := c.isAlphanum || c ∈ ['_', '=', '&']

/-- The client that sends a request, which takes some characters only and no more than so many
bytes behind the address of a peer, and the server that shows the decoded bytes of one. -/
structure HttpLayer where
  shown : Shown
  inPath : Char → Bool
  inQuery : Char → Bool
  longest : Nat
  /-- What the client says of an address it does not take. -/
  invalidUri : String
  shows : Percent.Shows shown
  paths : ∀ c, plainInPath c = true → inPath c = true
  queries : ∀ c, plainInQuery c = true → inQuery c = true

/-- Whether a path and query is not too long to be sent. -/
def HttpLayer.Short (http : HttpLayer) (uri : String) : Prop := (Percent.bytes uri).length ≤ http.longest

instance (http : HttpLayer) (uri : String) : Decidable (http.Short uri) := Nat.decLe _ _

/-- The characters that need no escape, and some 65,000 bytes of them. -/
def HttpLayer.strict : HttpLayer where
  shown := Percent.lenient
  inPath c := plainInPath c || c ∈ "!$&()*+,;=:@".toList
  inQuery c := plainInPath c || c ∈ "!$&()*+,;=:@?".toList
  longest := 65000
  invalidUri := "invalid uri character"
  shows := Percent.shows_lenient
  paths c plain := by simp [plain]
  queries c plain := by
    simp only [plainInQuery, Bool.or_eq_true] at plain
    rcases plain with letter | sign
    · simp [plainInPath, letter]
    · have sign : c = '_' ∨ c = '=' ∨ c = '&' := by simpa using sign
      rcases sign with rfl | rfl | rfl <;> decide

structure RequestUri where
  path : String
  query : String
  deriving DecidableEq

/-- Where a path ends, and what is asked behind it. -/
def RequestUri.split (uri : String) : RequestUri where
  path := String.ofList (uri.toList.takeWhile fun c => !endsPath c)
  query := match uri.toList.dropWhile fun c => !endsPath c with
    | '?' :: rest => String.ofList (rest.takeWhile (· ≠ '#'))
    | _ => ""

/-- The request for a path and query; the client sends none that it cannot parse. -/
def RequestUri.parse (http : HttpLayer) (uri : String) : Option RequestUri :=
  let target := split uri
  if http.Short uri ∧ target.path.toList.all http.inPath = true ∧ target.query.toList.all http.inQuery = true then some target
  else none

/-- One name or value of a query. -/
def formDecode (shown : Shown) (text : String) : String :=
  shown (Percent.decode ((Percent.bytes text).map fun b => if b = 43 then 32 else b))

def queryPair (shown : Shown) (part : String) : String × String :=
  match splitOnce '=' part with
  | some (name, value) => (formDecode shown name, formDecode shown value)
  | none => (formDecode shown part, "")

def queryPairs (shown : Shown) (query : String) : List (String × String) :=
  ((splitOnChar '&' query).filter (· ≠ "")).map (queryPair shown)

/-! ## The read handler -/

structure ReadQuery where
  val : Option String
  noshadow : Option String
  count : Option String
  forMerge : Option String
  offset : Option Nat
  limit : Option Nat
  deriving DecidableEq

namespace ReadQuery

/-- A field of a query, given at most once. -/
def field (pairs : List (String × String)) (name : String) : Option (Option String) :=
  match pairs.filter (·.1 = name) with
  | [] => some none
  | [pair] => some (some pair.2)
  | _ => none

def numberField (pairs : List (String × String)) (name : String) : Option (Option Nat) :=
  match field pairs name with
  | none => none
  | some none => some none
  | some (some text) => (parseU64 text).map some

def ofPairs (pairs : List (String × String)) : Option ReadQuery := do
  let val ← field pairs "val"
  let noshadow ← field pairs "noshadow"
  let count ← field pairs "count"
  let forMerge ← field pairs "for_merge"
  let offset ← numberField pairs "offset"
  let limit ← numberField pairs "limit"
  return ⟨val, noshadow, count, forMerge, offset, limit⟩

/-- `limit()`. -/
def pageLimit (query : ReadQuery) : Nat := max 1 (min (query.limit.getD 500) 5000)

end ReadQuery

/-- What a read asks of the database. -/
inductive ReadAsk
  | both
  | count (name : String)
  | page (name : String) (offset limit : Nat)
  | payload (name value : String)
  | value (name value : String) (withShadow : Bool)
  | listing (name : String)
  deriving DecidableEq

/-- `do_read`, once the key may read the namespace. -/
def doRead (name : String) (query : ReadQuery) : ReadAsk :=
  if query.count.isSome then
    if query.val.isSome then .both else .count name
  else if query.forMerge.isSome then
    match query.val with
    | none => .page name (query.offset.getD 0) query.pageLimit
    | some value => .payload name value
  else match query.val with
    | some value => .value name value query.noshadow.isNone
    | none => .listing name

/-- `read`: the route `/r/{namespace:.*}` and a query that can be read. -/
def RequestUri.ask (shown : Shown) (target : RequestUri) : Option ReadAsk :=
  match stripStart target.path "/r/" with
  | none => none
  | some tail => (ReadQuery.ofPairs (queryPairs shown target.query)).map
      (doRead (shown (Percent.decode (Percent.bytes tail))))

/-- What the peer is asked for with a path and query, if it is asked and understands. -/
def readRequest (http : HttpLayer) (uri : String) : Option ReadAsk :=
  (RequestUri.parse http uri).bind (·.ask http.shown)

/-! ## What is read -/

section Reading

variable {shown : Shown} {http : HttpLayer} {name query : String} {offset : Nat}

theorem stripStart_append (start rest : String) : stripStart (start ++ rest) start = some rest := by
  have front : startsWith (start ++ rest) start = true := by simp [startsWith]
  rw [stripStart, if_pos front]
  simp

/-- A name that the client lets stand in a path, and that holds nothing the layer below takes for
its own. -/
structure PathSafe (http : HttpLayer) (name : String) : Prop where
  admitted : ∀ c ∈ name.toList, http.inPath c = true
  solid : ∀ c ∈ name.toList, endsPath c = false
  unescaped : ¬ Percent.Escaped (Percent.bytes name)

instance (http : HttpLayer) (name : String) : Decidable (PathSafe http name) :=
  decidable_of_iff ((∀ c ∈ name.toList, http.inPath c = true) ∧ (∀ c ∈ name.toList, endsPath c = false) ∧
    ¬ Percent.Escaped (Percent.bytes name)) ⟨fun ⟨a, b, c⟩ => ⟨a, b, c⟩, fun ⟨a, b, c⟩ => ⟨a, b, c⟩⟩

theorem route_solid {cs : List Char} (solid : ∀ c ∈ cs, endsPath c = false) :
    ∀ c ∈ "/r/".toList ++ cs, (!endsPath c) = true := by
  intro c mem
  rcases List.mem_append.mp mem with route | inside
  · exact (by decide : ∀ c ∈ "/r/".toList, (!endsPath c) = true) c route
  · simp [solid c inside]

theorem split_of_solid (solid : ∀ c ∈ name.toList, endsPath c = false) (unmarked : '#' ∉ query.toList) :
    RequestUri.split ("/r/" ++ name ++ "?" ++ query) = ⟨"/r/" ++ name, query⟩ := by
  have text : ("/r/" ++ name ++ "?" ++ query).toList = ("/r/".toList ++ name.toList) ++ '?' :: query.toList := by simp
  have path : (("/r/".toList ++ name.toList) ++ '?' :: query.toList).takeWhile (fun c => !endsPath c) =
      "/r/".toList ++ name.toList := by
    rw [List.takeWhile_append_of_pos (route_solid solid), List.takeWhile_cons_of_neg (by decide), List.append_nil]
  have rest : (("/r/".toList ++ name.toList) ++ '?' :: query.toList).dropWhile (fun c => !endsPath c) =
      '?' :: query.toList := by
    rw [List.dropWhile_append_of_pos (route_solid solid), List.dropWhile_cons_of_neg (by decide)]
  have all : query.toList.takeWhile (· ≠ '#') = query.toList := by
    rw [List.takeWhile_eq_self_iff]
    intro c mem
    simpa using fun same : c = '#' => unmarked (same ▸ mem)
  rw [RequestUri.split, text, path, rest]
  simp only [all, String.ofList_toList, ← String.toList_append]

/-- A name that ends the path early is cut short. -/
theorem split_cut (cut : ¬ ∀ c ∈ name.toList, endsPath c = false) (rest : String) :
    ∃ front, (RequestUri.split ("/r/" ++ name ++ rest)).path = "/r/" ++ front ∧
      front.toList.countP (fun c => decide (c.toNat < 128)) < name.toList.countP fun c => decide (c.toNat < 128) := by
  have solid : ∀ c ∈ name.toList.takeWhile fun c => !endsPath c, endsPath c = false := by
    intro c mem
    simpa using List.mem_takeWhile_imp mem
  cases left : name.toList.dropWhile fun c => !endsPath c with
  | nil =>
      refine absurd (fun c mem => ?_) cut
      simpa using List.dropWhile_eq_nil_iff.mp left c mem
  | cons c others =>
      have whole : name.toList = (name.toList.takeWhile fun c => !endsPath c) ++ c :: others := by
        rw [← left, List.takeWhile_append_dropWhile]
      have ends : endsPath c = true := by
        have := List.head_dropWhile_not (fun c => !endsPath c) (l := name.toList) (by rw [left]; simp)
        simpa [left] using this
      have ascii : c.toNat < 128 := by
        rcases (by simpa [endsPath] using ends : c = '?' ∨ c = '#') with rfl | rfl <;> decide
      refine ⟨String.ofList (name.toList.takeWhile fun c => !endsPath c), ?_, ?_⟩
      · have text : ("/r/" ++ name ++ rest).toList =
            ("/r/".toList ++ name.toList.takeWhile fun c => !endsPath c) ++ c :: (others ++ rest.toList) := by
          simp only [String.toList_append]
          conv => lhs; rw [whole]
          simp
        rw [RequestUri.split, text]
        simp only
        rw [List.takeWhile_append_of_pos (route_solid solid), List.takeWhile_cons_of_neg (by simp [ends]), List.append_nil]
        rw [String.ofList_append, String.ofList_toList]
      · rw [String.toList_ofList]
        conv => rhs; rw [whole]
        simp [List.countP_append, ascii]

theorem readRequest_eq_some {uri : String} {ask : ReadAsk} : readRequest http uri = some ask ↔
    http.Short uri ∧ (RequestUri.split uri).path.toList.all http.inPath = true ∧
      (RequestUri.split uri).query.toList.all http.inQuery = true ∧ (RequestUri.split uri).ask http.shown = some ask := by
  rw [readRequest, RequestUri.parse]
  split_ifs with sent
  · simp [sent]
  · simp only [Option.bind_none, reduceCtorEq, false_iff]
    exact fun all => sent ⟨all.1, all.2.1, all.2.2.1⟩

/-- Nothing in a text means anything to the decoder of a query. -/
def FormPlain (text : String) : Prop := ∀ b ∈ Percent.bytes text, b ≠ 37 ∧ b ≠ 43

instance (text : String) : Decidable (FormPlain text) := List.decidableBAll _ _

theorem formDecode_plain (shows : Percent.Shows shown) {text : String} (plain : FormPlain text) :
    formDecode shown text = text := by
  have spaces : ((Percent.bytes text).map fun b => if b = 43 then 32 else b) = Percent.bytes text := by
    refine (List.map_congr_left fun b mem => ?_).trans (List.map_id _)
    rw [if_neg (plain b mem).2]
    rfl
  have unescaped : ¬ Percent.Escaped (Percent.bytes text) := by
    rintro ⟨front, high, low, rest, shape, -⟩
    exact (plain 37 (by simp [shape])).1 rfl
  rw [formDecode, spaces, Percent.decode_eq_iff.mpr unescaped, shows.valid]

theorem queryPair_name (shows : Percent.Shows shown) {part : String} (alone : '=' ∉ part.toList) (plain : FormPlain part) :
    queryPair shown part = (part, "") := by
  rw [queryPair, splitOnce_none alone]
  simp only [formDecode_plain shows plain]

theorem queryPair_value (shows : Percent.Shows shown) {name value : String} (alone : '=' ∉ name.toList)
    (plain : FormPlain name) (plain' : FormPlain value) : queryPair shown (name ++ "=" ++ value) = (name, value) := by
  have parted : splitOnce '=' (name ++ "=" ++ value) = some (name, value) := splitOnce_append alone value
  rw [queryPair, parted]
  simp only [formDecode_plain shows plain, formDecode_plain shows plain']

theorem digits_toString (n : Nat) : ∀ c ∈ (toString n).toList, c.isDigit = true := by
  intro c mem
  rw [Nat.toString_eq_repr, Nat.toList_repr] at mem
  exact Nat.isDigit_of_mem_toDigits (by decide) (by decide) mem

theorem toNat_of_isDigit {c : Char} (digit : c.isDigit = true) : 48 ≤ c.toNat ∧ c.toNat ≤ 57 := by
  simp only [Char.isDigit, Bool.and_eq_true, decide_eq_true_eq, ge_iff_le, UInt32.le_iff_toNat_le] at digit
  exact digit

theorem formPlain_toString (n : Nat) : FormPlain (toString n) := by
  have ascii : ∀ c ∈ (toString n).toList, c.toNat < 128 := fun c mem => by
    have := toNat_of_isDigit (digits_toString n c mem)
    omega
  intro b mem
  rw [Percent.bytes_ascii ascii] at mem
  obtain ⟨c, here, rfl⟩ := List.mem_map.mp mem
  have range := toNat_of_isDigit (digits_toString n c here)
  have value : (UInt8.ofNat c.toNat).toNat = c.toNat := by
    rw [UInt8.toNat_ofNat']
    omega
  constructor
  · intro percent
    rw [percent] at value
    simp at value
    omega
  · intro plus
    rw [plus] at value
    simp at value
    omega

theorem parseU64_toString {n : Nat} (fits : n < 2 ^ 64) : parseU64 (toString n) = some n := by
  have digits := digits_toString n
  have text : (toString n).toList = Nat.toDigits 10 n := by rw [Nat.toString_eq_repr, Nat.toList_repr]
  rw [text] at digits
  have back : Nat.ofDigitChars 10 (Nat.toDigits 10 n) 0 = n := Nat.ofDigitChars_ten_toDigits
  rw [parseU64, text]
  cases shape : Nat.toDigits 10 n with
  | nil => exact absurd shape Nat.toDigits_ne_nil
  | cons c more =>
      rw [shape] at digits back
      have unsigned : c ≠ '+' := by
        rintro rfl
        exact absurd (digits '+' (by simp)) (by decide)
      have all : (c :: more).all Char.isDigit = true := List.all_eq_true.mpr digits
      split
      · rename_i rest signed
        exact absurd (List.cons.inj signed).1 unsigned
      · simp only [List.isEmpty_cons, all, Bool.not_true, Bool.or_false, Bool.false_eq_true, if_false, back, if_pos fits]

theorem formPlain_words : FormPlain "for_merge" ∧ FormPlain "offset" ∧ FormPlain "limit" ∧ FormPlain "500" ∧
    FormPlain "count" := by
  decide

/-- The query of a page. -/
theorem queryPairs_page (shows : Percent.Shows shown) (offset : Nat) :
    queryPairs shown ("for_merge&offset=" ++ toString offset ++ "&limit=500") =
      [("for_merge", ""), ("offset", toString offset), ("limit", "500")] := by
  obtain ⟨merge, start, limit, size, -⟩ := formPlain_words
  have free : '&' ∉ ("offset=" ++ toString offset).toList := by
    rw [String.toList_append, List.mem_append]
    rintro (front | digit)
    · exact absurd front (by decide)
    · exact absurd (digits_toString offset '&' digit) (by decide)
  have parts : splitOnChar '&' ("for_merge&offset=" ++ toString offset ++ "&limit=500") =
      ["for_merge", "offset" ++ "=" ++ toString offset, "limit" ++ "=" ++ "500"] := by
    have text : ("for_merge&offset=" ++ toString offset ++ "&limit=500").toList =
        "for_merge".toList ++ '&' :: (("offset=" ++ toString offset).toList ++ '&' :: "limit=500".toList) := by
      simp
    rw [splitOnChar, text, List.splitOn_append_cons_self, List.splitOn_append_cons_self, List.splitOn_eq_singleton free]
    simp only [List.map_append, List.map_cons, List.map_nil, String.ofList_toList]
    rfl
  have kept : (["for_merge", "offset" ++ "=" ++ toString offset, "limit" ++ "=" ++ "500"].filter (· ≠ "")) =
      ["for_merge", "offset" ++ "=" ++ toString offset, "limit" ++ "=" ++ "500"] :=
    List.filter_eq_self.mpr fun part mem => by
      simp only [List.mem_cons, List.not_mem_nil, or_false] at mem
      rcases mem with rfl | rfl | rfl
      · decide
      · simp
      · decide
  rw [queryPairs, parts, kept, List.map_cons, List.map_cons, List.map_cons, List.map_nil,
    queryPair_name shows (by decide) merge, queryPair_value shows (by decide) start (formPlain_toString offset),
    queryPair_value shows (by decide) limit size]

theorem queryPairs_count (shows : Percent.Shows shown) : queryPairs shown "count" = [("count", "")] := by
  have parts : (splitOnChar '&' "count").filter (· ≠ "") = ["count"] := by decide
  rw [queryPairs, parts, List.map_cons, List.map_nil, queryPair_name shows (by decide) formPlain_words.2.2.2.2]

theorem ofPairs_page (fits : offset < 2 ^ 64) :
    ReadQuery.ofPairs [("for_merge", ""), ("offset", toString offset), ("limit", "500")] =
      some ⟨none, none, none, some "", some offset, some 500⟩ := by
  have limit : parseU64 "500" = some 500 := by decide
  have number : parseU64 offset.repr = some offset := parseU64_toString fits
  simp [ReadQuery.ofPairs, ReadQuery.field, ReadQuery.numberField, number, limit]

theorem all_append {a b : String} (p : Char → Bool) : (a ++ b).toList.all p = (a.toList.all p && b.toList.all p) := by
  simp

theorem route_admitted (http : HttpLayer) : "/r/".toList.all http.inPath = true :=
  List.all_eq_true.mpr fun c mem => http.paths c ((by decide : ∀ c ∈ "/r/".toList, plainInPath c = true) c mem)

theorem query_admitted {query : String} (plain : query.toList.all plainInQuery = true) : query.toList.all http.inQuery = true :=
  List.all_eq_true.mpr fun c mem => http.queries c (List.all_eq_true.mp plain c mem)

/-- A request whose path is a name that ends none. -/
theorem readRequest_solid (solid : ∀ c ∈ name.toList, endsPath c = false) (admitted : ∀ c ∈ name.toList, http.inPath c = true)
    (unmarked : '#' ∉ query.toList) (plain : query.toList.all plainInQuery = true)
    (short : http.Short ("/r/" ++ name ++ "?" ++ query)) :
    readRequest http ("/r/" ++ name ++ "?" ++ query) = (ReadQuery.ofPairs (queryPairs http.shown query)).map
      (doRead (http.shown (Percent.decode (Percent.bytes name)))) := by
  have path : ("/r/" ++ name).toList.all http.inPath = true := by
    rw [all_append, route_admitted, Bool.true_and]
    exact List.all_eq_true.mpr admitted
  have target := split_of_solid solid unmarked
  rw [readRequest, RequestUri.parse]
  simp only [target]
  rw [if_pos ⟨short, path, query_admitted plain⟩, Option.bind_some, RequestUri.ask]
  simp only [stripStart_append]

theorem mergePath_eq (name : String) (offset : Nat) :
    mergePath name offset = "/r/" ++ name ++ "?" ++ ("for_merge&offset=" ++ toString offset ++ "&limit=500") := by
  rw [mergePath, ← String.toList_inj]
  simp

theorem countPath_eq (name : String) : countPath name = "/r/" ++ name ++ "?" ++ "count" := by
  rw [countPath, ← String.toList_inj]
  simp

theorem mergeQuery_plain (offset : Nat) : '#' ∉ ("for_merge&offset=" ++ toString offset ++ "&limit=500").toList ∧
    ("for_merge&offset=" ++ toString offset ++ "&limit=500").toList.all plainInQuery = true := by
  constructor
  · rw [String.toList_append, String.toList_append, List.mem_append, List.mem_append]
    rintro ((front | digit) | back)
    · exact absurd front (by decide)
    · exact absurd (digits_toString offset '#' digit) (by decide)
    · exact absurd back (by decide)
  · have digits : (toString offset).toList.all plainInQuery = true :=
      List.all_eq_true.mpr fun c mem => by simp [plainInQuery, Char.isAlphanum, digits_toString offset c mem]
    rw [all_append, all_append, digits]
    decide

/-- What a page of a name that does not end the path is asked of. -/
theorem readRequest_page (solid : ∀ c ∈ name.toList, endsPath c = false) (admitted : ∀ c ∈ name.toList, http.inPath c = true)
    (short : http.Short (mergePath name offset)) (fits : offset < 2 ^ 64) :
    readRequest http (mergePath name offset) = some (.page (http.shown (Percent.decode (Percent.bytes name))) offset 500) := by
  obtain ⟨unmarked, plain⟩ := mergeQuery_plain offset
  rw [mergePath_eq] at short ⊢
  rw [readRequest_solid solid admitted unmarked plain short, queryPairs_page http.shows, ofPairs_page fits, Option.map_some]
  rfl

theorem readRequest_count (solid : ∀ c ∈ name.toList, endsPath c = false) (admitted : ∀ c ∈ name.toList, http.inPath c = true)
    (short : http.Short (countPath name)) :
    readRequest http (countPath name) = some (.count (http.shown (Percent.decode (Percent.bytes name)))) := by
  rw [countPath_eq] at short ⊢
  rw [readRequest_solid solid admitted (by decide) (by decide) short, queryPairs_count http.shows]
  rfl

/-- The namespace a read is about. -/
def ReadAsk.about : ReadAsk → Option String
  | .both => none
  | .count name | .page name _ _ | .payload name _ | .value name _ _ | .listing name => some name

theorem doRead_about {read : ReadQuery} {about : String} (asked : (doRead name read).about = some about) : about = name := by
  rw [doRead] at asked
  split_ifs at asked
  · cases asked
  · exact (Option.some.inj asked).symm
  · split at asked <;> exact (Option.some.inj asked).symm
  · split at asked <;> exact (Option.some.inj asked).symm

/-- Where a request that is built for a name is about that name, the name is safe. -/
theorem pathSafe_of_about {ask : ReadAsk} (unmarked : '#' ∉ query.toList)
    (asked : readRequest http ("/r/" ++ name ++ "?" ++ query) = some ask) (about : ask.about = some name) : PathSafe http name := by
  obtain ⟨-, path, -, target⟩ := readRequest_eq_some.mp asked
  by_cases solid : ∀ c ∈ name.toList, endsPath c = false
  · rw [split_of_solid solid unmarked] at path target
    rw [RequestUri.ask] at target
    simp only [stripStart_append] at target
    obtain ⟨read, -, rfl⟩ := Option.map_eq_some_iff.mp target
    rw [all_append, Bool.and_eq_true] at path
    exact ⟨List.all_eq_true.mp path.2, solid, http.shows.decoded_iff.mp (doRead_about about).symm⟩
  · exfalso
    have whole : "/r/" ++ name ++ "?" ++ query = "/r/" ++ name ++ ("?" ++ query) := by
      rw [← String.toList_inj]
      simp
    obtain ⟨front, cut, fewer⟩ := split_cut solid ("?" ++ query)
    rw [whole, RequestUri.ask, cut, stripStart_append] at target
    obtain ⟨read, -, rfl⟩ := Option.map_eq_some_iff.mp target
    exact http.shows.decoded_ne fewer (doRead_about about).symm

/-- For every name and offset: the peer's handler is asked, by the requests that are built for a
name, for a page, or the count, of that very namespace, exactly when all in the name may stand in
a path, nothing in it ends one, it holds no escape, and the whole is not too long to be sent. -/
theorem readRequest_iff (http : HttpLayer) (name : String) (fits : offset < 2 ^ 64) :
    (readRequest http (mergePath name offset) = some (.page name offset 500) ↔
      PathSafe http name ∧ http.Short (mergePath name offset)) ∧
    (readRequest http (countPath name) = some (.count name) ↔ PathSafe http name ∧ http.Short (countPath name)) := by
  have same (safe : PathSafe http name) : http.shown (Percent.decode (Percent.bytes name)) = name :=
    http.shows.decoded_iff.mpr safe.unescaped
  constructor
  · constructor
    · intro asked
      refine ⟨?_, (readRequest_eq_some.mp asked).1⟩
      rw [mergePath_eq] at asked
      exact pathSafe_of_about (mergeQuery_plain offset).1 asked rfl
    · rintro ⟨safe, short⟩
      rw [readRequest_page safe.solid safe.admitted short fits, same safe]
  · constructor
    · intro asked
      refine ⟨?_, (readRequest_eq_some.mp asked).1⟩
      rw [countPath_eq] at asked
      exact pathSafe_of_about (by decide) asked rfl
    · rintro ⟨safe, short⟩
      rw [readRequest_count safe.solid safe.admitted short, same safe]

/-- A plain name is asked for; one with a space or a letter of another script is not. -/
theorem readRequest_iff_feeds :
    readRequest .strict (mergePath "feeds/ips" 0) = some (.page "feeds/ips" 0 500) ∧
    readRequest .strict (countPath "mes flux") ≠ some (.count "mes flux") ∧
    readRequest .strict (mergePath "é" 500) ≠ some (.page "é" 500 500) := by
  refine ⟨(@readRequest_iff 0 .strict "feeds/ips" (by decide)).1.mpr ⟨by decide, by decide⟩, ?_, ?_⟩
  · rw [Ne, (@readRequest_iff 0 .strict "mes flux" (by decide)).2]
    exact fun safe => absurd (safe.1.admitted ' ' (by decide)) (by decide)
  · rw [Ne, (@readRequest_iff 500 .strict "é" (by decide)).1]
    exact fun safe => absurd (safe.1.admitted 'é' (by decide)) (by decide)

/-- A page of one namespace is asked for, and a page of another is answered; and a page of a third
is never asked for. -/
theorem readRequest_elsewhere :
    readRequest .strict (mergePath "a%62" 0) = some (.page "ab" 0 500) ∧
    readRequest .strict (mergePath "a?for_merge&b" 0) = some (.page "a" 0 500) ∧
    RequestUri.parse .strict (mergePath "é" 0) = none := by
  have shows := HttpLayer.strict.shows
  refine ⟨?_, ?_, ?_⟩
  · have decoded : Percent.decode (Percent.bytes "a%62") = Percent.bytes "ab" := by decide
    have shown : HttpLayer.strict.shown (Percent.bytes "ab") = "ab" := Percent.lenient_bytes "ab"
    rw [readRequest_page (by decide) (by decide) (by decide) (by decide), decoded, shown]
  · have path : mergePath "a?for_merge&b" 0 = "/r/" ++ "a" ++ "?" ++ "for_merge&b?for_merge&offset=0&limit=500" := by decide
    have parts : (splitOnChar '&' "for_merge&b?for_merge&offset=0&limit=500").filter (· ≠ "") =
        ["for_merge", "b?for_merge", "offset" ++ "=" ++ "0", "limit" ++ "=" ++ "500"] := by decide
    have plain : FormPlain "b?for_merge" ∧ FormPlain "0" := by decide
    obtain ⟨merge, start, limit, size, -⟩ := formPlain_words
    have pairs : queryPairs HttpLayer.strict.shown "for_merge&b?for_merge&offset=0&limit=500" =
        [("for_merge", ""), ("b?for_merge", ""), ("offset", "0"), ("limit", "500")] := by
      rw [queryPairs, parts, List.map_cons, List.map_cons, List.map_cons, List.map_cons, List.map_nil,
        queryPair_name shows (by decide) merge, queryPair_name shows (by decide) plain.1,
        queryPair_value shows (by decide) start plain.2, queryPair_value shows (by decide) limit size]
    have decoded : Percent.decode (Percent.bytes "a") = Percent.bytes "a" := by decide
    have shown : HttpLayer.strict.shown (Percent.bytes "a") = "a" := Percent.lenient_bytes "a"
    have target : RequestUri.split (mergePath "a?for_merge&b" 0) =
        ⟨"/r/" ++ "a", "for_merge&b?for_merge&offset=0&limit=500"⟩ := by
      rw [path, split_of_solid (by decide) (by decide)]
    rw [readRequest_eq_some, target]
    refine ⟨by decide, by decide, by decide, ?_⟩
    rw [RequestUri.ask]
    simp only [stripStart_append, pairs, decoded, shown]
    decide
  · decide

/-! ### Encoded names -/

/-- A byte is written as itself or as an escape that stands for it, in ASCII either way. -/
theorem urlByte_cases : ∀ n : Fin 256, (∀ c ∈ urlByte (.ofNat n), c.toNat < 128 ∧ endsPath c = false ∧ plainInPath c = true) ∧
    ((urlByte (.ofNat n)).map (fun c => UInt8.ofNat c.toNat) = [.ofNat n] ∧ UInt8.ofNat n ≠ 37 ∨
      (urlByte (.ofNat n)).map (fun c => UInt8.ofNat c.toNat) =
        [37, .ofNat (upperHex (n / 16)).toNat, .ofNat (upperHex (n % 16)).toNat] ∧
      Percent.hexValue (.ofNat (upperHex (n / 16)).toNat) = some (.ofNat (n / 16)) ∧
      Percent.hexValue (.ofNat (upperHex (n % 16)).toNat) = some (.ofNat (n % 16)) ∧
      (16 * .ofNat (n / 16) + .ofNat (n % 16) : UInt8) = .ofNat n) := by
  decide +kernel

theorem urlByte_read (b : UInt8) : (∀ c ∈ urlByte b, c.toNat < 128 ∧ endsPath c = false ∧ plainInPath c = true) ∧
    ∀ rest, Percent.decode ((urlByte b).map (fun c => UInt8.ofNat c.toNat) ++ rest) = b :: Percent.decode rest := by
  obtain ⟨solid, shape⟩ := urlByte_cases ⟨b.toNat, b.toNat_lt⟩
  simp only [UInt8.ofNat_toNat] at solid shape
  refine ⟨solid, fun rest => ?_⟩
  rcases shape with ⟨self, other⟩ | ⟨escape, high, low, value⟩
  · rw [self]
    exact Percent.decode_cons other rest
  · rw [escape]
    simp only [List.cons_append, List.nil_append]
    rw [Percent.decode_escape high low, value]

theorem decode_urlencodingOf (value : String) : Percent.decode (Percent.bytes (urlencodingOf value)) = Percent.bytes value := by
  have ascii : ∀ c ∈ (urlencodingOf value).toList, c.toNat < 128 := by
    intro c mem
    rw [urlencodingOf, String.toList_ofList] at mem
    obtain ⟨b, -, inside⟩ := List.mem_flatMap.mp mem
    exact ((urlByte_read b).1 c inside).1
  rw [Percent.bytes_ascii ascii, urlencodingOf, String.toList_ofList]
  induction Percent.bytes value with
  | nil => rfl
  | cons b rest ih => rw [List.flatMap_cons, List.map_append, (urlByte_read b).2, ih]

/-- Put into the path the way a key is, every name that is not too long is read as itself. -/
theorem readRequest_encoded (http : HttpLayer) (name : String) (fits : offset < 2 ^ 64)
    (short : http.Short (mergePath (urlencodingOf name) offset)) (short' : http.Short (countPath (urlencodingOf name))) :
    readRequest http (mergePath (urlencodingOf name) offset) = some (.page name offset 500) ∧
    readRequest http (countPath (urlencodingOf name)) = some (.count name) := by
  have each (c : Char) (mem : c ∈ (urlencodingOf name).toList) : endsPath c = false ∧ plainInPath c = true := by
    rw [urlencodingOf, String.toList_ofList] at mem
    obtain ⟨b, -, inside⟩ := List.mem_flatMap.mp mem
    exact ((urlByte_read b).1 c inside).2
  have solid := fun c mem => (each c mem).1
  have admitted := fun c mem => http.paths c (each c mem).2
  rw [readRequest_page solid admitted short fits, readRequest_count solid admitted short', decode_urlencodingOf,
    http.shows.valid]
  exact ⟨rfl, rfl⟩

end Reading

end SightingDB
