import SightingDB.RequestPaths
import SightingDB.Sightings
import SightingDB.Galaxy
import Mathlib.Data.List.Sort

/-!
A server that is asked for what it holds, by its path: the names it lists, what it answers, and
when an answer is about the namespace it was asked for. What it offers in a namespace is said
twice, by name for what is there, and by path for what one gets.
-/
namespace SightingDB

namespace Database

/-- The namespaces at or under a start that a key may see, in order and each once. -/
def namespacesUnder (db : Database) (start : String) (allowed : String → Bool) : List String :=
  let start := trimSlashes start
  (((db.shards.entries.flatMap fun e => e.2.namespaces.keys).filter fun name =>
    !isInternal name && (start = "" || StoragePolicy.isAtOrUnder name start) && allowed name).insertionSort (· ≤ ·)).dedup

end Database

/-- What a response is to those who ask for pages and counts. -/
inductive PeerAnswer
  | error
  | page (page : Page (String × Merge))
  | count (values : Nat)
  /-- JSON of another shape. -/
  | other

/-- A server that is asked: how requests get to it, what it holds, what the key that asks may
read, whether it passes on what it does not store, and whether it answers at all. -/
structure Mirror where
  http : HttpLayer
  db : Database
  w : World
  allowed : String → Bool
  forwards : Bool
  down : Bool

namespace Mirror

variable (m : Mirror)

/-- `GET /_api/namespaces`. -/
def names : List String := m.db.namespacesUnder "" m.allowed

/-- Whether a read of a namespace is answered from what is held. A request with no hops left
is not passed on. -/
def answers (name : String) : Bool := m.allowed name && (m.db.holds name || !m.forwards || isInternal name)

/-- `read`, with no hops left. -/
def answer (ask : ReadAsk) : PeerAnswer :=
  if ask.about.any m.answers then match ask with
    | .both => .error
    | .count name => (m.db.valueCount m.w name).2.elim .error fun count => .count count.values
    | .page name offset limit => (m.db.mergePage m.w name offset limit).2.elim .error .page
    | .payload name value => (m.db.mergePayload m.w name value).2.elim .error fun _ => .other
    | .value name value withShadow =>
        (SightingDB.read m.db m.w name value false withShadow).2.toOption.elim .error fun _ => .other
    | .listing name => (SightingDB.readNamespace m.db m.w name).2.toOption.elim .error fun _ => .other
  else .error

/-- `GET` of a path and query. -/
def ask (uri : String) : Except ForwardError PeerAnswer :=
  match RequestUri.parse m.http uri with
  | none => .error (.unreachable m.http.invalidUri)
  | some target => .ok ((target.ask m.http.shown).elim .error m.answer)

/-- The page that is got for a name. -/
def pageAt (name : String) (offset : Nat) : Option (Page (String × Merge)) :=
  match m.ask (mergePath name offset) with
  | .ok (.page page) => some page
  | _ => none

/-- The number that is got for a name. An answer without one counts for none. -/
def countAt (name : String) : Nat :=
  match m.ask (countPath name) with
  | .ok (.count values) => values
  | _ => 0

/-- A bound for the pages there can be, by the first of them. -/
def pages (name : String) : Nat := ((m.pageAt name 0).elim 0 (·.total)) + 1

/-! ## By name -/

/-- What a namespace has to offer. -/
def offered (name : String) : List (String × Merge) :=
  if m.answers name then
    match (m.db.namespace_ m.w name).2 with
    | none => []
    | some ns => (ns.values.entries.filter fun e => !e.2.isExpired m.w.now).map fun e => (e.1, e.2.asMerge)
  else []

/-- The values it offers. -/
def live (name : String) : List String := (m.offered name).map (·.1)

/-- Whether a server offers a value in a namespace. -/
def offers (name value : String) : Bool := name ∈ m.names && value ∈ m.live name

/-- A walk over the pages of a name stays with that namespace: it is safe in a path, and neither
the offsets nor the paths grow too large. -/
structure Reads (name : String) : Prop where
  safe : PathSafe m.http name
  fits : (m.offered name).length < 2 ^ 64
  short : m.http.Short (mergePath name (m.offered name).length)

instance (name : String) : Decidable (m.Reads name) :=
  decidable_of_iff (PathSafe m.http name ∧ (m.offered name).length < 2 ^ 64 ∧
    m.http.Short (mergePath name (m.offered name).length)) ⟨fun ⟨a, b, c⟩ => ⟨a, b, c⟩, fun ⟨a, b, c⟩ => ⟨a, b, c⟩⟩

/-- Each listed name that is of interest can be walked. -/
def Askable (asked : String → Bool) : Prop := ∀ name ∈ m.names, asked name = true → m.Reads name

instance (asked : String → Bool) : Decidable (m.Askable asked) :=
  inferInstanceAs (Decidable (∀ name ∈ m.names, asked name = true → m.Reads name))

variable {m}

/-- What is offered is some record's state. -/
theorem asMerge_of_offered {name : String} {e : String × Merge} (mem : e ∈ m.offered name) :
    ∃ a : Attribute, e.2 = a.asMerge := by
  rw [offered] at mem
  split at mem
  · split at mem
    · cases mem
    · obtain ⟨stored, -, rfl⟩ := List.mem_map.mp mem
      exact ⟨stored.2, rfl⟩
  · cases mem

/-- A page of a namespace is a piece of what it offers. -/
theorem answer_page (m : Mirror) (name : String) (offset limit : Nat) :
    m.answer (.page name offset limit) = .error ∧ m.offered name = [] ∨
      m.answer (.page name offset limit) = .page ⟨((m.offered name).drop offset).take limit, (m.offered name).length, offset⟩ := by
  have about : (ReadAsk.page name offset limit).about.any m.answers = m.answers name := rfl
  rw [answer, about, offered]
  by_cases answers : m.answers name = true
  · rw [if_pos answers, if_pos answers, Database.mergePage]
    cases m.db.namespace_ m.w name with
    | mk db found =>
        cases found with
        | none => exact .inl ⟨rfl, rfl⟩
        | some ns =>
            apply Or.inr
            simp [Namespace.mergePage, List.map_take, List.map_drop]
  · rw [if_neg answers, if_neg answers]
    exact .inl ⟨rfl, rfl⟩

/-! ## By path -/

theorem ask_of_readRequest {uri : String} {ask : ReadAsk} (asked : readRequest m.http uri = some ask) :
    m.ask uri = .ok (m.answer ask) := by
  obtain ⟨target, sent, read⟩ := Option.bind_eq_some_iff.mp asked
  rw [Mirror.ask, sent]
  simp only [read, Option.elim_some]

/-- Whatever is got by a path is about a namespace that the path is about. -/
theorem pageAt_cases (m : Mirror) (name : String) (offset : Nat) : m.pageAt name offset = none ∨
    ∃ ask, readRequest m.http (mergePath name offset) = some ask ∧ ∃ page, m.answer ask = .page page ∧
      m.pageAt name offset = some page := by
  rw [pageAt, ask]
  cases sent : RequestUri.parse m.http (mergePath name offset) with
  | none => exact .inl rfl
  | some target =>
      cases read : target.ask m.http.shown with
      | none => exact .inl (by simp [read])
      | some ask =>
          have asked : readRequest m.http (mergePath name offset) = some ask := by
            rw [readRequest, sent, Option.bind_some, read]
          simp only [read, Option.elim_some]
          cases answered : m.answer ask with
          | page page => exact .inr ⟨ask, asked, page, answered, rfl⟩
          | error => exact .inl rfl
          | count values => exact .inl rfl
          | other => exact .inl rfl

theorem bytes_digits (n : Nat) : (Percent.bytes (toString n)).length = (Nat.toDigits 10 n).length := by
  have ascii : ∀ c ∈ (toString n).toList, c.toNat < 128 := fun c mem => by
    have := toNat_of_isDigit (digits_toString n c mem)
    omega
  rw [Percent.bytes_ascii ascii, List.length_map, Nat.toString_eq_repr, Nat.toList_repr]

theorem bytes_append (a b : String) : Percent.bytes (a ++ b) = Percent.bytes a ++ Percent.bytes b := by
  rw [Percent.bytes, String.toList_append, List.flatMap_append]
  rfl

/-- A path with a smaller offset is no longer. -/
theorem short_of_le {http : HttpLayer} {name : String} {offset last : Nat} (le : offset ≤ last)
    (short : http.Short (mergePath name last)) : http.Short (mergePath name offset) := by
  have digits : (Nat.toDigits 10 offset).length ≤ (Nat.toDigits 10 last).length := by
    refine (Nat.length_toDigits_le_iff (by decide) Nat.length_toDigits_pos).mpr (lt_of_le_of_lt le ?_)
    exact (Nat.length_toDigits_le_iff (by decide) Nat.length_toDigits_pos).mp le_rfl
  rw [HttpLayer.Short, mergePath] at short ⊢
  simp only [bytes_append, List.length_append, bytes_digits] at short ⊢
  omega

namespace Reads

variable {name : String} (reads : m.Reads name)

include reads

theorem ask_eq {offset : Nat} (within : offset ≤ (m.offered name).length) :
    m.ask (mergePath name offset) = .ok (m.answer (.page name offset 500)) := by
  refine ask_of_readRequest ?_
  rw [readRequest_page reads.safe.solid reads.safe.admitted (short_of_le within reads.short)
    (lt_of_le_of_lt within reads.fits), m.http.shows.decoded_iff.mpr reads.safe.unescaped]

/-- A page that is asked for is answered with a page of that namespace, or not at all. -/
theorem ask_page {offset : Nat} (within : offset ≤ (m.offered name).length) :
    m.ask (mergePath name offset) = .ok .error ∧ m.offered name = [] ∨
      m.ask (mergePath name offset) =
        .ok (.page ⟨((m.offered name).drop offset).take 500, (m.offered name).length, offset⟩) := by
  rw [reads.ask_eq within]
  rcases m.answer_page name offset 500 with ⟨refused, none⟩ | answered
  · exact .inl ⟨congrArg Except.ok refused, none⟩
  · exact .inr (congrArg Except.ok answered)

theorem pageAt_eq {offset : Nat} (within : offset ≤ (m.offered name).length) :
    m.pageAt name offset = none ∧ m.offered name = [] ∨
      m.pageAt name offset = some ⟨((m.offered name).drop offset).take 500, (m.offered name).length, offset⟩ := by
  rw [pageAt]
  rcases reads.ask_page within with ⟨refused, none⟩ | answered
  · exact .inl ⟨by rw [refused], none⟩
  · exact .inr (by rw [answered])

theorem pages_eq : m.pages name = (m.offered name).length + 1 := by
  rw [pages]
  rcases reads.pageAt_eq (Nat.zero_le _) with ⟨refused, none⟩ | answered
  · rw [refused, none]
    rfl
  · rw [answered]
    rfl

end Reads

end Mirror

end SightingDB
