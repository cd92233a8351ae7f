import SightingDB.Exports
import SightingDB.Lib.LastMaximum
import SightingDB.StixIds

/-!
The type that a namespace is exported as, and the order in which the table of types is walked. Of the
mapped names that cover a namespace the longest as it is written wins, slashes around it included, and of
several such the one that is met last.
-/
namespace SightingDB

namespace StixSettings

/-- The same settings, their table of types walked in another order. -/
def walkedIn (settings : StixSettings) (order : List (String × String)) : StixSettings :=
  { settings with mapping := { settings.mapping with types := order } }

/-- A mapped name stands for a namespace or for a parent of it, by whole segments. -/
def StandsFor (mapped name : String) : Prop :=
  name = trimSlashes mapped ∨ ∃ rest, name = trimSlashes mapped ++ "/" ++ rest

theorem covers_iff {mapped name : String} : covers mapped name = true ↔ StandsFor mapped name := by
  rw [covers, StoragePolicy.isAtOrUnder, StandsFor, Bool.or_eq_true, decide_eq_true_eq]
  refine or_congr_right ?_
  constructor
  · intro under
    cases stripped : stripStart name (trimSlashes mapped) with
    | none => simp [stripped] at under
    | some rest =>
        rw [stripped] at under
        rw [stripStart] at stripped
        split at stripped
        · rename_i starts
          obtain ⟨tail, rfl⟩ := eq_append_of_startsWith starts
          obtain rfl : tail = rest := by simpa using stripped
          obtain ⟨others, slash⟩ := List.head?_eq_some_iff.mp (beq_iff_eq.mp under)
          refine ⟨String.ofList others, ?_⟩
          rw [String.append_assoc, ← String.toList_inj]
          simp [slash]
        · cases stripped
  · rintro ⟨rest, rfl⟩
    have starts : startsWith (trimSlashes mapped ++ "/" ++ rest) (trimSlashes mapped) = true := by
      rw [String.append_assoc]
      exact startsWith_append _ _
    rw [stripStart, if_pos starts]
    simp [startsWithChar]

/-- How long a mapped name is as it is written. -/
def writtenLength (entry : String × String) : Nat := entry.2.utf8ByteSize

/-- How long the namespace is that it stands for. -/
def depth (entry : String × String) : Nat := (trimSlashes entry.2).utf8ByteSize

/-- The types a namespace could be said to hold. -/
def candidates (settings : StixSettings) (name : String) : List (String × String) :=
  settings.mapping.types.filter fun entry => covers entry.2 name

theorem typeOfNamespace_eq (settings : StixSettings) (name : String) :
    settings.typeOfNamespace name = (LastMaximum.last writtenLength (settings.candidates name)).map (·.1) := by
  refine congrArg (Option.map _) (congrArg (fun step => (settings.candidates name).foldl step none) ?_)
  funext best entry
  cases best <;> rfl

/-- The type of a namespace is that of a mapped name that stands for it, and for no fewer of its segments
than any other. -/
def OfDeepest (settings : StixSettings) (name observable : String) : Prop :=
  ∃ entry ∈ settings.mapping.types, entry.1 = observable ∧ StandsFor entry.2 name ∧
    ∀ other ∈ settings.mapping.types, StandsFor other.2 name → depth other ≤ depth entry

/-- One name at most is written longest, and none that stands for the namespace is longer without the
slashes around it. -/
def Settled (settings : StixSettings) (name : String) : Prop :=
  ∀ entry, LastMaximum.Greatest writtenLength (settings.candidates name) entry →
    (∀ other, LastMaximum.Greatest writtenLength (settings.candidates name) other → other = entry) ∧
      ∀ other ∈ settings.candidates name, depth other ≤ depth entry

theorem mem_candidates {settings : StixSettings} {name : String} {entry : String × String} :
    entry ∈ settings.candidates name ↔ entry ∈ settings.mapping.types ∧ StandsFor entry.2 name := by
  rw [candidates, List.mem_filter, covers_iff]

/-- The type of a namespace is one, and that of the deepest name, whatever the order, when and only when
the mapping settles it. -/
theorem settled_iff {settings : StixSettings} (distinct : (settings.mapping.types.map Prod.fst).Nodup) (name : String) :
    (∀ order : List (String × String), order.Perm settings.mapping.types →
      (settings.walkedIn order).typeOfNamespace name = settings.typeOfNamespace name ∧
        ∀ observable, (settings.walkedIn order).typeOfNamespace name = some observable →
          settings.OfDeepest name observable) ↔ settings.Settled name := by
  have apart {entry other : String × String} (member : entry ∈ settings.mapping.types)
      (member' : other ∈ settings.mapping.types) (same : entry.1 = other.1) : entry = other :=
    List.inj_on_of_nodup_map distinct member member' same
  constructor
  · intro each entry greatest
    have chosen {found : String × String} (greatest : LastMaximum.Greatest writtenLength (settings.candidates name) found) :
        settings.typeOfNamespace name = some found.1 ∧ settings.OfDeepest name found.1 := by
      obtain ⟨order, perm, last⟩ := LastMaximum.exists_order greatest
      have read : (settings.walkedIn order).typeOfNamespace name = some found.1 := by
        rw [typeOfNamespace_eq]
        exact congrArg (Option.map Prod.fst) last
      exact ⟨(each order perm).1 ▸ read, (each order perm).2 _ read⟩
    have member := (mem_candidates.mp greatest.mem).1
    constructor
    · intro other greatest'
      have same := (chosen greatest).1.symm.trans (chosen greatest').1
      exact (apart member (mem_candidates.mp greatest'.mem).1 (Option.some.inj same)).symm
    · intro other inside
      obtain ⟨deepest, there, same, -, deep⟩ := (chosen greatest).2
      obtain rfl := apart there member same
      exact deep other (mem_candidates.mp inside).1 (mem_candidates.mp inside).2
  · intro settled order perm
    have one := LastMaximum.same_every_order.mpr (fun first second greatest greatest' =>
      ((settled first greatest).1 second greatest').symm) order perm
    have same : (settings.walkedIn order).typeOfNamespace name = settings.typeOfNamespace name := by
      rw [typeOfNamespace_eq, typeOfNamespace_eq]
      exact congrArg (Option.map Prod.fst) one
    refine ⟨same, fun observable read => ?_⟩
    rw [same, typeOfNamespace_eq, Option.map_eq_some_iff] at read
    obtain ⟨entry, found, rfl⟩ := read
    have greatest := LastMaximum.last_spec found
    obtain ⟨there, stands⟩ := mem_candidates.mp greatest.mem
    exact ⟨entry, there, rfl, stands, fun other inside covered =>
      (settled entry greatest).2 other (mem_candidates.mpr ⟨inside, covered⟩)⟩

variable {crates : Crates} {settings : StixSettings} {untyped : Stix.Untyped}

/-- An export takes nothing else from the mapping. -/
theorem exportNamespaces_congr {order : List (String × String)} {wanted : List String} (c : Contents) (now : DateTime)
    (filter : String) (limit : Nat)
    (same : ∀ name ∈ wanted, (settings.walkedIn order).typeOfNamespace name = settings.typeOfNamespace name) :
    Stix.exportNamespaces crates (settings.walkedIn order) c now wanted filter limit untyped =
      Stix.exportNamespaces crates settings c now wanted filter limit untyped := by
  have asked : ∀ page ∈ (c.exportPages now filter limit wanted).pages, page.1 ∈ wanted := by
    intro page member
    have read : page.1 ∈ (c.exportPages now filter limit wanted).pages.map Prod.fst := List.mem_map_of_mem member
    rw [Contents.exportPages, Budget.names_spent] at read
    exact Budget.reached_prefix.subset (List.mem_of_mem_filter read)
  have parts : (c.exportPages now filter limit wanted).pages.map (fun page =>
      (⟨page.1, page.2, (settings.walkedIn order).typeOfNamespace page.1⟩ : Stix.Part)) =
      (c.exportPages now filter limit wanted).pages.map fun page => ⟨page.1, page.2, settings.typeOfNamespace page.1⟩ :=
    List.map_congr_left fun page member => by rw [same page.1 (asked page member)]
  rw [Stix.exportNamespaces, Stix.exportNamespaces, Stix.exportOf, Stix.exportOf, parts]
  rfl

end StixSettings

open StixSettings

/-- Each namespace of an export has one type, that of the deepest mapped name that stands for it, and the
export is one, whatever order the table of types is walked in, exactly when for each of the namespaces a
single covering name is written longest, and no covering name is longer than it without the slashes around
them. -/
theorem exports_reproducible (crates : Crates) (settings : StixSettings)
    (distinct : (settings.mapping.types.map Prod.fst).Nodup) (c : Contents) (now : DateTime) (wanted : List String)
    (filter : String) (limit : Nat) (untyped : Stix.Untyped) :
    ((∀ order : List (String × String), order.Perm settings.mapping.types →
      (∀ name ∈ wanted, (settings.walkedIn order).typeOfNamespace name = settings.typeOfNamespace name ∧
        ∀ observable, (settings.walkedIn order).typeOfNamespace name = some observable → settings.OfDeepest name observable) ∧
      Stix.exportNamespaces crates (settings.walkedIn order) c now wanted filter limit untyped =
        Stix.exportNamespaces crates settings c now wanted filter limit untyped)) ↔
    ∀ name ∈ wanted, settings.Settled name := by
  constructor
  · exact fun each name member => (settled_iff distinct name).mp fun order perm => (each order perm).1 name member
  · intro settled order perm
    have typed := fun name member => (settled_iff distinct name).mpr (settled name member) order perm
    exact ⟨typed, exportNamespaces_congr c now filter limit fun name member => (typed name member).1⟩

/-- A namespace, and one within it. -/
def nested : StixSettings := ⟨⟨[("ipv4-addr", "feeds"), ("domain-name", "feeds/domains")], none⟩, ⟨"SightingDB", "system"⟩⟩

theorem exports_reproducible_nested : nested.typeOfNamespace "feeds/domains" = some "domain-name" ∧
    ∀ order : List (String × String), order.Perm nested.mapping.types →
      (nested.walkedIn order).typeOfNamespace "feeds/domains" = some "domain-name" ∧
        Stix.exportNamespaces Stix.Crates.sample (nested.walkedIn order) (fun _ => none) .unixEpoch ["feeds/domains"] "" 10 .skip =
          Stix.exportNamespaces Stix.Crates.sample nested (fun _ => none) .unixEpoch ["feeds/domains"] "" 10 .skip := by
  have both : nested.candidates "feeds/domains" = nested.mapping.types := by decide
  have longest (entry : String × String)
      (greatest : LastMaximum.Greatest writtenLength (nested.candidates "feeds/domains") entry) :
      entry = ("domain-name", "feeds/domains") := by
    rw [both] at greatest
    rcases List.mem_cons.mp greatest.mem with rfl | member
    · exact absurd (greatest.top ("domain-name", "feeds/domains") (by decide)) (by decide)
    · exact List.mem_singleton.mp member
  have settled : nested.Settled "feeds/domains" := by
    intro entry greatest
    obtain rfl := longest entry greatest
    exact ⟨longest, by decide⟩
  have typed : nested.typeOfNamespace "feeds/domains" = some "domain-name" := by decide
  refine ⟨typed, fun order perm => ?_⟩
  have each := (exports_reproducible Stix.Crates.sample nested (by decide) (fun _ => none) .unixEpoch ["feeds/domains"] "" 10 .skip).mpr
    (fun name member => List.mem_singleton.mp member ▸ settled) order perm
  exact ⟨(each.1 _ (List.mem_singleton_self _)).1.trans typed, each.2⟩

/-- Two types mapped to one namespace. -/
def twoTypes : StixSettings := ⟨⟨[("ipv4-addr", "feeds"), ("domain-name", "feeds")], none⟩, ⟨"SightingDB", "system"⟩⟩

/-- Which of them it holds depends on which is met last. -/
theorem last_met_wins : ∃ order : List (String × String), order.Perm twoTypes.mapping.types ∧
    (twoTypes.walkedIn order).typeOfNamespace "feeds" = some "ipv4-addr" ∧
      twoTypes.typeOfNamespace "feeds" = some "domain-name" :=
  ⟨[("domain-name", "feeds"), ("ipv4-addr", "feeds")], List.Perm.swap .., by decide, by decide⟩

end SightingDB
