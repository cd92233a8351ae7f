import SightingDB.Lib.Budget
import SightingDB.Routes
import SightingDB.StixImport
import SightingDB.ValuePages

/-!
Exporting namespaces: from one server's own store within a limit, and through a server that
gathers what it does not store from its mirrors. A mirror answers the same request from its own
store, its figures in headers.
-/
namespace SightingDB

/-- How the export is configured. -/
structure StixSettings where
  mapping : Stix.Mapping
  exportAs : Stix.Settings

/-- Whether a mapped name is a namespace or a parent of it. -/
def covers (mapped name : String) : Bool := StoragePolicy.isAtOrUnder name (trimSlashes mapped)

/-- The observable type a namespace holds. The longest mapped name wins, of equal ones the last. -/
def StixSettings.typeOfNamespace (settings : StixSettings) (name : String) : Option String :=
  ((settings.mapping.types.filter fun entry => covers entry.2 name).foldl (fun best entry => match best with
    | none => some entry
    | some known => if known.2.utf8ByteSize ≤ entry.2.utf8ByteSize then some entry else some known) none).map (·.1)

/-! ## From one store -/

/-- The pages of an export, each with what the ones before it leave of the limit. -/
def Database.exportPages (db : Database) (w : World) (filter : String) :
    Nat → List String → Database × Budget.Spent String AttributeView
  | _, [] => (db, ⟨[], [], false⟩)
  | budget, name :: rest =>
      if budget = 0 then (db, ⟨[], [], true⟩)
      else match db.valuePage w name filter 0 budget false with
        | (db, none) =>
            let (db, later) := db.exportPages w filter budget rest
            (db, { later with missing := name :: later.missing })
        | (db, some page) =>
            let (db, later) := db.exportPages w filter (budget - page.items.length) rest
            (db, ⟨(name, page.items) :: later.pages, later.missing,
              (page.items.length < page.total : Bool) || later.cut⟩)

namespace Contents

variable (c : Contents) (now : DateTime)

/-- What an export reads from, namespace by namespace. -/
def exported (filter name : String) : Option (List AttributeView) :=
  (c.shownUnder now filter name).map (List.map (c.withConsensus now))

def exportPages (filter : String) (budget : Nat) (names : List String) : Budget.Spent String AttributeView :=
  Budget.spend (c.exported now filter) budget names

end Contents

section Reading

variable {names : ShardFiles} {dir : Dir} {db : Database} {exempt : String → Prop}

/-- Wherever the data is, the pages are those of what is held. -/
theorem exportPages_reads (consistent : Consistent names dir exempt db) (now : DateTime) (filter : String) (budget : Nat)
    (wanted : List String) :
    Looks names dir exempt db (db.exportPages (.sound names dir now) filter budget wanted).1 ∧
      (db.exportPages (.sound names dir now) filter budget wanted).2 =
        Contents.exportPages (held names dir db) now filter budget wanted := by
  induction wanted generalizing db budget with
  | nil => exact ⟨Looks.refl consistent, rfl⟩
  | cons name rest ih =>
      by_cases spent : budget = 0
      · simp only [Database.exportPages, Contents.exportPages, Budget.spend, if_pos spent]
        exact ⟨Looks.refl consistent, trivial⟩
      · obtain ⟨looked, paged⟩ := valuePage_reads consistent now name filter 0 budget false
        rw [Contents.valuePage_eq] at paged
        simp only [Database.exportPages, Contents.exportPages, Budget.spend, if_neg spent, Contents.exported]
        generalize db.valuePage (.sound names dir now) name filter 0 budget false = fetched at looked paged ⊢
        obtain ⟨db₁, page⟩ := fetched
        dsimp only at looked paged
        subst paged
        cases found : Contents.shownUnder (held names dir db) now filter name with
        | none =>
            obtain ⟨looked', paged⟩ := ih looked.consistent budget
            refine ⟨looked.trans looked', ?_⟩
            simp only [Option.map_none, paged, looked.held]
            rfl
        | some views =>
            simp only [Option.map_some, ← List.map_take, List.length_map]
            obtain ⟨looked', paged⟩ :=
              ih looked.consistent (budget - (views.take budget).length)
            refine ⟨looked.trans looked', ?_⟩
            simp only [paged, looked.held]
            rfl

end Reading

namespace Stix

variable (crates : Crates) (settings : StixSettings)

/-- The bundle of some pages, with what is missing and whether anything was left. -/
def exportOf (untyped : Untyped) (spent : Budget.Spent String AttributeView) : Export :=
  { bundleOf crates (spent.pages.map fun page => ⟨page.1, page.2, settings.typeOfNamespace page.1⟩) settings.exportAs
      untyped with
    truncated := spent.cut
    missing := spent.missing }

/-- Export several namespaces into one bundle. -/
def exportNamespaces (c : Contents) (now : DateTime) (wanted : List String) (filter : String) (limit : Nat)
    (untyped : Untyped) : Export :=
  exportOf crates settings untyped (c.exportPages now filter limit wanted)

/-! ## What is asked, and what is answered -/

/-- The body of an export asked for by an automation. -/
structure ExportBody where
  request : ExportRequest
  q : String
  limit : Option Nat
  untyped : Untyped

def ExportBody.maxValues (body : ExportBody) : Nat := max 1 (min (body.limit.getD 10000) 100000)

/-- What an answer says in its headers. -/
structure Figures where
  exported : Nat
  skipped : Nat
  untyped : Nat
  namespaces : Nat
  truncated : Bool
  missing : Option String

inductive Reply
  /-- A bundle; `none` when the body cannot be read. -/
  | answer (figures : Figures) (bundle : Option Json)
  | status (code : Nat)

/-- What a header can be made of, -/
def headerValid (text : String) : Bool := text.toList.all fun c => (32 ≤ c.toNat && c.toNat ≠ 127) || c = '\t'

/-- and what `to_str` reads. -/
def headerReadable (text : String) : Bool := text.toList.all fun c => (32 ≤ c.toNat && c.toNat < 127) || c = '\t'

/-- A bundle, with what it could not carry in headers. -/
def stixResponse (export_ : Export) : Reply :=
  let figures := Figures.mk export_.exported export_.skipped.length export_.untyped export_.namespaces export_.truncated
  if export_.missing = [] then .answer (figures none) (some export_.bundle)
  else
    let text := joinWith ',' export_.missing
    if headerValid text then .answer (figures (some text)) (some export_.bundle) else .status 500

/-- `export_stix_api` on a server that stores everything asked for, for a key that may read it. -/
def exportStixApi (c : Contents) (now : DateTime) (body : ExportBody) : Reply :=
  let wanted := body.request.wanted
  if wanted = [] then .status 400
  else if wanted.any fun name => startsWith name configPrefix then .status 403
  else
    let export_ := exportNamespaces crates settings c now wanted body.q body.maxValues body.untyped
    if export_.missing.length = wanted.length then .status 404 else stixResponse export_

/-! ## Gathering -/

/-- Headers that cannot be read do not arrive. -/
def Reply.received : Reply → Reply
  | .answer figures bundle => .answer { figures with missing := figures.missing.filter headerReadable } bundle
  | .status code => .status code

/-- A mirror's bundle, with the counters it reported in headers. The names it skipped are not
among them. -/
def exportedFrom (figures : Figures) (bundle : Json) : Export where
  bundle := bundle
  exported := figures.exported
  skipped := []
  untyped := figures.untyped
  truncated := figures.truncated
  missing := (figures.missing.map (splitOnChar ',')).getD []
  namespaces := figures.namespaces

/-- The share of an export a mirror could not provide. -/
def unreachablePart (names : List String) : Export := ⟨.obj [], 0, [], 0, false, names, 0⟩

/-- The share of a mirror, and what it could not be asked about. -/
def mirrorPart (names : List String) : Option Reply → Export × List String
  | some (.answer figures (some bundle)) => (exportedFrom figures bundle, [])
  | some (.status 404) => (unreachablePart names, [])
  | _ => (unreachablePart names, names)

/-- Namespaces by the mirror that serves them, and those nobody holds. -/
def groupedByMirror (galaxy : Galaxy) (weigh : String → String → Nat) (names : List String) :
    List (String × List String) × List String :=
  names.foldl (fun found name => match galaxy.readerUrl weigh name "" with
    | .ok url => (Network.intoGroup found.1 url name, found.2)
    | .error _ => (found.1, found.2 ++ [name])) ([], [])

inductive Gathered
  | bundle (export_ : Export)
  | notFound
  | badGateway (unreachable : List String)

/-- The parts folded into one, unless nothing came back at all. -/
def foldParts (wanted : List String) (parts : List Export) (unreachable : List String) : Gathered :=
  let merged := mergeExports crates wanted parts
  if merged.exported = 0 && merged.missing.length = wanted.length then
    if unreachable = [] then .notFound else .badGateway unreachable
  else .bundle merged

variable (site : Site) (weigh : String → String → Nat) (own : List String → Export)
  (ask : String → ExportBody → Option Reply) (wanted : List String) (filter : String) (limit : Nat) (untyped : Untyped)

/-- Export namespaces this server does not hold by asking the mirrors that do; `own` is what it
exports itself. `none` when all are here, or there is nowhere to ask. -/
def gatheredExport : Option Gathered :=
  let elsewhere := wanted.filter site.elsewhere
  if elsewhere = [] then none
  else match site.galaxy with
    | none => none
    | some galaxy =>
        let grouped := groupedByMirror galaxy weigh elsewhere
        let mine := wanted.filter site.stores.holds
        let here := if mine = [] then [] else [own mine]
        let nowhere := if grouped.2 = [] then [] else [unreachablePart grouped.2]
        let asked := grouped.1.map fun group =>
          mirrorPart group.2 ((ask group.1 ⟨⟨group.2, none, false⟩, filter, some limit, untyped⟩).map Reply.received)
        some (foldParts crates wanted (here ++ nowhere ++ asked.map (·.1)) (asked.flatMap (·.2)))

/-- What one server answers from its own store. -/
def ownAnswer : Gathered :=
  let export_ := own wanted
  if export_.missing.length = wanted.length then .notFound else .bundle export_

/-- What is answered once the namespaces to export are known. -/
def exportAnswer : Gathered :=
  (gatheredExport crates site weigh own ask wanted filter limit untyped).getD (ownAnswer own wanted)

end Stix

end SightingDB
