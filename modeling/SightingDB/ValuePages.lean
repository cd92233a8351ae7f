import SightingDB.Contents
import SightingDB.Stix

/-!
A page of one namespace's values, as browsing and exporting read it: the values whose text holds
the filter, in order, as far as they have not expired.
-/
namespace SightingDB

namespace Namespace

/-- The values a page is cut from. -/
def matching (ns : Namespace) (filter : String) (now : DateTime) : List (String × Attribute) :=
  let filter := asciiLowercase filter
  ns.values.entries.filter fun e =>
    (filter = "" || containsText (asciiLowercase e.1) filter) && !e.2.isExpired now

def valuePage (ns : Namespace) (filter : String) (offset limit : Nat) (withStats : Bool) (now : DateTime) :
    Page AttributeView where
  items := (((ns.matching filter now).drop offset).take limit).map fun e => e.2.view 0 withStats
  total := (ns.matching filter now).length
  offset := offset

end Namespace

def Database.valuePage (db : Database) (w : World) (name filter : String) (offset limit : Nat) (withStats : Bool) :
    Database × Option (Page AttributeView) :=
  match db.namespace_ w name with
  | (db, none) => (db, none)
  | (db, some ns) =>
      let page := ns.valuePage filter offset limit withStats w.now
      let (db, items) := db.withConsensus w page.items
      (db, some { page with items := items })

namespace Contents

variable (c : Contents) (now : DateTime)

/-- A value as it is shown, with what `_all` counts. -/
def withConsensus (view : AttributeView) : AttributeView := { view with consensus := c.count now allNamespace view.value }

def valuePage (name filter : String) (offset limit : Nat) (withStats : Bool) : Option (Page AttributeView) :=
  (c name).map fun vals =>
    let page := (⟨vals, false⟩ : Namespace).valuePage filter offset limit withStats now
    { page with items := page.items.map (c.withConsensus now) }

/-- What pages of a namespace are cut from. -/
def shownUnder (filter name : String) : Option (List AttributeView) :=
  (c name).map fun vals => ((⟨vals, false⟩ : Namespace).matching filter now).map fun e => e.2.view 0 false

theorem valuePage_eq (name filter : String) (limit : Nat) :
    c.valuePage now name filter 0 limit false = (c.shownUnder now filter name).map fun views =>
      ⟨(views.take limit).map (c.withConsensus now), views.length, 0⟩ := by
  cases found : c name with
  | none => simp [valuePage, shownUnder, found]
  | some vals => simp [valuePage, shownUnder, found, Namespace.valuePage, List.map_take]

end Contents

section Reading

variable {names : ShardFiles} {dir : Dir} {db : Database} {exempt : String → Prop}

theorem valuePage_reads (consistent : Consistent names dir exempt db) (now : DateTime) (name filter : String)
    (offset limit : Nat) (withStats : Bool) :
    Looks names dir exempt db (db.valuePage (.sound names dir now) name filter offset limit withStats).1 ∧
      (db.valuePage (.sound names dir now) name filter offset limit withStats).2 =
        Contents.valuePage (held names dir db) now name filter offset limit withStats := by
  obtain ⟨looked, _, values⟩ := namespace_spec consistent now name
  simp only [Database.valuePage, Contents.valuePage, ← values]
  generalize db.namespace_ (.sound names dir now) name = fetched at looked ⊢
  obtain ⟨db₁, _ | ns⟩ := fetched
  · exact ⟨looked, rfl⟩
  · obtain ⟨looked', filled⟩ := withConsensus_reads looked.consistent now
      (ns.valuePage filter offset limit withStats now).items
    refine ⟨looked.trans looked', ?_⟩
    rw [looked.held] at filled
    exact congrArg (fun items => some (Page.mk items _ _)) filled

end Reading

end SightingDB
