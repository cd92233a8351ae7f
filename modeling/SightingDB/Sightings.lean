import SightingDB.Database

/-!
Writing and reading on behalf of a client: what is refused before the database is
touched, and the shadow a read leaves.
-/
namespace SightingDB

inductive ApiError
  | emptyValue
  | internalNamespace (name : String)
  | notStored (name : String)
  | configNamespace
  | valueNotFound (name value : String)
  | pathNotFound (name value : String)
  deriving DecidableEq

/-- Everything a write refuses before it touches the database. -/
def check (db : Database) (name value : String) : Except ApiError Unit :=
  if value = "" then .error .emptyValue
  else if isInternal name then .error (.internalNamespace name)
  else if !db.holds name then .error (.notStored name)
  else .ok ()

/-- `sighting_writer::write_tagged_as`: counted for whoever the sighting came from. -/
def writeTaggedAs (db : Database) (w : World) (origin : Option String) (name value : String)
    (when : Option DateTime) (ttl : Option Nat) (tags : String) :
    Database × Except ApiError Written :=
  match check db name value with
  | .error e => (db, .error e)
  | .ok () =>
      let (db, written) := db.recordWrite w (origin.getD db.node) name value (when.getD w.now)
        ⟨true, ttl⟩ tags
      (db, .ok written)

/-- `sighting_reader::read`: a miss is still a search, and leaves the same shadow. -/
def read (db : Database) (w : World) (name value : String) (withStats withShadow : Bool) :
    Database × Except ApiError AttributeView :=
  if startsWith name configPrefix then (db, .error .configNamespace)
  else
    let (db, consensus) := db.count w allNamespace value
    let (db, found) := db.view w name value consensus withStats
    let result := match found with
      | some view => .ok view
      | none => if db.namespaceExists name then .error (.valueNotFound name value)
          else .error (.pathNotFound name value)
    let db := if withShadow then db.write w (shadowPrefix ++ name) value w.now .default else db
    (db, result)

/-- `sighting_reader::read_namespace`: every value, and no shadow. -/
def readNamespace (db : Database) (w : World) (name : String) : Database × Except ApiError (List AttributeView) :=
  if startsWith name configPrefix then (db, .error .configNamespace)
  else
    let (db, views) := db.namespaceViews w name
    (db, match views with
      | some views => .ok views
      | none => .error (.pathNotFound name ""))

end SightingDB
