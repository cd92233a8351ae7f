import SightingDB.Contents

/-!
What a database is asked to do, one request at a time, and what it answers. Seen from what
is held, a request has one effect and one answer, wherever the data is.
-/
namespace SightingDB

/-- A database and its directory. -/
structure Machine where
  db : Database
  dir : Dir
  deriving DecidableEq

/-- Reads, any of which may bring a shard back. -/
inductive Query
  | view (path value : String) (consensus : Nat) (withStats : Bool)
  | count (path value : String)
  | mergePage (path : String) (offset limit : Nat)
  | namespaceExists (name : String)
  | namespaceViews (name : String)
  | valueCount (name : String)
  deriving DecidableEq

inductive Answer
  | view (found : Option AttributeView)
  | count (n : Nat)
  | page (found : Option (Page (String × Merge)))
  | exists_ (there : Bool)
  | views (found : Option (List AttributeView))
  | values (n : Option Nat)
  deriving DecidableEq

inductive Request
  | write (origin path value : String) (when : DateTime) (opts : WriteOpts) (tags : String)
  | merge (path value : String) (incoming : Merge)
  | setTags (path value tags : String)
  | delete (name : String)
  | read (query : Query)
  deriving DecidableEq

namespace Query

def apply (db : Database) (w : World) : Query → Database × Answer
  | .view path value consensus withStats =>
      let (db, found) := db.view w path value consensus withStats
      (db, .view found)
  | .count path value =>
      let (db, n) := db.count w path value
      (db, .count n)
  | .mergePage path offset limit =>
      let (db, found) := db.mergePage w path offset limit
      (db, .page found)
  | .namespaceExists name => (db, .exists_ (db.namespaceExists name))
  | .namespaceViews name =>
      let (db, found) := db.namespaceViews w name
      (db, .views found)
  | .valueCount name =>
      let (db, found) := db.valueCount w name
      (db, .values (found.map (·.values)))

/-- The answer that what is held gives. -/
def answer (c : Contents) (now : DateTime) : Query → Answer
  | .view path value consensus withStats => .view (c.view now path value consensus withStats)
  | .count path value => .count (c.count now path value)
  | .mergePage path offset limit => .page (c.mergePage now path offset limit)
  | .namespaceExists name => .exists_ (c name).isSome
  | .namespaceViews name => .views (c.namespaceViews now name)
  | .valueCount name => .values (c.valueCount name)

end Query

namespace Request

def apply (db : Database) (w : World) : Request → Database × Option Answer
  | .write origin path value when opts tags => ((db.recordWrite w origin path value when opts tags).1, none)
  | .merge path value incoming => ((db.merge w path value incoming).1, none)
  | .setTags path value tags => ((db.setTags w path value tags).1, none)
  | .delete name => ((db.delete w name).1, none)
  | .read query =>
      let (db, answer) := query.apply db w
      (db, some answer)

/-- What a request does to what is held. -/
def effect (db : Database) (now : DateTime) : Request → Contents → Contents
  | .write origin path value when opts tags => fun c =>
      c.write db.node db.policy.statsRetention origin path value when opts.consensus (db.ttlOf path opts) tags
  | .merge path value incoming => fun c => c.merge db.node db.policy.statsRetention now path value incoming
  | .setTags path value tags => fun c => c.setTags now path value tags
  | .delete name => fun c => c.delete db.node name
  | .read _ => id

def answer (c : Contents) (now : DateTime) : Request → Option Answer
  | .read query => some (query.answer c now)
  | _ => none

/-- A request that leaves no shard changed and unmarked, other than an exempt one, and makes
namespaces in shards in play only. -/
def Marks (names : ShardFiles) (dir : Dir) (exempt : String → Prop) (db : Database) : Request → Prop
  | .write _ path _ _ _ _ => names.used (shardOf path)
  | .merge path value incoming =>
      names.used (shardOf path) ∧ (exempt (shardOf path) ∨ Heard names dir db path value incoming)
  | .delete name => exempt internalShard ∨ Repaid names dir db name
  | _ => True

end Request

section

variable {names : ShardFiles} {dir : Dir} {db : Database} {exempt : String → Prop}

theorem Query.reads (consistent : Consistent names dir exempt db) (now : DateTime) (q : Query) :
    Looks names dir exempt db (q.apply db (.sound names dir now)).1 ∧
      (q.apply db (.sound names dir now)).2 = q.answer (held names dir db) now := by
  cases q with
  | view path value consensus withStats =>
      obtain ⟨looked, answered⟩ := view_reads consistent now path value consensus withStats
      exact ⟨looked, congrArg Answer.view answered⟩
  | count path value =>
      obtain ⟨looked, answered⟩ := count_reads consistent now path value
      exact ⟨looked, congrArg Answer.count answered⟩
  | mergePage path offset limit =>
      obtain ⟨looked, answered⟩ := mergePage_reads consistent now path offset limit
      exact ⟨looked, congrArg Answer.page answered⟩
  | namespaceExists name =>
      exact ⟨.refl consistent, congrArg Answer.exists_ (namespaceExists_reads consistent name)⟩
  | namespaceViews name =>
      obtain ⟨looked, answered⟩ := namespaceViews_reads consistent now name
      exact ⟨looked, congrArg Answer.views answered⟩
  | valueCount name =>
      obtain ⟨looked, answered⟩ := valueCount_reads consistent now name
      exact ⟨looked, congrArg Answer.values answered⟩

theorem Request.does (consistent : Consistent names dir exempt db) (now : DateTime) {r : Request}
    (marks : r.Marks names dir exempt db) :
    Does names dir exempt (r.effect db now) db (r.apply db (.sound names dir now)).1 ∧
      (r.apply db (.sound names dir now)).2 = r.answer (held names dir db) now := by
  cases r with
  | write origin path value when opts tags =>
      exact ⟨recordWrite_does consistent now marks origin value when opts tags, rfl⟩
  | merge path value incoming => exact ⟨merge_does consistent now marks.1 marks.2, rfl⟩
  | setTags path value tags => exact ⟨setTags_does consistent now path value tags, rfl⟩
  | delete name => exact ⟨delete_does consistent now name marks, rfl⟩
  | read query =>
      obtain ⟨looked, answered⟩ := query.reads consistent now
      exact ⟨looked.does, congrArg some answered⟩

end

end SightingDB
