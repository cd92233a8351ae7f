import SightingDB.Text

/-!
Namespaces are flat paths. Their first non-empty segment decides the shard they live in
and whether they are the database's own.
-/
namespace SightingDB

/-- Namespace holding every value ever written, used to derive consensus. -/
def allNamespace : String := "_all"

/-- Start of the namespaces that record reads. -/
def shadowPrefix : String := "_shadow/"

/-- Start of the namespaces that hold the server's own configuration. -/
def configPrefix : String := "_config/"

/-- Everything internal shares one shard. -/
def internalShard : String := "_internal"

/-- The first segment that is not empty. -/
def firstSegment (namespace_ : String) : Option String := (splitOnChar '/' namespace_).find? (· ≠ "")

def shardOf (namespace_ : String) : String :=
  let first := (firstSegment namespace_).getD internalShard
  if startsWithChar first '_' then internalShard else first

def isInternal (namespace_ : String) : Bool :=
  match firstSegment namespace_ with
  | none => false
  | some first => startsWithChar first '_'

/-- Whether a namespace's values are tallied in `_all`. -/
def countsTowardsConsensus (name : String) : Bool :=
  name ≠ allNamespace && !startsWith name shadowPrefix && !startsWith name configPrefix

/-- Which ordinary namespaces a server stores. -/
structure StoragePolicy where
  prefixes : List String
  everything : Bool
  deriving DecidableEq

namespace StoragePolicy

def storeEverything : StoragePolicy := ⟨[], true⟩

/-- Whether a path is at or under another, by whole segments. -/
def isAtOrUnder (path root : String) : Bool :=
  path = root || match stripStart path root with
    | none => false
    | some rest => startsWithChar rest '/'

/-- A root that trims to nothing covers the whole tree, whatever else is listed. -/
def fromPrefixes : List String → List String → StoragePolicy
  | held, [] => ⟨held, false⟩
  | held, raw :: rest =>
      let root := trimSlashes (trim raw)
      if root = "" then storeEverything
      else fromPrefixes (if root ∈ held then held else held ++ [root]) rest

/-- Whether no ordinary namespace is held at all. -/
def isRouter (policy : StoragePolicy) : Bool := !policy.everything && policy.prefixes.isEmpty

/-- Internal namespaces are kept by every server. -/
def holds (policy : StoragePolicy) (namespace_ : String) : Bool :=
  isInternal namespace_ || policy.everything ||
    policy.prefixes.any fun root => isAtOrUnder (trimSlashes namespace_) root

end StoragePolicy

theorem startsWith_append (start rest : String) : startsWith (start ++ rest) start = true := by
  simp [startsWith]

theorem eq_append_of_startsWith {s start : String} (h : startsWith s start = true) :
    ∃ rest, s = start ++ rest := by
  obtain ⟨rest, same⟩ := List.isPrefixOf_iff_prefix.mp h
  exact ⟨String.ofList rest, by rw [← String.toList_inj]; simp [same]⟩

/-- A path whose first segment is read off before its first slash. -/
theorem firstSegment_append (first rest : String) (nonempty : first ≠ "") (free : '/' ∉ first.toList) :
    firstSegment (first ++ "/" ++ rest) = some first := by
  have split : splitOnChar '/' (first ++ "/" ++ rest) = first :: splitOnChar '/' rest := by
    have text : (first ++ "/" ++ rest).toList = first.toList ++ '/' :: rest.toList := by
      simp
    simp only [splitOnChar, text, List.splitOn_append_cons_self_of_not_mem free, List.map_cons,
      String.ofList_toList]
  simp [firstSegment, split, nonempty]

theorem isInternal_of_shadow {name : String} (shadow : startsWith name shadowPrefix = true) :
    isInternal name = true := by
  obtain ⟨rest, rfl⟩ := eq_append_of_startsWith shadow
  have first : firstSegment (shadowPrefix ++ rest) = some "_shadow" :=
    firstSegment_append "_shadow" rest (by decide) (by decide)
  simp only [isInternal, first]
  decide

theorem isInternal_of_config {name : String} (config : startsWith name configPrefix = true) :
    isInternal name = true := by
  obtain ⟨rest, rfl⟩ := eq_append_of_startsWith config
  have first : firstSegment (configPrefix ++ rest) = some "_config" :=
    firstSegment_append "_config" rest (by decide) (by decide)
  simp only [isInternal, first]
  decide

/-- What clients can write is what is tallied. -/
theorem countsTowardsConsensus_of_external {name : String} (external : isInternal name = false) :
    countsTowardsConsensus name = true := by
  have all : name ≠ allNamespace := by
    rintro rfl
    exact absurd external (by decide)
  have shadow : startsWith name shadowPrefix = false := by
    by_contra h
    rw [isInternal_of_shadow (by simpa using h)] at external
    cases external
  have config : startsWith name configPrefix = false := by
    by_contra h
    rw [isInternal_of_config (by simpa using h)] at external
    cases external
  simp [countsTowardsConsensus, all, shadow, config]

@[simp] theorem shardOf_all : shardOf allNamespace = internalShard := by decide

@[simp] theorem countsTowardsConsensus_all : countsTowardsConsensus allNamespace = false := by decide

end SightingDB
