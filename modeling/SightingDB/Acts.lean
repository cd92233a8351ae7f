import SightingDB.Updates

/-!
What operations are made of. Every operation on the store is a series of moves, and so is
every act of a server but a save or an eviction.
-/
namespace SightingDB

/-- The most that can be done within what may come and go. -/
def Scope.of (adds drops : Item → Prop) (blind : Prop) : Scope where
  makes name := adds (.namespace_ name)
  goes name := ∀ item : Item, item.name = name → drops item
  does name e := (∀ v, e.brings v → adds (.value name v)) ∧ (e.takes → ∀ v, drops (.value name v))
  blind := blind

theorem Scope.of_allows (adds drops : Item → Prop) (blind : Prop) : (Scope.of adds drops blind).Allows adds drops where
  makes _ := id
  brings _ _ allowed := allowed.1
  takes _ _ allowed := allowed.2
  goes _ := id

section Operations

variable {w : World} {adds drops : Item → Prop} {blind : Prop} {db : Database}

theorem namespace_moves (name : String) : Moves w adds drops blind db (db.namespace_ w name).1 ∧
    (db.namespace_ w name).2 = (db.namespace_ w name).1.namespaces.get name := by
  obtain ⟨updates, handle⟩ := @namespace_updates w (.of adds drops blind) db name
  exact ⟨updates.moves (Scope.of_allows ..), handle⟩

theorem namespaceOrCreate_moves {name : String} (allowed : adds (.namespace_ name)) (sees : Blind db w name → blind) :
    Moves w adds drops blind db (db.namespaceOrCreate w name).1 ∧
      (db.namespaceOrCreate w name).1.namespaces.get name = some (db.namespaceOrCreate w name).2 := by
  obtain ⟨updates, handle⟩ := @namespaceOrCreate_updates w (.of adds drops blind) db name allowed sees
  exact ⟨updates.moves (Scope.of_allows ..), handle⟩

/-- What a write may bring in: its own value, and one in `_all`. -/
def written (path value : String) (item : Item) : Prop :=
  item.name = allNamespace ∨ item = .namespace_ path ∨ item = .value path value

def keepsAll (_ : Item) : Prop := False

theorem Edit.brings_of_sights {e : Edit} {value v : String} (sighted : e.sights value) (brought : e.brings v) : v = value := by
  cases e with
  | record _ _ _ _ _ _ => exact Eq.trans brought sighted
  | merge _ _ _ => exact Eq.trans brought sighted
  | _ => exact sighted.elim

theorem Scope.writing_allows (path value : String) (blind : Prop) :
    (Scope.writing path value blind).Allows (written path value) keepsAll where
  makes name allowed := by
    rcases allowed with rfl | rfl
    · exact .inr (.inl rfl)
    · exact .inl rfl
  brings name e allowed v brought := by
    obtain ⟨rfl | rfl, sighted⟩ := allowed
    · rw [Edit.brings_of_sights sighted brought]
      exact .inr (.inr rfl)
    · exact .inl rfl
  takes name e allowed taken := by
    cases e <;> first | exact allowed.2.elim | exact taken.elim
  goes _ := False.elim

theorem recordWrite_moves (origin path value : String) (when : DateTime) (opts : WriteOpts) (tags : String) :
    Moves w (written path value) keepsAll (Blind db w path ∨ Blind db w allNamespace) db
      (db.recordWrite w origin path value when opts tags).1 :=
  (recordWrite_updates origin path value when opts tags).moves (Scope.writing_allows ..)

theorem releaseAll_moves (dropped : ∀ v, drops (.value allNamespace v)) (values : List String) :
    Moves w adds drops blind db (values.foldl (fun db value => db.releaseConsensus w value) db) :=
  (@releaseAll_updates w (.of adds drops blind) db (fun _ _ => ⟨fun _ => False.elim, fun _ => dropped⟩) values).moves
    (Scope.of_allows ..)

theorem erase_moves {name : String} (held : (db.namespaces.get name).isSome = true)
    (allowed : ∀ item : Item, item.name = name → drops item) : Moves w adds drops blind db
      ((({ db with namespaces := db.namespaces.erase name } : Database).markDirty name).uncatalogue name) :=
  (@erase_updates w (.of adds drops blind) db name held allowed).moves (Scope.of_allows ..)

/-- What a deletion may take out: the namespace, and values of `_all`. -/
def deleted (name : String) (item : Item) : Prop := item.name = name ∨ item.name = allNamespace

def anything (_ : Item) : Prop := True

theorem sweepOne_moves (now : DateTime) (name : String) :
    Moves w adds anything blind db (db.sweepOne w now name).1 :=
  (@sweepOne_updates w (.of adds anything blind) db now (fun _ => ⟨fun _ => False.elim, fun _ _ => trivial⟩)
    (fun _ _ => ⟨fun _ => False.elim, fun _ _ => trivial⟩) name).moves (Scope.of_allows ..)

theorem pruneOne_moves (name : String) : Moves w adds anything blind db (db.pruneOne name).1 :=
  (@pruneOne_updates w (.of adds anything blind) db name fun _ _ => trivial).moves (Scope.of_allows ..)

theorem sweep_moves (now : DateTime) (order : List String) :
    Moves w adds anything blind db (db.sweep w now order).1 :=
  (@sweep_updates w (.of adds anything blind) db now (fun _ => ⟨fun _ => False.elim, fun _ _ => trivial⟩)
    (fun _ _ => ⟨fun _ => False.elim, fun _ _ => trivial⟩) (fun _ _ _ => trivial) order).moves (Scope.of_allows ..)

end Operations

/-! ## Acts -/

namespace Act

/-- What an act may bring in. -/
def adds : Act → Item → Prop
  | .request (.write _ path value _ _ _) => written path value
  | .request (.merge path value _) => written path value
  | .request _ => fun _ => False
  | .setConsensus _ => (·.name = allNamespace)
  | .createNamespace name => (· = .namespace_ name)
  | _ => fun _ => False

/-- What an act may take out. -/
def drops : Act → Item → Prop
  | .request (.delete name) => deleted name
  | .request _ => keepsAll
  | .setConsensus _ => (·.name = allNamespace)
  | .sweep _ _ => anything
  | _ => keepsAll

/-- Whether an act makes a namespace in a shard that could not be read. -/
def Blinded (db : Database) (w : World) : Act → Prop
  | .request (.write _ path _ _ _ _) => Blind db w path ∨ Blind db w allNamespace
  | .request (.merge path _ _) => Blind db w path ∨ Blind db w allNamespace
  | .setConsensus _ => Blind db w allNamespace
  | .createNamespace name => Blind db w name
  | _ => False

instance (db : Database) (w : World) : (act : Act) → Decidable (act.Blinded db w)
  | .request (.write _ path _ _ _ _) => inferInstanceAs (Decidable (Blind db w path ∨ Blind db w allNamespace))
  | .request (.merge path _ _) => inferInstanceAs (Decidable (Blind db w path ∨ Blind db w allNamespace))
  | .request (.setTags _ _ _) => inferInstanceAs (Decidable False)
  | .request (.delete _) => inferInstanceAs (Decidable False)
  | .request (.read _) => inferInstanceAs (Decidable False)
  | .setConsensus _ => inferInstanceAs (Decidable (Blind db w allNamespace))
  | .createNamespace name => inferInstanceAs (Decidable (Blind db w name))
  | .sweep _ _ => inferInstanceAs (Decidable False)
  | .evictIdle _ => inferInstanceAs (Decidable False)
  | .save _ => inferInstanceAs (Decidable False)

/-- What an act other than a save or an eviction does. -/
def apply (db : Database) (w : World) : Act → Option Database
  | .request r => some (r.apply db w).1
  | .setConsensus holders => some (db.setConsensus w holders).1
  | .createNamespace name => some (db.createNamespace w name).1
  | .sweep at_ order =>
      if order.Perm db.namespaces.keys then some (db.sweep w at_ order).1 else none
  | _ => none

/-- What an act other than a save or an eviction may do. -/
def scope (db : Database) (w : World) : Act → Scope
  | .request (.write origin path value when opts tags) =>
      .writing path value ((Act.request (.write origin path value when opts tags)).Blinded db w)
  | .request (.merge path value incoming) =>
      .writing path value ((Act.request (.merge path value incoming)).Blinded db w)
  | .request (.setTags path value tags) =>
      ⟨fun _ => False, fun _ => False, fun name e => name = path ∧ e = .retag value tags w.now, False⟩
  | .request (.delete name) =>
      ⟨fun _ => False, (· = name), fun name' e => name' = allNamespace ∧ e.isRelease, False⟩
  | .request (.read _) => ⟨fun _ => False, fun _ => False, fun _ _ => False, False⟩
  | .setConsensus holders =>
      ⟨(· = allNamespace), fun _ => False, fun name e => name = allNamespace ∧ ∃ node, e = .survey holders node w.now,
        Blind db w allNamespace⟩
  | .createNamespace name => ⟨(· = name), fun _ => False, fun _ _ => False, Blind db w name⟩
  | .sweep at_ _ =>
      ⟨fun _ => False, fun _ => True, fun name e => e = .removeExpired at_ ∨ name = allNamespace ∧ e.isRelease, False⟩
  | .evictIdle _ => ⟨fun _ => False, fun _ => False, fun _ _ => False, False⟩
  | .save _ => ⟨fun _ => False, fun _ => False, fun _ _ => False, False⟩

theorem apply_updates {db db' : Database} {w : World} {act : Act} (applied : act.apply db w = some db') :
    Updates w (act.scope db w) db db' := by
  cases act with
  | request r =>
      obtain rfl := Option.some.inj applied
      cases r with
      | write origin path value when opts tags => exact recordWrite_updates origin path value when opts tags
      | merge path value incoming => exact merge_updates path value incoming
      | setTags path value tags => exact setTags_updates ⟨rfl, rfl⟩
      | delete name => exact delete_updates rfl fun _ _ => ⟨rfl, trivial⟩
      | read query => exact query_updates query
  | setConsensus holders =>
      obtain rfl := Option.some.inj applied
      exact setConsensus_updates rfl (fun node => ⟨rfl, node, rfl⟩) id
  | createNamespace name =>
      obtain rfl := Option.some.inj applied
      exact createNamespace_updates rfl id
  | sweep at_ order =>
      simp only [apply] at applied
      split_ifs at applied
      obtain rfl := Option.some.inj applied
      exact @sweep_updates w ((Act.sweep at_ order).scope db w) db at_ (fun _ => .inl rfl) (fun _ _ => .inr ⟨rfl, trivial⟩)
        (fun _ => trivial) order
  | evictIdle at_ => cases applied
  | save order => cases applied

theorem scope_allows (act : Act) (db : Database) (w : World) : (act.scope db w).Allows act.adds act.drops := by
  have releases : ∀ {e : Edit} {v : String}, e.isRelease → ¬ e.brings v := by
    intro e v release
    cases e <;> first | exact release.elim | exact id
  cases act with
  | request r =>
      cases r with
      | write origin path value when opts tags => exact Scope.writing_allows ..
      | merge path value incoming => exact Scope.writing_allows ..
      | setTags path value tags =>
          refine ⟨fun _ => False.elim, ?_, ?_, fun _ => False.elim⟩
          · rintro name e ⟨_, rfl⟩ v brought
            exact brought.elim
          · rintro name e ⟨_, rfl⟩ taken
            exact taken.elim
      | delete name =>
          exact ⟨fun _ => False.elim, fun _ _ allowed _ brought => (releases allowed.2 brought).elim,
            fun _ _ allowed _ _ => .inr allowed.1, fun _ gone _ mine => .inl (mine.trans gone)⟩
      | read query => exact ⟨fun _ => False.elim, fun _ _ => False.elim, fun _ _ => False.elim, fun _ => False.elim⟩
  | setConsensus holders =>
      exact ⟨fun _ => id, fun _ _ allowed _ _ => allowed.1, fun _ _ allowed _ _ => allowed.1, fun _ => False.elim⟩
  | createNamespace name =>
      exact ⟨fun _ made => congrArg Item.namespace_ made, fun _ _ => False.elim, fun _ _ => False.elim, fun _ => False.elim⟩
  | sweep at_ order =>
      refine ⟨fun _ => False.elim, fun name e allowed v brought => ?_, fun _ _ _ _ _ => trivial, fun _ _ _ _ => trivial⟩
      rcases allowed with rfl | ⟨_, release⟩
      · exact brought.elim
      · exact (releases release brought).elim
  | evictIdle at_ => exact ⟨fun _ => False.elim, fun _ _ => False.elim, fun _ _ => False.elim, fun _ => False.elim⟩
  | save order => exact ⟨fun _ => False.elim, fun _ _ => False.elim, fun _ _ => False.elim, fun _ => False.elim⟩

theorem apply_moves {db db' : Database} {w : World} {act : Act} (applied : act.apply db w = some db') :
    Moves w act.adds act.drops (act.Blinded db w) db db' := by
  have moves := (apply_updates applied).moves (act.scope_allows db w)
  refine moves.mono (fun _ => id) (fun _ => id) ?_
  cases act with
  | request r => cases r <;> exact id
  | _ => exact id

end Act

end SightingDB
