import SightingDB.Contents
import SightingDB.DnsAnswers

/-!
What DNS reveals: an answer is settled by what is held in the exposed namespaces and by the tally, and answering leaves what
is held as it was.
-/
namespace SightingDB

/-! ## Looking -/

section Looking

variable {names : ShardFiles} {dir : Dir} {db : Database} {now : DateTime}

/-- Every shard is in its place, or no shard was ever put out of memory. -/
def Readable (names : ShardFiles) (dir : Dir) (db : Database) : Prop :=
  (∃ exempt, Consistent names dir exempt db) ∨ ∀ shard, db.evicted shard = false

/-- All is held as before, and can be read as before. -/
def Kept (names : ShardFiles) (dir : Dir) (db db' : Database) : Prop :=
  Readable names dir db' ∧ held names dir db' = held names dir db

theorem Kept.refl (readable : Readable names dir db) : Kept names dir db db := ⟨readable, rfl⟩

theorem Kept.trans {db' db'' : Database} (first : Kept names dir db db') (second : Kept names dir db' db'') :
    Kept names dir db db'' :=
  ⟨second.1, second.2.trans first.2⟩

theorem Looks.kept {exempt : String → Prop} {db' : Database} (looked : Looks names dir exempt db db') :
    Kept names dir db db' :=
  ⟨.inl ⟨exempt, looked.consistent⟩, looked.held⟩

/-- Where all is in memory a lookup finds what is there. -/
theorem namespace_resident (here : ∀ shard, db.evicted shard = false) (w : World) (name : String) :
    db.namespace_ w name = (db.touch w (shardOf name), db.namespaces.get name) := by
  have listed : (db.touch w (shardOf name)).catalogued (shardOf name) name = false := by
    have resident : (db.touch w (shardOf name)).evicted (shardOf name) = false := by rw [evicted_touch, here]
    unfold Database.evicted at resident
    unfold Database.catalogued
    cases known : (db.touch w (shardOf name)).shards.get (shardOf name) with
    | none => rfl
    | some meta_ =>
        rw [known] at resident
        dsimp only at resident ⊢
        rw [resident, Bool.false_and]
  unfold Database.namespace_
  dsimp only
  rw [Database.touch_namespaces, listed]
  cases db.namespaces.get name with
  | none => rfl
  | some ns => rfl

theorem kept_touch (here : ∀ shard, db.evicted shard = false) (w : World) (shard : String) :
    Kept names dir db (db.touch w shard) :=
  ⟨.inr fun k => by rw [evicted_touch, here], funext (held_touch w shard)⟩

theorem held_resident (here : ∀ shard, db.evicted shard = false) (name : String) :
    held names dir db name = (db.namespaces.get name).map (·.values) := by
  unfold held
  rw [here]
  cases db.namespaces.get name with
  | none => rfl
  | some ns => rfl

theorem count_kept (readable : Readable names dir db) (now : DateTime) (path value : String) :
    Kept names dir db (db.count (.sound names dir now) path value).1 ∧
      (db.count (.sound names dir now) path value).2 = Contents.count (held names dir db) now path value := by
  rcases readable with ⟨exempt, consistent⟩ | here
  · obtain ⟨looked, counted⟩ := count_reads consistent now path value
    exact ⟨looked.kept, counted⟩
  · unfold Database.count Contents.count
    rw [namespace_resident here, held_resident here]
    cases db.namespaces.get path with
    | none => exact ⟨kept_touch here _ _, rfl⟩
    | some ns => exact ⟨kept_touch here _ _, rfl⟩

theorem view_kept (readable : Readable names dir db) (now : DateTime) (path value : String) (consensus : Nat)
    (withStats : Bool) :
    Kept names dir db (db.view (.sound names dir now) path value consensus withStats).1 ∧
      (db.view (.sound names dir now) path value consensus withStats).2 =
        Contents.view (held names dir db) now path value consensus withStats := by
  rcases readable with ⟨exempt, consistent⟩ | here
  · obtain ⟨looked, viewed⟩ := view_reads consistent now path value consensus withStats
    exact ⟨looked.kept, viewed⟩
  · unfold Database.view Contents.view
    rw [namespace_resident here, held_resident here]
    cases db.namespaces.get path with
    | none => exact ⟨kept_touch here _ _, rfl⟩
    | some ns => exact ⟨kept_touch here _ _, rfl⟩

/-- A value with its tally, as it is held. -/
def Contents.lookedUp (c : Contents) (now : DateTime) (name value : String) : Option AttributeView :=
  c.view now name value (c.count now allNamespace value) false

/-- A read that leaves no shadow tells what is held, or that it is not there. -/
theorem read_kept (readable : Readable names dir db) (now : DateTime) {name : String}
    (open_ : startsWith name configPrefix = false) (value : String) :
    Kept names dir db (read db (.sound names dir now) name value false false).1 ∧
      match Contents.lookedUp (held names dir db) now name value with
      | some view => (read db (.sound names dir now) name value false false).2 = .ok view
      | none => (read db (.sound names dir now) name value false false).2 = .error (.valueNotFound name value) ∨
          (read db (.sound names dir now) name value false false).2 = .error (.pathNotFound name value) := by
  obtain ⟨counted, tally⟩ := count_kept readable now allNamespace value
  obtain ⟨viewed, found⟩ := view_kept counted.1 now name value (Contents.count (held names dir db) now allNamespace value) false
  unfold read Contents.lookedUp
  rw [open_]
  simp only [Bool.false_eq_true, if_false, tally]
  rw [counted.2] at found
  rw [← found]
  refine ⟨counted.trans viewed, ?_⟩
  cases (((db.count (.sound names dir now) allNamespace value).1.view (.sound names dir now) name value
      (Contents.count (held names dir db) now allNamespace value) false).2) with
  | some view => rfl
  | none =>
      dsimp only
      split_ifs
      · exact .inl rfl
      · exact .inr rfl

end Looking

namespace Dns

/-! ## Names -/

/-- A label in lowercase, byte for byte. -/
def lowerBytes (label : List UInt8) : List UInt8 := label.map fun b => if 0x41 ≤ b ∧ b ≤ 0x5a then b + 0x20 else b

theorem lowerBytes_ascii {label : List UInt8} : (∀ b ∈ lowerBytes label, b.toNat < 128) ↔ ∀ b ∈ label, b.toNat < 128 := by
  unfold lowerBytes
  rw [List.forall_mem_map]
  refine forall₂_congr fun b _ => ?_
  exact Numerals.byte_of_table (p := fun n => (if 0x41 ≤ n ∧ n ≤ 0x5a then n + 0x20 else n).toNat < 128 ↔ n.toNat < 128)
    (by decide +kernel) b.toNat_lt

theorem toLower_small {c : Char} : c.toLower.toNat < 128 ↔ c.toNat < 128 := by
  unfold Char.toLower
  split_ifs with capital
  · have high : c.toNat ≤ 90 := capital.2
    refine iff_of_true ?_ (by omega)
    have sum : (c.val + ('a'.val - 'A'.val)).toNat = c.val.toNat + 32 := by
      rw [UInt32.toNat_add]
      change (c.toNat + 32) % 2 ^ 32 = c.toNat + 32
      omega
    change (c.val + ('a'.val - 'A'.val)).toNat < 128
    rw [sum]
    change c.toNat + 32 < 128
    omega
  · rfl

/-- Shown as text and in lowercase, an ASCII label is its bytes in lowercase. -/
theorem lower_shown {label : List UInt8} (ascii : ∀ b ∈ label, b.toNat < 128) :
    asciiLowercase (Utf8.lossy label) = String.ofList ((lowerBytes label).map fun b => Char.ofNat b.toNat) := by
  unfold asciiLowercase Utf8.lossy lowerBytes
  rw [String.toList_ofList, Utf8.shownFrom_ascii ascii, List.map_map, List.map_map]
  refine congrArg String.ofList (List.map_congr_left fun b member => ?_)
  exact Numerals.byte_of_table (p := fun n => (Char.ofNat n.toNat).toLower =
    Char.ofNat (if 0x41 ≤ n ∧ n ≤ 0x5a then n + 0x20 else n).toNat) (by decide +kernel) (ascii b member)

theorem toNat_byte (b : UInt8) : (Char.ofNat b.toNat).toNat = b.toNat :=
  Utf8.toNat_ofNat (.inl (b.toNat_lt.trans (by decide)))

theorem ofNat_inj {b b' : UInt8} (same : Char.ofNat b.toNat = Char.ofNat b'.toNat) : b = b' := by
  have numbers := congrArg Char.toNat same
  rw [toNat_byte, toNat_byte] at numbers
  exact UInt8.toNat_inj.mp numbers

/-- An ASCII label is read like another exactly if they differ in case only. -/
theorem label_read_iff {zone label : List UInt8} (ascii : ∀ b ∈ zone, b.toNat < 128) :
    asciiLowercase (Utf8.lossy zone) = asciiLowercase (Utf8.lossy label) ↔ lowerBytes zone = lowerBytes label := by
  have small := lowerBytes_ascii.mpr ascii
  constructor
  · intro same
    have others : ∀ b ∈ label, b.toNat < 128 := by
      apply Utf8.ascii_of_shownFrom
      intro c member
      have there : c.toLower ∈ (asciiLowercase (Utf8.lossy label)).toList := by
        unfold asciiLowercase Utf8.lossy
        rw [String.toList_ofList, String.toList_ofList]
        exact List.mem_map_of_mem member
      rw [← same, lower_shown ascii, String.toList_ofList] at there
      obtain ⟨b, inside, shown⟩ := List.mem_map.mp there
      rw [← toLower_small, ← shown, toNat_byte]
      exact small b inside
    rw [lower_shown ascii, lower_shown others] at same
    exact List.map_injective_iff.mpr (fun _ _ => ofNat_inj) (String.ofList_injective same)
  · intro same
    have others : ∀ b ∈ label, b.toNat < 128 := lowerBytes_ascii.mp (same ▸ small)
    rw [lower_shown ascii, lower_shown others, same]

/-- Two ways of reading that tell elements apart alike find a list at the end of another alike. -/
theorem suffix_map_iff {α β γ : Type} {f : α → β} {g : α → γ} {zone name : List α}
    (alike : ∀ a ∈ zone, ∀ b, f a = f b ↔ g a = g b) : zone.map f <:+ name.map f ↔ zone.map g <:+ name.map g := by
  have maps : ∀ back : List α, zone.map f = back.map f ↔ zone.map g = back.map g := by
    intro back
    induction zone generalizing back with
    | nil => simp
    | cons a zone ih =>
        cases back with
        | nil => simp
        | cons b back =>
            rw [List.map_cons, List.map_cons, List.map_cons, List.map_cons, List.cons.injEq, List.cons.injEq,
              alike a List.mem_cons_self b, ih (fun c member => alike c (List.mem_cons_of_mem _ member)) back]
  rw [List.suffix_iff_eq_drop, List.suffix_iff_eq_drop, List.length_map, List.length_map, List.length_map, List.length_map,
    ← List.map_drop, ← List.map_drop, maps]

/-- The zone is at the end of a name read as labels exactly if it is there byte for byte, but for case. -/
theorem inside_iff {zone : Name} (ascii : ∀ label ∈ zone.labels, ∀ b ∈ label, b.toNat < 128) (name : Name) :
    labelsOf zone <:+ labelsOf name ↔ zone.labels.map lowerBytes <:+ name.labels.map lowerBytes :=
  suffix_map_iff fun label member _ => label_read_iff (ascii label member)

variable {base32 : List UInt8 → Option (List UInt8)} {qlabels zone : List String} {exposed : List Exposed}

theorem stripSuffix_eq_some {rest : List String} : stripSuffix qlabels zone = some rest ↔ qlabels = rest ++ zone := by
  unfold stripSuffix
  rw [Option.ite_none_right_eq_some, List.isSuffixOf_iff_suffix]
  constructor
  · rintro ⟨⟨front, whole⟩, taken⟩
    have length : qlabels.length - zone.length = front.length := by
      rw [← whole, List.length_append, Nat.add_sub_cancel]
    rw [length, ← whole, List.take_left] at taken
    rw [← whole, Option.some.inj taken]
  · intro whole
    refine ⟨⟨rest, whole.symm⟩, ?_⟩
    rw [whole, List.length_append, Nat.add_sub_cancel, List.take_left]

/-- A name resolves if, before the zone, there is a label that names an exposed namespace, and before that labels that decode. -/
theorem resolve_eq_some {lookup : Lookup} : resolve base32 qlabels zone exposed = some lookup ↔
    ∃ values label, qlabels = values ++ label :: zone ∧ values ≠ [] ∧
      exposed.find? (·.label = label) = some lookup.exposed ∧ decode base32 values lookup.exposed.encoding = some lookup.value := by
  unfold resolve
  simp only [Option.bind_eq_bind, Option.bind_eq_some_iff, stripSuffix_eq_some, Option.pure_def, Option.ite_none_left_eq_some,
    List.isEmpty_iff, Option.some.injEq]
  constructor
  · rintro ⟨rest, whole, label, last, some_, e, found, value, decoded, rfl⟩
    refine ⟨rest.dropLast, label, ?_, some_, found, decoded⟩
    rw [whole, List.append_cons, List.dropLast_append_getLast? label last]
  · rintro ⟨values, label, whole, some_, found, decoded⟩
    refine ⟨values ++ [label], by rw [whole, List.append_assoc, List.singleton_append], label, ?_, ?_, lookup.exposed, found,
      lookup.value, ?_, rfl⟩
    · rw [List.getLast?_concat]
    · rw [List.dropLast_concat]
      exact some_
    · rw [List.dropLast_concat]
      exact decoded

/-! ## Answers -/

/-- What the response says, where it comes to an outcome. -/
def Responder.respondBy (r : Responder) (library : Library) (outcome : Query → Outcome) (request : Message) : Message :=
  let metadata := { library.responseFromRequest request.metadata with authoritative := true }
  let response : Message := ⟨metadata, [], [], []⟩
  if request.metadata.opCode ≠ .query then { response with metadata.responseCode := .notImp }
  else
    match request.queries.head? with
    | none => { response with metadata.responseCode := .formErr }
    | some query =>
        let response := { response with queries := [query] }
        if query.queryClass ≠ .in_ then { response with metadata.responseCode := .notImp }
        else r.finish library response (outcome query)

/-- What is held settles the outcome. -/
def Responder.outcome (r : Responder) (library : Library) (c : Contents) (now : DateTime) (query : Query) : Outcome :=
  let qlabels := labelsOf query.name
  if !r.zoneLabels.isSuffixOf qlabels then .refused
  else if qlabels.length = r.zoneLabels.length then r.answerApex library query.queryType
  else
    match resolve library.base32 qlabels r.zoneLabels r.exposed with
    | none => .nxDomain
    | some lookup =>
        match c.lookedUp now lookup.exposed.namespace_ lookup.value with
        | some view => r.answerFound query view
        | none => .nxDomain

/-- Nothing exposed is configuration, and looking is not counted. -/
structure Responder.Discreet (r : Responder) : Prop where
  exposed : ∀ e ∈ r.exposed, startsWith e.namespace_ configPrefix = false
  shadow : r.shadow = false

section

variable {names : ShardFiles} {dir : Dir} {db : Database} {r : Responder} {library : Library}

theorem resolve_exposed {lookup : Lookup} (resolved : resolve base32 qlabels zone exposed = some lookup) :
    lookup.exposed ∈ exposed := by
  obtain ⟨_, _, _, _, found, _⟩ := resolve_eq_some.mp resolved
  exact List.mem_of_find?_eq_some found

theorem answer_kept (discreet : r.Discreet) (readable : Readable names dir db) (now : DateTime) (query : Query) :
    Kept names dir db (r.answer library db (.sound names dir now) query).1 ∧
      (r.answer library db (.sound names dir now) query).2 = r.outcome library (held names dir db) now query := by
  unfold Responder.answer Responder.outcome
  dsimp only
  split_ifs
  · exact ⟨.refl readable, rfl⟩
  · exact ⟨.refl readable, rfl⟩
  · cases resolved : resolve library.base32 (labelsOf query.name) r.zoneLabels r.exposed with
    | none => exact ⟨.refl readable, rfl⟩
    | some lookup =>
        have open_ := discreet.exposed lookup.exposed (resolve_exposed resolved)
        obtain ⟨kept, told⟩ := read_kept readable now open_ lookup.value
        dsimp only
        rw [discreet.shadow]
        rcases fetched : SightingDB.read db (.sound names dir now) lookup.exposed.namespace_ lookup.value false false with
          ⟨after, result⟩
        rw [fetched] at kept told
        cases seen : Contents.lookedUp (held names dir db) now lookup.exposed.namespace_ lookup.value with
        | some view =>
            rw [seen] at told
            dsimp only at told
            subst told
            exact ⟨kept, rfl⟩
        | none =>
            rw [seen] at told
            dsimp only at told
            rcases told with rfl | rfl
            · exact ⟨kept, rfl⟩
            · exact ⟨kept, rfl⟩

theorem respond_kept (discreet : r.Discreet) (readable : Readable names dir db) (now : DateTime) (request : Message) :
    Kept names dir db (r.respond library db (.sound names dir now) request).1 ∧
      (r.respond library db (.sound names dir now) request).2 =
        r.respondBy library (r.outcome library (held names dir db) now) request := by
  unfold Responder.respond Responder.respondBy
  dsimp only
  split_ifs
  · exact ⟨.refl readable, rfl⟩
  · cases request.queries.head? with
    | none => exact ⟨.refl readable, rfl⟩
    | some query =>
        dsimp only
        split_ifs
        · exact ⟨.refl readable, rfl⟩
        · obtain ⟨kept, same⟩ := @answer_kept names dir db r library discreet readable now query
          refine ⟨kept, ?_⟩
          dsimp only
          rw [same]

end

/-- The same is held where DNS may look. -/
def AgreeOn (exposed : List Exposed) (c c' : Contents) : Prop :=
  (∀ e ∈ exposed, c e.namespace_ = c' e.namespace_) ∧ c allNamespace = c' allNamespace

/-- What is held elsewhere does not matter. -/
theorem outcome_agree {r : Responder} {c c' : Contents} (agree : AgreeOn r.exposed c c') (library : Library) (now : DateTime) :
    r.outcome library c now = r.outcome library c' now := by
  funext query
  unfold Responder.outcome
  dsimp only
  cases resolved : resolve library.base32 (labelsOf query.name) r.zoneLabels r.exposed with
  | none => rfl
  | some lookup =>
      have there := agree.1 lookup.exposed (resolve_exposed resolved)
      have same : c.lookedUp now lookup.exposed.namespace_ lookup.value = c'.lookedUp now lookup.exposed.namespace_ lookup.value := by
        unfold Contents.lookedUp Contents.view Contents.count
        rw [there, agree.2]
      dsimp only
      rw [same]

/-- A value that is there and has not expired. -/
def Live (c : Contents) (now : DateTime) (name value : String) : Prop :=
  ∃ vals attr, c name = some vals ∧ vals.get value = some attr ∧ attr.isExpired now = false

theorem lookedUp_live {c : Contents} {now : DateTime} {name value : String} :
    (∃ view, c.lookedUp now name value = some view) ↔ Live c now name value := by
  unfold Contents.lookedUp Contents.view Live
  cases c name with
  | none => simp
  | some vals =>
      rw [Option.bind_some]
      unfold Namespace.view
      dsimp only
      cases there : vals.get value with
      | none => simp [there]
      | some attr =>
          cases expired : attr.isExpired now with
          | false => simp [there, expired]
          | true => simp [there, expired]

/-- What a name has to be to be told of: before the zone a label that names an exposed namespace, before that labels that
decode, and what they decode to live there. -/
def Told (r : Responder) (library : Library) (c : Contents) (now : DateTime) (name : Name) : Prop :=
  ∃ values label e value, labelsOf name = values ++ label :: r.zoneLabels ∧ values ≠ [] ∧
    r.exposed.find? (·.label = label) = some e ∧ decode library.base32 values e.encoding = some value ∧ Live c now e.namespace_ value

theorem outcome_nxDomain {r : Responder} {library : Library} {c : Contents} {now : DateTime} {query : Query}
    (inside : r.zoneLabels <:+ labelsOf query.name) (below : r.zoneLabels.length < (labelsOf query.name).length) :
    r.outcome library c now query = .nxDomain ↔ ¬Told r library c now query.name := by
  have found : ∀ view, r.answerFound query view ≠ .nxDomain := by
    intro view none_
    unfold Responder.answerFound at none_
    cases type : query.queryType <;> rw [type] at none_ <;> cases none_
  unfold Responder.outcome
  dsimp only
  rw [List.isSuffixOf_iff_suffix.mpr inside, Bool.not_true, if_neg Bool.false_ne_true, if_neg below.ne']
  cases resolved : resolve library.base32 (labelsOf query.name) r.zoneLabels r.exposed with
  | none =>
      refine iff_of_true rfl ?_
      rintro ⟨values, label, e, value, whole, some_, named, decoded, _⟩
      have some_lookup : resolve library.base32 (labelsOf query.name) r.zoneLabels r.exposed = some ⟨e, value⟩ :=
        resolve_eq_some.mpr ⟨values, label, whole, some_, named, decoded⟩
      rw [resolved] at some_lookup
      cases some_lookup
  | some lookup =>
      have told : Told r library c now query.name ↔ Live c now lookup.exposed.namespace_ lookup.value := by
        constructor
        · rintro ⟨values, label, e, value, whole, some_, named, decoded, live⟩
          have same : resolve library.base32 (labelsOf query.name) r.zoneLabels r.exposed = some ⟨e, value⟩ :=
            resolve_eq_some.mpr ⟨values, label, whole, some_, named, decoded⟩
          rw [resolved] at same
          obtain rfl := Option.some.inj same
          exact live
        · intro live
          obtain ⟨values, label, whole, some_, named, decoded⟩ := resolve_eq_some.mp resolved
          exact ⟨values, label, lookup.exposed, lookup.value, whole, some_, named, decoded, live⟩
      rw [told, ← lookedUp_live]
      dsimp only
      cases seen : c.lookedUp now lookup.exposed.namespace_ lookup.value with
      | none => simp
      | some view => simp [found]

/-- Databases that agree on the exposed namespaces and on the tally are answered from alike, at the same instant; answering
changes nothing that is held. A name outside the zone is refused, and one below its apex is told of or there is no such name. -/
theorem reveals_only_exposed (r : Responder) (library : Library) (discreet : r.Discreet) (now : DateTime)
    (names names' : ShardFiles) (dir dir' : Dir) (db db' : Database) (readable : Readable names dir db)
    (readable' : Readable names' dir' db') :
    (AgreeOn r.exposed (held names dir db) (held names' dir' db') → ∀ request,
      (r.respond library db (.sound names dir now) request).2 = (r.respond library db' (.sound names' dir' now) request).2) ∧
    (∀ request, held names dir (r.respond library db (.sound names dir now) request).1 = held names dir db) ∧
    (∀ request query, request.metadata.opCode = .query → request.queries.head? = some query → query.queryClass = .in_ →
      let code := (r.respond library db (.sound names dir now) request).2.metadata.responseCode
      (¬r.zoneLabels <:+ labelsOf query.name → code = .refused) ∧
      (r.zoneLabels <:+ labelsOf query.name → r.zoneLabels.length < (labelsOf query.name).length →
        (code = .nxDomain ↔ ¬Told r library (held names dir db) now query.name))) ∧
    ((∀ label ∈ r.zone.labels, ∀ b ∈ label, b.toNat < 128) → ∀ name : Name,
      r.zoneLabels <:+ labelsOf name ↔ r.zone.labels.map lowerBytes <:+ name.labels.map lowerBytes) := by
  have kept := @respond_kept names dir db r library discreet readable now
  have kept' := @respond_kept names' dir' db' r library discreet readable' now
  refine ⟨?_, fun request => (kept request).1.2, ?_, ?_⟩
  · intro agree request
    rw [(kept request).2, (kept' request).2, outcome_agree agree]
  · intro request query standard first class_
    have code : (r.respond library db (.sound names dir now) request).2 =
        r.finish library ⟨{ library.responseFromRequest request.metadata with authoritative := true }, [query], [], []⟩
          (r.outcome library (held names dir db) now query) := by
      rw [(kept request).2]
      unfold Responder.respondBy
      dsimp only
      rw [if_neg (not_not.mpr standard), first]
      dsimp only
      rw [if_neg (not_not.mpr class_)]
    rw [code]
    refine ⟨fun outside => ?_, fun inside below => ?_⟩
    · have refused : r.outcome library (held names dir db) now query = .refused := by
        unfold Responder.outcome
        have off : r.zoneLabels.isSuffixOf (labelsOf query.name) = false := by
          rw [← Bool.not_eq_true, List.isSuffixOf_iff_suffix]
          exact outside
        dsimp only
        rw [off, Bool.not_false, if_pos rfl]
      rw [refused]
      rfl
    · rw [← outcome_nxDomain inside below]
      cases r.outcome library (held names dir db) now query with
      | answers records => simp [Responder.finish]
      | noData => simp [Responder.finish]
      | nxDomain => simp [Responder.finish]
      | refused => simp [Responder.finish]
  · intro ascii name
    rw [r.read]
    exact inside_iff ascii name

def sampleLibrary : Library where
  responseFromRequest request := { request with authoritative := false, responseCode := .noError }
  fromLabels labels := some ⟨labels⟩
  appendDomain name domain := some ⟨name.labels ++ domain.labels⟩
  base32 bytes := if bytes.isEmpty then some [] else none

/-- One namespace of domains is exposed in a zone of one label. -/
def sampleResponder : Responder := .new ⟨[[0x73, 0x64, 0x62]]⟩ [⟨"d", "malware/domains", .domain⟩] 60 false

/-- A domain that is known, and whatever is held elsewhere. -/
def sampleDatabase (others : OrderedMap String Namespace) : Database :=
  { Database.withNode ⟨0, 0⟩ .storeEverything "node" with
    namespaces := others.insert "malware/domains" ⟨OrderedMap.empty.insert "evil.com" (.new "evil.com"), false⟩ }

/-- `EVIL.com.d.sdb`, type A. -/
def sampleQuery : Query := ⟨⟨[[0x45, 0x56, 0x49, 0x4c], [0x63, 0x6f, 0x6d], [0x64], [0x73, 0x64, 0x62]]⟩, .a, .in_⟩

def sampleRequest : Message := ⟨⟨7, .query, false, true, false, .noError⟩, [sampleQuery], [], []⟩

/-- What is hidden elsewhere makes no difference, and the known domain is told of. -/
theorem reveals_only_exposed_sample :
    (sampleResponder.respond sampleLibrary (sampleDatabase ∅) .sample sampleRequest).2 =
        (sampleResponder.respond sampleLibrary (sampleDatabase (OrderedMap.empty.insert "secrets" .empty)) .sample sampleRequest).2 ∧
      (sampleResponder.respond sampleLibrary (sampleDatabase ∅) .sample sampleRequest).2.metadata.responseCode ≠ .nxDomain := by
  have discreet : sampleResponder.Discreet := ⟨by decide, rfl⟩
  obtain ⟨same, _, told, _⟩ := reveals_only_exposed sampleResponder sampleLibrary discreet .unixEpoch .sample .sample ⟨none, ∅⟩
    ⟨none, ∅⟩ (sampleDatabase ∅) (sampleDatabase (OrderedMap.empty.insert "secrets" .empty)) (.inr fun _ => rfl)
    (.inr fun _ => rfl)
  refine ⟨same ⟨?_, rfl⟩ sampleRequest, ?_⟩
  · intro e exposed
    rw [List.mem_singleton.mp exposed]
    rfl
  · intro missing
    refine (told sampleRequest sampleQuery rfl rfl rfl).2 (by decide) (by decide) |>.mp missing ?_
    exact ⟨["evil", "com"], "d", ⟨"d", "malware/domains", .domain⟩, "evil.com", by decide, by decide, by decide, by decide,
      _, _, rfl, rfl, rfl⟩

end Dns

end SightingDB
