import SightingDB.BulkAccess

/-!
The dry run of a batch. `/vwb` decides every item by the rules `/wb` decides its own items
by; for a batch that is passed on, `/wb` answers what the peers say instead.
-/
namespace SightingDB

/-! ## Answers without counts -/

def Verdict.text : Verdict → String
  | .ok => "ok"
  | .mixed => "partial"
  | .failed => "failed"

namespace Reply

/-- The overall message of an answer. -/
def message (reply : Reply) : String :=
  match reply.body with
  | .message text => text
  | .bulk response => response.message.text
  | .written _ _ => "ok"

def items (reply : Reply) : List BulkWriteItem :=
  match reply.body with
  | .bulk response => response.items
  | _ => []

end Reply

/-- The same status and overall message, and the same status and error for every item. -/
structure SameAnswer (reply reply' : Reply) : Prop where
  status : reply.status = reply'.status
  message : reply.message = reply'.message
  items : reply.items.map (fun item => (item.index, item.status, item.error)) =
    reply'.items.map fun item => (item.index, item.status, item.error)

theorem SameAnswer.refl (reply : Reply) : SameAnswer reply reply := ⟨rfl, rfl, rfl⟩

/-- The outcome with nothing recorded. -/
def Outcome.bare : Outcome → Outcome
  | .ok _ _ => .ok none none
  | .refused message => .refused message
  | .failed message => .failed message

/-- What a client sees of an outcome. -/
def Outcome.shown : Outcome → ItemStatus × Option String
  | .ok _ _ => (.ok, none)
  | .refused message | .failed message => (.error, some message)

namespace Line

def bare (line : Line) : Line := { line with outcome := line.outcome.bare }

def shown (line : Line) : Nat × ItemStatus × Option String := (line.index, line.outcome.shown)

@[simp] theorem bare_failure (line : Line) : line.bare.failure = line.failure := by
  obtain ⟨_, _, _ | _ | _⟩ := line <;> rfl

@[simp] theorem bare_isOk (line : Line) : line.bare.isOk = line.isOk := by
  obtain ⟨_, _, _ | _ | _⟩ := line <;> rfl

@[simp] theorem bare_isRefused (line : Line) : line.bare.isRefused = line.isRefused := by
  obtain ⟨_, _, _ | _ | _⟩ := line <;> rfl

@[simp] theorem bare_shown (line : Line) : line.bare.shown = line.shown := by
  obtain ⟨_, _, _ | _ | _⟩ := line <;> rfl

theorem report_shown (line : Line) :
    (line.report.index, line.report.status, line.report.error) = line.shown := by
  obtain ⟨_, _, _ | _ | _⟩ := line <;> rfl

end Line

theorem bulkReply_same {lines lines' : List Line} {v v' : Nat × Verdict} :
    SameAnswer (bulkReply v lines) (bulkReply v' lines') ↔
      v.1 = v'.1 ∧ v.2.text = v'.2.text ∧ lines.map Line.shown = lines'.map Line.shown := by
  have shown : ∀ lines : List Line, (lines.map Line.report).map (fun item => (item.index, item.status, item.error)) =
      lines.map Line.shown := by
    intro lines
    rw [List.map_map]
    exact List.map_congr_left fun line _ => line.report_shown
  constructor
  · rintro ⟨status, message, items⟩
    exact ⟨status, message, (shown lines).symm.trans (items.trans (shown lines'))⟩
  · rintro ⟨status, message, items⟩
    exact ⟨status, message, (shown lines).trans (items.trans (shown lines').symm)⟩

/-! ## Verdicts -/

theorem failures_isEmpty (lines : List Line) : (lines.filterMap Line.failure).isEmpty = lines.all Line.isOk := by
  induction lines with
  | nil => rfl
  | cons line rest ih =>
      obtain ⟨index, item, _ | _ | _⟩ := line
      · simpa only [List.filterMap_cons, Line.failure, List.all_cons, Line.isOk, Bool.true_and] using ih
      · simp only [List.filterMap_cons, Line.failure, List.all_cons, Line.isOk, Bool.false_and, List.isEmpty_cons]
      · simp only [List.filterMap_cons, Line.failure, List.all_cons, Line.isOk, Bool.false_and, List.isEmpty_cons]

theorem Line.isOk_shown (line : Line) : line.isOk = decide (line.shown.2.1 = .ok) := by
  obtain ⟨_, _, _ | _ | _⟩ := line <;> rfl

/-- The verdict on a batch that was passed on depends on what is shown of it. -/
theorem mergedVerdict_shown {lines lines' : List Line} (same : lines.map Line.shown = lines'.map Line.shown) :
    mergedVerdict lines = mergedVerdict lines' := by
  have shown : ∀ lines : List Line, lines.all Line.isOk = (lines.map Line.shown).all (·.2.1 = .ok) ∧
      lines.countP Line.isOk = (lines.map Line.shown).countP (·.2.1 = .ok) := by
    intro lines
    rw [show Line.isOk = fun line => decide (line.shown.2.1 = .ok) from funext Line.isOk_shown, List.all_map,
      List.countP_map]
    exact ⟨rfl, rfl⟩
  simp only [mergedVerdict, failures_isEmpty, shown lines, shown lines', same]

/-- The two verdicts part on a batch that was refused all the way through. -/
theorem verdict_merged {lines : List Line} (some_ : lines.all Line.isOk = false) :
    verdict lines = mergedVerdict lines ∧ lines.all Line.isRefused = false ∨
      (verdict lines).1 ≠ (mergedVerdict lines).1 ∧ lines.all Line.isRefused = true := by
  simp only [verdict, mergedVerdict, failures_isEmpty, some_, Bool.false_eq_true, if_false]
  by_cases any : 0 < lines.countP Line.isOk
  · obtain ⟨line, member, ok⟩ := List.countP_pos_iff.mp any
    have kept : line.isRefused = false := by
      obtain ⟨_, _, _ | _ | _⟩ := line
      · rfl
      · cases ok
      · cases ok
    refine .inl ⟨by rw [if_pos any, if_pos any], List.all_eq_false.mpr ⟨line, member, by simp [kept]⟩⟩
  · have errors : (lines.filterMap Line.failure).length = lines.length := by
      rw [List.length_filterMap_eq_countP, List.countP_eq_length]
      intro line member
      have wrong : line.isOk ≠ true := fun ok => any (List.countP_pos_iff.mpr ⟨line, member, ok⟩)
      obtain ⟨_, _, _ | _ | _⟩ := line
      · exact absurd rfl wrong
      · rfl
      · rfl
    rw [if_neg any, if_neg any, errors]
    by_cases refused : ∀ line ∈ lines, line.isRefused = true
    · rw [if_pos (List.countP_eq_length.mpr refused)]
      exact .inr ⟨by decide, List.all_eq_true.mpr refused⟩
    · rw [if_neg (mt List.countP_eq_length.mp refused)]
      refine .inl ⟨rfl, ?_⟩
      rw [← Bool.not_eq_true, List.all_eq_true]
      exact refused

theorem verdict_bare (lines : List Line) : verdict (lines.map Line.bare) = verdict lines := by
  simp [verdict, List.filterMap_map, List.countP_map, Function.comp_def]

/-! ## The lines of a batch -/

/-- The lines of a batch whose items are decided one by one. -/
def linesOf (decide_ : Nat → BulkSighting → Outcome) : Nat → List BulkSighting → List Line
  | _, [] => []
  | index, item :: rest => ⟨index, item, decide_ index item⟩ :: linesOf decide_ (index + 1) rest

theorem linesOf_shown {f g : Nat → BulkSighting → Outcome} {index : Nat} {items : List BulkSighting} :
    (linesOf f index items).map Line.shown = (linesOf g index items).map Line.shown ↔
      ∀ k item, items[k]? = some item → (f (index + k) item).shown = (g (index + k) item).shown := by
  induction items generalizing index with
  | nil => simp [linesOf]
  | cons first rest ih =>
      simp only [linesOf, List.map_cons, List.cons.injEq, ih, Line.shown, Prod.mk.injEq, true_and]
      constructor
      · rintro ⟨here, later⟩ k item found
        cases k with
        | zero =>
            obtain rfl := Option.some.inj found
            exact here
        | succ k =>
            have := later k item found
            rwa [show index + 1 + k = index + (k + 1) by omega] at this
      · intro all
        refine ⟨all 0 first rfl, fun k item found => ?_⟩
        have := all (k + 1) item found
        rwa [show index + (k + 1) = index + 1 + k by omega] at this

theorem eachItem_lines {σ : Type} {step : Nat → BulkSighting → σ → σ × Outcome} {f : Nat → BulkSighting → Outcome}
    (steps : ∀ index item st, (step index item st).2.bare = f index item) (index : Nat) (items : List BulkSighting)
    (st : σ) : (Traffic.eachItem step index items st).2.map Line.bare = linesOf f index items := by
  induction items generalizing index st with
  | nil => rfl
  | cons item rest ih =>
      simp only [Traffic.eachItem, linesOf, List.map_cons, ih, Line.bare, steps]

/-! ## What each handler says of an item -/

def ItemCheck.outcome : ItemCheck → Outcome
  | .ok _ => .ok none none
  | .refused message => .refused message
  | .invalid message => .failed message

/-- Why an item is not written. -/
def ItemCheck.reason : ItemCheck → Option String
  | .ok _ => none
  | .refused message | .invalid message => some message

namespace Traffic

section Items

variable {net : Traffic} {s : Nat} {way : List String} {headers : Headers} {st st' : State net.toNetwork}
  {apikey : Option String} {index : Nat} {item : BulkSighting}

/-- Nothing that is checked is about what is stored. -/
theorem checkItem_state : checkItem (net.sites s) (st.dbs s) apikey item = checkItem (net.sites s) (st'.dbs s) apikey item := by
  simp only [checkItem, check_eq (st.stores s), check_eq (st'.stores s)]

/-- What was checked is then recorded. -/
theorem writeItem_bare : (net.writeItem s way headers apikey index item st').2.bare =
    (checkItem (net.sites s) (st.dbs s) apikey item).outcome := by
  rw [@checkItem_state net s st st']
  rcases @checkItem_accepts apikey item _ _ (st'.stores s) with ⟨⟨when, ok, passes⟩, _⟩ | ⟨never, _⟩
  · obtain ⟨_, done, recorded⟩ := @record_log net s way st' index item (net.worlds s) headers.originOf when passes
    simp only [writeItem, ok]
    generalize st'.record (net.worlds s) s way headers.originOf index item when = result at recorded ⊢
    obtain ⟨_, _⟩ := result
    subst recorded
    rfl
  · simp only [writeItem]
    cases checked : checkItem (net.sites s) (st'.dbs s) apikey item with
    | ok when => exact absurd checked (never when)
    | refused message => rfl
    | invalid message => rfl

/-- What the peers say of one item. -/
def entriesAt (peerItems : List (List BulkWriteItem)) (index : Nat) : List BulkWriteItem := peerItems.filterMap (·[index]?)

/-- The reason given for an item that no peer has taken. -/
def relayed (site : Site) (peerItems : List (List BulkWriteItem)) (index : Nat) (item : BulkSighting) : String :=
  if site.galaxy.any fun galaxy => (galaxy.holders item.namespace_).isEmpty then ForwardError.noHolder.text
  else ((entriesAt peerItems index).findSome? (·.error)).getD "no server holding this namespace accepted it"

theorem mergeItem_bare (peerItems : List (List BulkWriteItem)) : (net.mergeItem s peerItems index item st).2.bare =
    if (entriesAt peerItems index).any (·.status = .ok) then .ok none none
    else .failed (relayed (net.sites s) peerItems index item) := by
  cases found : (entriesAt peerItems index).find? (·.status = .ok) with
  | some entry =>
      have taken : (entriesAt peerItems index).any (·.status = .ok) = true :=
        List.any_eq_true.mpr ⟨entry, List.mem_of_find?_eq_some found, (List.find?_some found :)⟩
      rw [if_pos taken]
      simp only [entriesAt] at found
      simp only [mergeItem, found, Outcome.bare]
  | none =>
      have refused : (entriesAt peerItems index).any (·.status = .ok) = false :=
        List.any_eq_false.mpr (List.find?_eq_none.mp found)
      rw [refused, if_neg Bool.false_ne_true]
      simp only [entriesAt] at found
      simp only [mergeItem, found, Outcome.bare, relayed, entriesAt]

end Items

/-! ## The two handlers -/

section Handlers

variable {net : Traffic} {s : Nat} {way : List String} {headers : Headers} {st : State net.toNetwork}
  {apikey : Option String} {items : List BulkSighting} {post : Post net}

/-- What a server's own rules say of each item. -/
def judged (st : State net.toNetwork) (s : Nat) (apikey : Option String) (_ : Nat) (item : BulkSighting) : Outcome :=
  (checkItem (net.sites s) (st.dbs s) apikey item).outcome

theorem eachItem_pure {σ : Type} {step : Nat → BulkSighting → σ → σ × Outcome} {f : Nat → BulkSighting → Outcome}
    {st : σ} (steps : ∀ index item, step index item st = (st, f index item)) (index : Nat) (items : List BulkSighting) :
    eachItem step index items st = (st, linesOf f index items) := by
  induction items generalizing index with
  | nil => rfl
  | cons item rest ih => simp only [eachItem, linesOf, steps, ih]

theorem validateBulk_eq (keyed : (net.sites s).apiKey headers = .ok apikey) : validateBulk s headers items st =
    (st, bulkReply (verdict (linesOf (judged st s apikey) 0 items)) (linesOf (judged st s apikey) 0 items)) := by
  simp only [validateBulk, keyed]
  rw [@eachItem_pure _ _ (judged st s apikey) st]
  intro _ item
  simp only [judged]
  cases checkItem (net.sites s) (st.dbs s) apikey item <;> rfl

/-- A batch that is not passed on. -/
theorem writeBulk_here (keyed : (net.sites s).apiKey headers = .ok apikey)
    (here : (net.sites s).galaxy = none ∨ ∀ item ∈ items, (net.sites s).elsewhere item.namespace_ = false) :
    (writeBulk s way headers post items st).2 =
      bulkReply (verdict (eachItem (net.writeItem s way headers apikey) 0 items st).2)
        (eachItem (net.writeItem s way headers apikey) 0 items st).2 := by
  have ours : (net.sites s).galaxy = none ∨ (items.map (·.namespace_)).filter (net.sites s).elsewhere = [] := by
    refine here.imp id fun all => List.filter_eq_nil_iff.mpr fun name member => ?_
    obtain ⟨item, there, rfl⟩ := List.mem_map.mp member
    simp [all item there]
  simp only [writeBulk, keyed]
  rcases ours with alone | none_
  · rw [alone]
    cases (items.map (·.namespace_)).filter (net.sites s).elsewhere <;> rfl
  · rw [none_]

/-- Items decided here are answered alike. -/
theorem here_same (keyed : (net.sites s).apiKey headers = .ok apikey)
    (here : (net.sites s).galaxy = none ∨ ∀ item ∈ items, (net.sites s).elsewhere item.namespace_ = false) :
    SameAnswer (validateBulk s headers items st).2 (writeBulk s way headers post items st).2 := by
  have same : (eachItem (net.writeItem s way headers apikey) 0 items st).2.map Line.bare =
      linesOf (judged st s apikey) 0 items :=
    eachItem_lines (fun index item st' => @writeItem_bare net s way headers st st' apikey index item) 0 items st
  rw [validateBulk_eq keyed, writeBulk_here keyed here, ← same, verdict_bare]
  refine bulkReply_same.mpr ⟨rfl, rfl, ?_⟩
  simp [Function.comp_def]

/-- What is said of each item of a batch that was passed on. -/
def merged (st : State net.toNetwork) (s : Nat) (apikey : Option String) (peerItems : List (List BulkWriteItem))
    (index : Nat) (item : BulkSighting) : Outcome :=
  if (net.sites s).elsewhere item.namespace_ then
    if (entriesAt peerItems index).any (·.status = .ok) then .ok none none
    else .failed (relayed (net.sites s) peerItems index item)
  else judged st s apikey index item

/-- The items arrays of the peers' answers. -/
def itemsOf (answers : List (String × Reply)) : List (List BulkWriteItem) :=
  answers.filterMap fun answer => match answer.2.body with
    | .bulk response => some response.items
    | _ => none

theorem mergedBatch_lines {st' : State net.toNetwork} (answers : List (String × Reply)) : ∃ lines,
    (net.mergedBatch s way headers apikey items answers st').2 = bulkReply (mergedVerdict lines) lines ∧
      lines.map Line.bare = linesOf (merged st s apikey (itemsOf answers)) 0 items := by
  refine ⟨_, rfl, eachItem_lines (fun index item st' => ?_) 0 items st'⟩
  by_cases ours : ((net.sites s).stores.holds item.namespace_ || isInternal item.namespace_) = true
  · have here : (net.sites s).elsewhere item.namespace_ = false := by
      simpa [Site.elsewhere, or_iff_not_imp_left] using ours
    simp only [ours, if_true, merged, here, Bool.false_eq_true, if_false]
    exact writeItem_bare
  · have away : (net.sites s).elsewhere item.namespace_ = true := by
      simpa [Site.elsewhere] using ours
    simp only [ours, merged, away, if_true]
    exact mergeItem_bare (itemsOf answers)

/-- Of every item passed on, the peers say what the server would say itself: none takes it, and
the reason relayed is the server's own. Some item is permitted. -/
structure Concurs (site : Site) (db : Database) (apikey : Option String) (items : List BulkSighting)
    (peerItems : List (List BulkWriteItem)) : Prop where
  untaken : ∀ index item, items[index]? = some item → site.elsewhere item.namespace_ = true →
    ∀ entry ∈ entriesAt peerItems index, entry.status ≠ .ok
  reasons : ∀ index item, items[index]? = some item → site.elsewhere item.namespace_ = true →
    (checkItem site db apikey item).reason = some (relayed site peerItems index item)
  permitted : ∃ item ∈ items, site.refusalFor apikey item.namespace_ .write = none

/-- An item of someone else's is not written here. -/
theorem checkItem_elsewhere {item : BulkSighting} (away : (net.sites s).elsewhere item.namespace_ = true) :
    ∃ message, (checkItem (net.sites s) (st.dbs s) apikey item).reason = some message ∧
      (checkItem (net.sites s) (st.dbs s) apikey item).outcome.shown = (.error, some message) := by
  have foreign : (net.sites s).accepts apikey item = false := by
    simp only [Site.elsewhere, Bool.and_eq_true, Bool.not_eq_true'] at away
    simp [Site.accepts, away.1]
  rcases @checkItem_accepts apikey item _ _ (st.stores s) with ⟨_, accepts⟩ | ⟨never, _⟩
  · exact absurd (accepts.symm.trans foreign) (by decide)
  · cases checked : checkItem (net.sites s) (st.dbs s) apikey item with
    | ok when => exact absurd checked (never when)
    | refused message => exact ⟨message, rfl, rfl⟩
    | invalid message => exact ⟨message, rfl, rfl⟩

theorem judged_refused (index : Nat) (items : List BulkSighting) :
    (linesOf (judged st s apikey) index items).all Line.isRefused =
      items.all fun item => ((net.sites s).refusalFor apikey item.namespace_ .write).isSome := by
  induction items generalizing index with
  | nil => rfl
  | cons item rest ih =>
      simp only [linesOf, List.all_cons, ih]
      congr 1
      simp only [judged, checkItem]
      cases (net.sites s).refusalFor apikey item.namespace_ .write with
      | some message => rfl
      | none =>
          cases check (st.dbs s) item.namespace_ item.value with
          | error e => rfl
          | ok _ => cases timestampToInstant item.timestamp <;> rfl

theorem judged_notOk {item : BulkSighting} (away : (net.sites s).elsewhere item.namespace_ = true) (index : Nat)
    (items : List BulkSighting) (member : item ∈ items) : (linesOf (judged st s apikey) index items).all Line.isOk = false := by
  induction items generalizing index with
  | nil => cases member
  | cons first rest ih =>
      simp only [linesOf, List.all_cons, Bool.and_eq_false_iff]
      rcases List.mem_cons.mp member with rfl | later
      · obtain ⟨message, _, shown⟩ := @checkItem_elsewhere net s st apikey item away
        refine .inl ?_
        rw [Line.isOk_shown]
        simp only [Line.shown, judged, shown]
        decide
      · exact .inr (ih (index + 1) later)

theorem shown_concurs (peerItems : List (List BulkWriteItem)) :
    (linesOf (judged st s apikey) 0 items).map Line.shown = (linesOf (merged st s apikey peerItems) 0 items).map Line.shown ↔
      ∀ index item, items[index]? = some item → (net.sites s).elsewhere item.namespace_ = true →
        (∀ entry ∈ entriesAt peerItems index, entry.status ≠ .ok) ∧
        (checkItem (net.sites s) (st.dbs s) apikey item).reason = some (relayed (net.sites s) peerItems index item) := by
  rw [linesOf_shown]
  refine forall_congr' fun index => forall_congr' fun item => imp_congr_right fun _ => ?_
  rw [Nat.zero_add]
  cases away : (net.sites s).elsewhere item.namespace_ with
  | false => simp [merged, away]
  | true =>
      obtain ⟨message, reason, shown⟩ := @checkItem_elsewhere net s st apikey item away
      simp only [judged, shown, merged, away, if_true, reason, forall_const]
      cases taken : (entriesAt peerItems index).any (·.status = .ok) with
      | true =>
          obtain ⟨entry, member, ok⟩ := List.any_eq_true.mp taken
          simp only [if_true, Outcome.shown]
          constructor
          · intro same
            cases same
          · intro both
            exact absurd (of_decide_eq_true ok) (both.1 entry member)
      | false =>
          have refused : ∀ entry ∈ entriesAt peerItems index, entry.status ≠ .ok := by
            intro entry member
            simpa using List.any_eq_false.mp taken entry member
          simp only [Bool.false_eq_true, if_false, Outcome.shown, Prod.mk.injEq, true_and]
          exact ⟨fun same => ⟨refused, same⟩, fun both => both.2⟩

/-- A batch that was passed on is answered as the dry run says when the peers concur. -/
theorem merged_same {lines : List Line} {peerItems : List (List BulkWriteItem)}
    (same : lines.map Line.bare = linesOf (merged st s apikey peerItems) 0 items)
    (away : ∃ item ∈ items, (net.sites s).elsewhere item.namespace_ = true) :
    SameAnswer (bulkReply (verdict (linesOf (judged st s apikey) 0 items)) (linesOf (judged st s apikey) 0 items))
      (bulkReply (mergedVerdict lines) lines) ↔ Concurs (net.sites s) (st.dbs s) apikey items peerItems := by
  have shown : lines.map Line.shown = (linesOf (merged st s apikey peerItems) 0 items).map Line.shown := by
    rw [← same]
    simp [Function.comp_def]
  obtain ⟨item, member, foreign⟩ := away
  have verdicts := verdict_merged (@judged_notOk net s st apikey item foreign 0 items member)
  rw [judged_refused] at verdicts
  rw [bulkReply_same, shown, shown_concurs]
  constructor
  · rintro ⟨status, _, agree⟩
    have merges := mergedVerdict_shown (shown.trans ((shown_concurs peerItems).mpr agree).symm)
    refine ⟨fun index item found away => (agree index item found away).1,
      fun index item found away => (agree index item found away).2, ?_⟩
    rcases verdicts with ⟨_, some_⟩ | ⟨differs, _⟩
    · obtain ⟨item, member, permitted⟩ := List.all_eq_false.mp some_
      exact ⟨item, member, by simpa using permitted⟩
    · rw [merges] at status
      exact absurd status differs
  · rintro ⟨untaken, reasons, item, member, permitted⟩
    have agree : ∀ index item, items[index]? = some item → (net.sites s).elsewhere item.namespace_ = true →
        (∀ entry ∈ entriesAt peerItems index, entry.status ≠ .ok) ∧
        (checkItem (net.sites s) (st.dbs s) apikey item).reason = some (relayed (net.sites s) peerItems index item) :=
      fun index item found away => ⟨untaken index item found away, reasons index item found away⟩
    have merges := mergedVerdict_shown (shown.trans ((shown_concurs peerItems).mpr agree).symm)
    rcases verdicts with ⟨equal, _⟩ | ⟨_, all⟩
    · rw [merges, equal]
      exact ⟨rfl, rfl, agree⟩
    · have refused := List.all_eq_true.mp all item member
      rw [permitted] at refused
      cases refused

/-- What the peers answer to a batch passed on to them. -/
def answersOf (post : Post net) (galaxy : Galaxy) (names : List String) (hops : Nat) (origin : String)
    (st : State net.toNetwork) : List (String × Reply) :=
  if hops = 0 then [] else (postAll post hops origin (galaxy.wanted names) st).2.1

theorem forwardBatch_answers (post : Post net) (galaxy : Galaxy) (names : List String) (hops : Nat) (origin : String)
    (st : State net.toNetwork) :
    answersOf post galaxy names hops origin st = [] ∧ (∃ e, (forwardBatch post galaxy names hops origin st).2 = .error e) ∨
      answersOf post galaxy names hops origin st ≠ [] ∧
        (forwardBatch post galaxy names hops origin st).2 = .ok (answersOf post galaxy names hops origin st) := by
  simp only [answersOf, forwardBatch]
  by_cases spent : hops = 0
  · exact .inl ⟨if_pos spent, _, by rw [if_pos spent]⟩
  · rw [if_neg spent, if_neg spent]
    cases asked : (galaxy.wanted names).isEmpty with
    | true => exact .inl ⟨by rw [List.isEmpty_iff.mp asked]; rfl, _, rfl⟩
    | false =>
        simp only [Bool.false_eq_true, if_false]
        generalize postAll post hops origin (galaxy.wanted names) st = result
        obtain ⟨_, answers, _⟩ := result
        cases answers with
        | nil => exact .inl ⟨rfl, _, rfl⟩
        | cons first rest => exact .inr ⟨List.cons_ne_nil _ _, rfl⟩

/-- A batch that could not be passed on is never answered so. -/
theorem forwardFailed_differs (e : ForwardError) (lines : List Line) :
    ¬ SameAnswer (bulkReply (verdict lines) lines) (forwardFailed e) := by
  intro same
  have mine : (verdict lines).1 = 200 ∨ (verdict lines).1 = 403 ∨ (verdict lines).1 = 400 := by
    simp only [verdict]
    split_ifs <;> simp
  have theirs : (forwardFailed e).status = 421 ∨ (forwardFailed e).status = 508 ∨ (forwardFailed e).status = 502 := by
    cases e <;> simp [forwardFailed]
  have status : (verdict lines).1 = (forwardFailed e).status := same.status
  omega

/-- When the dry run and the write answer alike, for a batch that has to be passed on. -/
theorem passed_same {galaxy : Galaxy} (keyed : (net.sites s).apiKey headers = .ok apikey)
    (known : (net.sites s).galaxy = some galaxy) (away : ∃ item ∈ items, (net.sites s).elsewhere item.namespace_ = true) :
    SameAnswer (validateBulk s headers items st).2 (writeBulk s way headers post items st).2 ↔
      ∃ hops answers, headers.hopsLeft galaxy.maxHops = some hops ∧
        answersOf post galaxy ((items.map (·.namespace_)).filter (net.sites s).elsewhere) hops
          ((net.sites s).originToSend headers) st = answers ∧ answers ≠ [] ∧
        Concurs (net.sites s) (st.dbs s) apikey items (itemsOf answers) := by
  have some_ : ∃ name rest, (items.map (·.namespace_)).filter (net.sites s).elsewhere = name :: rest := by
    obtain ⟨item, member, foreign⟩ := away
    exact List.exists_cons_of_ne_nil (List.ne_nil_of_mem (List.mem_filter.mpr ⟨List.mem_map_of_mem member, foreign⟩))
  obtain ⟨name, rest, names⟩ := some_
  simp only [validateBulk_eq keyed, writeBulk, keyed, known, names]
  cases left : headers.hopsLeft galaxy.maxHops with
  | none => simpa using forwardFailed_differs .tooManyHops _
  | some hops =>
      dsimp only
      have passed := forwardBatch_answers post galaxy (name :: rest) hops ((net.sites s).originToSend headers) st
      generalize forwardBatch post galaxy (name :: rest) hops ((net.sites s).originToSend headers) st = result at passed ⊢
      obtain ⟨st', result⟩ := result
      rcases passed with ⟨none_, e, failed⟩ | ⟨some_, answered⟩
      · dsimp only at failed
        subst failed
        simpa [none_] using forwardFailed_differs e _
      · dsimp only at answered
        subst answered
        dsimp only
        obtain ⟨lines, answer, same⟩ := @mergedBatch_lines net s way headers st apikey items st'
          (answersOf post galaxy (name :: rest) hops ((net.sites s).originToSend headers) st)
        rw [answer, merged_same same away]
        constructor
        · exact fun concurs => ⟨hops, _, rfl, rfl, some_, concurs⟩
        · rintro ⟨_, _, given, rfl, _, concurs⟩
          obtain rfl := Option.some.inj given
          exact concurs

/-! ## Peers that accept -/

/-- Every peer is reachable and answers, and takes whatever can be written of what it stores. -/
structure Accepting (post : Post net) (galaxy : Galaxy) (items : List BulkSighting) : Prop where
  up : ∀ peer ∈ galaxy.peers, galaxy.down peer.url = false
  takes : ∀ peer ∈ galaxy.peers, ∀ headers st, ∃ (status : Nat) (response : BulkWriteResponse),
    (post peer headers st).2 = .ok ⟨status, .bulk response⟩ ∧
      ∀ (index : Nat) (item : BulkSighting), items[index]? = some item → peer.stores.holds item.namespace_ = true →
        item.value ≠ "" → (timestampToInstant item.timestamp).toOption.isSome = true →
        ∃ entry : BulkWriteItem, response.items[index]? = some entry ∧ entry.status = .ok

theorem size_le_append (a b c : String) : c.utf8ByteSize ≤ (a ++ b ++ c).utf8ByteSize := by
  rw [String.utf8ByteSize_append]
  exact Nat.le_add_left ..

theorem notStored_text (name : String) : (ApiError.notStored name).text ≠ ForwardError.noHolder.text := by
  intro same
  have short : ForwardError.noHolder.text.utf8ByteSize <
      "'. Its [storage] namespaces list says what it holds.".utf8ByteSize := by
    decide
  have long : "'. Its [storage] namespaces list says what it holds.".utf8ByteSize ≤
      (ApiError.notStored name).text.utf8ByteSize :=
    size_le_append _ name _
  rw [same] at long
  exact absurd short (Nat.not_lt.mpr long)

/-- A server never says of an item of someone else's that nobody stores it. -/
theorem reason_elsewhere {item : BulkSighting} (away : (net.sites s).elsewhere item.namespace_ = true) :
    (checkItem (net.sites s) (st.dbs s) apikey item).reason ≠ some ForwardError.noHolder.text := by
  simp only [Site.elsewhere, Bool.and_eq_true, Bool.not_eq_true'] at away
  simp only [checkItem, check_eq (st.stores s), away]
  cases refused : (net.sites s).refusalFor apikey item.namespace_ .write with
  | some message =>
      have text : message = "API key is not permitted to write this namespace." := by
        simp only [Site.refusalFor] at refused
        split at refused
        · cases refused
        · split at refused
          · cases refused
          · exact (Option.some.inj refused).symm
      rw [text]
      change some "API key is not permitted to write this namespace." ≠ some ForwardError.noHolder.text
      decide
  | none =>
      by_cases empty : item.value = ""
      · simp only [empty, if_true]
        decide
      · simp only [empty, if_false, Bool.false_eq_true, Bool.not_false, if_true, ItemCheck.reason]
        exact fun same => notStored_text item.namespace_ (Option.some.inj same)

/-- Every live holder of a namespace that is asked for is asked. -/
theorem mem_wanted {galaxy : Galaxy} {names : List String} {name : String} {peer : Peer} (asked : name ∈ names)
    (live : peer ∈ galaxy.liveHolders name) : peer ∈ galaxy.wanted names := by
  rw [Galaxy.wanted_eq]
  refine Distinct.mem_collect galaxy.apart (fun other member => ?_) (List.mem_flatMap.mpr ⟨name, asked, live⟩)
  obtain ⟨_, _, member⟩ := List.mem_flatMap.mp member
  exact (List.filter_sublist.trans List.filter_sublist).subset member

theorem postAll_answers {Q : Reply → Prop} {hops : Nat} {origin : String} {peer : Peer}
    (answer : ∀ headers st, ∃ reply, (post peer headers st).2 = .ok reply ∧ Q reply) {peers : List Peer}
    (member : peer ∈ peers) : ∃ reply, (peer.url, reply) ∈ (postAll post hops origin peers st).2.1 ∧ Q reply := by
  induction peers generalizing st with
  | nil => cases member
  | cons first rest ih =>
      simp only [postAll]
      rcases List.mem_cons.mp member with rfl | later
      · obtain ⟨reply, answered, good⟩ := answer (.sent peer hops origin) st
        rw [answered]
        exact ⟨reply, List.mem_cons_self, good⟩
      · obtain ⟨reply, told, good⟩ := @ih (post first (.sent first hops origin) st).1 later
        refine ⟨reply, ?_, good⟩
        cases (post first (.sent first hops origin) st).2 with
        | ok _ => exact List.mem_cons_of_mem _ told
        | error _ => exact told

/-- Peers that accept take what they store, so that they do not concur. -/
theorem Accepting.not_concurs {galaxy : Galaxy} (accepting : Accepting post galaxy items)
    (known : (net.sites s).galaxy = some galaxy) {hops : Nat} (left : hops ≠ 0) {origin : String}
    (concurs : Concurs (net.sites s) (st.dbs s) apikey items (itemsOf (answersOf post galaxy
      ((items.map (·.namespace_)).filter (net.sites s).elsewhere) hops origin st)))
    {item : BulkSighting} (member : item ∈ items) (away : (net.sites s).elsewhere item.namespace_ = true) :
    item.value = "" ∨ (timestampToInstant item.timestamp).toOption.isSome = false := by
  by_contra writable
  rw [not_or, Bool.not_eq_false] at writable
  obtain ⟨index, found⟩ := List.mem_iff_getElem?.mp member
  have reason := concurs.reasons index item found away
  rw [relayed, known] at reason
  have held : ∃ peer, peer ∈ galaxy.holders item.namespace_ := by
    rcases holders : galaxy.holders item.namespace_ with _ | ⟨peer, rest⟩
    · simp only [Option.any_some, holders, List.isEmpty_nil, if_true] at reason
      exact absurd reason (reason_elsewhere away)
    · exact ⟨peer, List.mem_cons_self⟩
  obtain ⟨peer, holds⟩ := held
  have mine := List.mem_filter.mp holds
  have live : peer ∈ galaxy.liveHolders item.namespace_ :=
    List.mem_filter.mpr ⟨holds, by simp [accepting.up peer mine.1]⟩
  have asked : peer ∈ galaxy.wanted ((items.map (·.namespace_)).filter (net.sites s).elsewhere) :=
    mem_wanted (List.mem_filter.mpr ⟨List.mem_map_of_mem member, away⟩) live
  have stored : peer.stores.holds item.namespace_ = true := (Bool.and_eq_true_iff.mp mine.2).2
  -- The holder's answer is among those the server has, and takes the item.
  obtain ⟨_, told, _, response, rfl, entry, there, taken⟩ := @postAll_answers net st post
    (fun reply => ∃ status response, reply = ⟨status, .bulk response⟩ ∧ ∃ entry : BulkWriteItem,
      response.items[index]? = some entry ∧ entry.status = .ok) hops origin peer (fun headers st => by
        obtain ⟨status, response, answered, takes⟩ := accepting.takes peer mine.1 headers st
        exact ⟨_, answered, status, response, rfl, takes index item found stored writable.1 writable.2⟩) _ asked
  refine concurs.untaken index item found away entry (List.mem_filterMap.mpr ⟨response.items, ?_, there⟩) taken
  rw [answersOf, if_neg left]
  exact List.mem_filterMap.mpr ⟨_, told, rfl⟩

/-- The dry run changes nothing. It answers as the write does for every batch that is not
passed on, and for one that is exactly when the peers concur; peers that accept do so only
where nothing that is passed on can be written anywhere. -/
theorem dry_run_agrees (net : Traffic) (s : Nat) (way : List String) (headers : Headers) (post : Post net)
    (items : List BulkSighting) (st : State net.toNetwork) :
    (validateBulk s headers items st).1 = st ∧
    (SameAnswer (validateBulk s headers items st).2 (writeBulk s way headers post items st).2 ↔
      ∀ apikey galaxy, (net.sites s).apiKey headers = .ok apikey → (net.sites s).galaxy = some galaxy →
        (∃ item ∈ items, (net.sites s).elsewhere item.namespace_ = true) →
        ∃ hops answers, headers.hopsLeft galaxy.maxHops = some hops ∧
          answersOf post galaxy ((items.map (·.namespace_)).filter (net.sites s).elsewhere) hops
            ((net.sites s).originToSend headers) st = answers ∧ answers ≠ [] ∧
          Concurs (net.sites s) (st.dbs s) apikey items (itemsOf answers)) ∧
    ∀ apikey galaxy, (net.sites s).apiKey headers = .ok apikey → (net.sites s).galaxy = some galaxy →
      Accepting post galaxy items →
      SameAnswer (validateBulk s headers items st).2 (writeBulk s way headers post items st).2 →
      ∀ item ∈ items, (net.sites s).elsewhere item.namespace_ = true →
        item.value = "" ∨ (timestampToInstant item.timestamp).toOption.isSome = false := by
  refine ⟨?_, ?_, ?_⟩
  · cases keyed : (net.sites s).apiKey headers with
    | error e => simp only [validateBulk, keyed]
    | ok apikey => rw [validateBulk_eq keyed]
  · constructor
    · intro same apikey galaxy keyed known away
      exact (passed_same keyed known away).mp same
    · intro condition
      cases keyed : (net.sites s).apiKey headers with
      | error e =>
          simp only [validateBulk, writeBulk, keyed]
          exact .refl _
      | ok apikey =>
          by_cases passed : (∃ item ∈ items, (net.sites s).elsewhere item.namespace_ = true) ∧
              ∃ galaxy, (net.sites s).galaxy = some galaxy
          · obtain ⟨away, galaxy, known⟩ := passed
            exact (passed_same keyed known away).mpr (condition apikey galaxy keyed known away)
          · refine here_same keyed ?_
            cases known : (net.sites s).galaxy with
            | none => exact .inl rfl
            | some galaxy =>
                refine .inr fun item member => Bool.eq_false_iff.mpr fun away => ?_
                exact passed ⟨⟨item, member, away⟩, galaxy, known⟩
  · intro apikey galaxy keyed known accepting same item member away
    obtain ⟨hops, _, _, rfl, answered, concurs⟩ := (passed_same keyed known ⟨item, member, away⟩).mp same
    refine accepting.not_concurs known ?_ concurs member away
    intro spent
    exact answered (if_pos spent)

/-- The router says it would not write the item, and then has the node write it. -/
theorem preview_refuses_what_is_written :
    ((validateBulk 0 keyed [sightingIn "a/x"] gateway.idle).2.status = 400 ∧
      (validateBulk 0 keyed [sightingIn "a/x"] gateway.idle).2.message = "failed") ∧
    (gateway.request 0 (.writeBulk [sightingIn "a/x"]) keyed gateway.idle).2.status = 200 ∧
    (gateway.request 0 (.writeBulk [sightingIn "a/x"]) keyed gateway.idle).2.message = "ok" ∧
    ((validateBulk 0 keyed [sightingIn "a/x"] gateway.idle).2.items.map fun item => (item.index, item.status, item.error)) =
      [(0, .error, some (ApiError.notStored "a/x").text)] ∧
    ((gateway.request 0 (.writeBulk [sightingIn "a/x"]) keyed gateway.idle).2.items.map fun item =>
      (item.index, item.status, item.error)) = [(0, .ok, none)] := by
  decide

end Handlers

end Traffic

end SightingDB
