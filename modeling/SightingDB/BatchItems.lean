import SightingDB.Deliveries

/-!
One item of a batch among the others. What an item gets from its batch is compared with what
it gets from the batch that holds only itself and the earlier sightings of the same value. A
batch that is passed on stands or falls as a whole first: with no hops left, no live holder or
no answer, the items stored here are dropped with the rest.
-/
namespace SightingDB

/-- An item with the earlier ones of its value. -/
def ownBatch (items : List BulkSighting) (i : Nat) (item : BulkSighting) : List BulkSighting :=
  (items.take i).filter (fun other => other.namespace_ = item.namespace_ && other.value = item.value) ++ [item]

/-- The status a reply gives an item; `none` when the request is answered as a whole. -/
def Reply.statusAt (reply : Reply) (i : Nat) : Option ItemStatus :=
  match reply.body with
  | .bulk response => response.items[i]?.map (·.status)
  | _ => none

namespace Traffic

variable (net : Traffic)

/-- Whether a server answers a batch item by item. -/
def itemizes (items : List BulkSighting) (s : Nat) (way : List String) (headers : Headers) : Bool :=
  ((net.sites s).apiKey headers).toOption.isSome && net.settles (.writeBulk items) s way headers

/-- Whether a server leaves an item to its peers. -/
def leaves (item : BulkSighting) (s : Nat) : Bool :=
  (net.sites s).elsewhere item.namespace_ && (net.sites s).galaxy.isSome

/-- A batch is passed on from server to server along a way, every one of which leaves the item
to its peers and hears back. -/
inductive Relays (items : List BulkSighting) (item : BulkSighting) :
    Nat → List String → Headers → List String → Nat → Headers → Prop
  | here {s : Nat} {way : List String} {headers : Headers} : Relays items item s way headers way s headers
  | pass {s next server : Nat} {way way' : List String} {headers headers' : Headers} {posted : Posted}
      (left : net.leaves item s = true)
      (sent : posted ∈ net.forwards s headers (.writeBulk items))
      (answers : net.answers (way ++ [posted.url]) posted.url = true)
      (arrives : net.urls posted.url = some next)
      (onward : Relays items item next (way ++ [posted.url]) posted.headers way' server headers') :
      Relays items item s way headers way' server headers'

/-- Whether the answer to a batch says that an item was taken. -/
def told (items : List BulkSighting) (i : Nat) (item : BulkSighting) : Nat → Nat → List String → Headers → Bool
  | 0, _, _, _ => false
  | turns + 1, s, way, headers =>
      if net.leaves item s then
        (net.forwards s headers (.writeBulk items)).any fun posted =>
          net.answers (way ++ [posted.url]) posted.url && match net.urls posted.url with
            | none => false
            | some next => told items i item turns next (way ++ [posted.url]) posted.headers
      else net.taken (.writeBulk items) s way headers |>.contains i

end Traffic

/-! ## One item in an answer -/

section Lines

variable {net : Traffic} {s : Nat} {way : List String} {headers : Headers} {st : State net.toNetwork}
  {apikey : Option String} {index i : Nat} {item : BulkSighting} {items : List BulkSighting}

/-- The line of an item is what became of it, whatever stands before and after. -/
theorem eachItem_line {σ : Type} {step : Nat → BulkSighting → σ → σ × Outcome} {st : σ} (found : items[i]? = some item) :
    ∃ st', (Traffic.eachItem step index items st).2[i]? = some ⟨index + i, item, (step (index + i) item st').2⟩ := by
  induction items generalizing index i st with
  | nil => simp at found
  | cons first rest ih =>
      cases i with
      | zero =>
          obtain rfl : first = item := by simpa using found
          exact ⟨st, by simp [Traffic.eachItem]⟩
      | succ i =>
          obtain ⟨st', line⟩ := @ih (index + 1) i (step index first st).1 (by simpa using found)
          refine ⟨st', ?_⟩
          simp only [Traffic.eachItem, List.getElem?_cons_succ, line]
          rw [show index + 1 + i = index + (i + 1) by omega]

theorem report_status (line : Line) : line.report.status = if line.isOk then .ok else .error := by
  cases outcome : line.outcome <;> simp [Line.report, Line.isOk, outcome]

theorem writeItem_isOk : Line.isOk ⟨index, item, (net.writeItem s way headers apikey index item st).2⟩ =
    (net.sites s).accepts apikey item := by
  rcases @checkItem_accepts apikey item _ _ (st.stores s) with ⟨⟨when, ok, passes⟩, accepts⟩ | ⟨never, refuses⟩
  · obtain ⟨_, done, recorded⟩ := @record_log net s way st index item (net.worlds s) headers.originOf when passes
    rw [accepts]
    simp only [Traffic.writeItem, ok]
    cases result : st.record (net.worlds s) s way headers.originOf index item when with
    | mk st' written =>
        rw [result] at recorded
        dsimp only at recorded
        subst recorded
        rfl
  · rw [refuses]
    simp only [Traffic.writeItem]
    cases checked : checkItem (net.sites s) (st.dbs s) apikey item with
    | ok when => exact absurd checked (never when)
    | refused message => rfl
    | invalid message => rfl

theorem any_status (entry : Option BulkWriteItem) :
    entry.any (·.status = .ok) = decide (entry.map (·.status) = some .ok) := by
  cases entry <;> simp

/-- An item of someone else's is taken as soon as one mirror says so. -/
theorem mergeItem_isOk (peerItems : List (List BulkWriteItem)) :
    Line.isOk ⟨index, item, (net.mergeItem s peerItems index item st).2⟩ =
      peerItems.any fun answered => answered[index]?.any (·.status = .ok) := by
  have any : (peerItems.filterMap (·[index]?)).any (·.status = .ok) =
      peerItems.any fun answered => answered[index]?.any (·.status = .ok) := by
    rw [List.any_filterMap]
    congr 1
  rw [← any]
  simp only [Traffic.mergeItem]
  cases first : (peerItems.filterMap (·[index]?)).find? (·.status = .ok) with
  | none =>
      have none := List.find?_eq_none.mp first
      simp only [Line.isOk]
      exact (List.any_eq_false.mpr none).symm
  | some entry =>
      have here := List.find?_some first
      simp only [Line.isOk]
      exact (List.any_eq_true.mpr ⟨entry, List.mem_of_find?_eq_some first, here⟩).symm

theorem statusAt_bulkReply {verdict : Nat × Verdict} {lines : List Line} {line : Line} (found : lines[i]? = some line) :
    (bulkReply verdict lines).statusAt i = some (if line.isOk then .ok else .error) := by
  simp [bulkReply, Reply.statusAt, found, report_status]

end Lines

namespace Traffic

section Passing

variable {net : Traffic} {s turns hops i : Nat} {way : List String} {headers : Headers} {st : State net.toNetwork}
  {origin : String} {post : Post net} {sent : String → Headers → List Record} {heard : String → Bool}
  {tell : String → Headers → Bool} {items : List BulkSighting} {item : BulkSighting}

/-- Whether an answer, if one comes, says that an item was taken. -/
def Tells (post : Post net) (i : Nat) (tell : String → Headers → Bool) : Prop :=
  ∀ peer headers st reply, (post peer headers st).2 = .ok reply →
    decide (reply.statusAt i = some .ok) = tell peer.url headers

theorem postAll_tells (posts : Posts post sent heard) (tells : Tells post i tell) (peers : List Peer) :
    ((postAll post hops origin peers st).2.1.any fun answer => answer.2.statusAt i = some .ok) =
      peers.any fun peer => heard peer.url && tell peer.url (.sent peer hops origin) := by
  induction peers generalizing st with
  | nil => rfl
  | cons peer rest ih =>
      have answer := posts.answer peer (.sent peer hops origin) st
      have told := tells peer (.sent peer hops origin) st
      simp only [postAll]
      cases first : post peer (.sent peer hops origin) st with
      | mk st₁ result =>
          rw [first] at answer told
          cases result with
          | ok reply =>
              have heard₁ : heard peer.url = true := answer.symm
              simp [← told reply rfl, heard₁, ih]
          | error e =>
              have heard₁ : heard peer.url = false := answer.symm
              simp [heard₁, ih]

/-- The answers to a batch that was passed on, if there are any. -/
theorem forwardBatch_tells (posts : Posts post sent heard) (tells : Tells post i tell) (galaxy : Galaxy)
    (names : List String) {answers : List (String × Reply)}
    (passed : (forwardBatch post galaxy names hops origin st).2 = .ok answers) :
    (answers.any fun answer => answer.2.statusAt i = some .ok) =
      (Network.forwardBatch galaxy names (.writeBulk items) hops origin).any fun posted =>
        heard posted.url && tell posted.url posted.headers := by
  simp only [forwardBatch, Network.forwardBatch] at passed ⊢
  split at passed
  · cases passed
  · rename_i some_
    split at passed
    · cases passed
    · have told := @postAll_tells net hops i st origin post sent heard tell posts tells (galaxy.wanted names)
      split at passed
      · cases passed
      · rw [← Except.ok.inj passed, told, if_neg some_, List.any_map]
        rfl

theorem mergedBatch_statusAt {apikey : Option String} {answers : List (String × Reply)} (found : items[i]? = some item) :
    (net.mergedBatch s way headers apikey items answers st).2.statusAt i =
      some (if (if (net.sites s).elsewhere item.namespace_ then answers.any fun answer => answer.2.statusAt i = some .ok
        else (net.sites s).accepts apikey item) then .ok else .error) := by
  have peers : (answers.filterMap fun answer => match answer.2.body with
      | .bulk response => some response.items
      | _ => none).any (fun answered => answered[i]?.any (·.status = .ok)) =
      answers.any fun answer => answer.2.statusAt i = some .ok := by
    rw [List.any_filterMap]
    congr 1
    funext answer
    rw [Reply.statusAt]
    cases answer.2.body with
    | bulk response => exact any_status response.items[i]?
    | message _ => rfl
    | written _ _ => rfl
  obtain ⟨st', line⟩ := @eachItem_line 0 i item items _ (fun index item (st : State net.toNetwork) =>
    if (net.sites s).stores.holds item.namespace_ || isInternal item.namespace_ then
      net.writeItem s way headers apikey index item st
    else net.mergeItem s (answers.filterMap fun answer => match answer.2.body with
      | .bulk response => some response.items
      | _ => none) index item st) st found
  rw [Nat.zero_add] at line
  rw [Traffic.mergedBatch]
  refine (statusAt_bulkReply line).trans ?_
  cases ours : (net.sites s).stores.holds item.namespace_ || isInternal item.namespace_ with
  | true =>
      have here : (net.sites s).elsewhere item.namespace_ = false := by
        rw [Site.elsewhere, ← Bool.not_or, ours]
        rfl
      simp only [if_true, writeItem_isOk, here, Bool.false_eq_true, if_false]
  | false =>
      have there : (net.sites s).elsewhere item.namespace_ = true := by
        rw [Site.elsewhere, ← Bool.not_or, ours]
        rfl
      simp only [Bool.false_eq_true, if_false, mergeItem_isOk, peers, there, if_true]

theorem contains_taken {apikey : Option String} (keyed : (net.sites s).apiKey headers = .ok apikey)
    (settled : net.settles (.writeBulk items) s way headers = true) (found : items[i]? = some item) :
    (net.taken (.writeBulk items) s way headers).contains i = (net.sites s).accepts apikey item := by
  rw [Bool.eq_iff_iff, List.contains_iff_mem, taken, keyed, settled]
  simp only [if_true, mem_accepted, Nat.zero_add]
  constructor
  · rintro ⟨k, other, rfl, here, accepts⟩
    rw [Call.items, found] at here
    cases here
    exact accepts
  · exact fun accepts => ⟨i, item, rfl, found, accepts⟩

/-- A batch answered at all is answered item by item. -/
theorem writeBulk_statusAt (posts : Posts post sent fun url => net.answers (way ++ [url]) url) (tells : Tells post i tell)
    (found : items[i]? = some item) : (writeBulk s way headers post items st).2.statusAt i =
      if net.itemizes items s way headers then
        some (if (if net.leaves item s then (net.forwards s headers (.writeBulk items)).any fun posted =>
            net.answers (way ++ [posted.url]) posted.url && tell posted.url posted.headers
          else (net.taken (.writeBulk items) s way headers).contains i) then .ok else .error)
      else none := by
  cases keyed : (net.sites s).apiKey headers with
  | error e => cases e <;> simp [writeBulk, itemizes, keyed, KeyError.reply, Reply.statusAt, Except.toOption]
  | ok apikey =>
      have any := any_elsewhere (net.sites s) items
      have itemized : net.itemizes items s way headers = net.settles (.writeBulk items) s way headers := by
        simp [itemizes, keyed, Except.toOption]
      have taken := fun settled => @contains_taken net s i way headers items item apikey keyed settled found
      -- Decided here: every item by what this server accepts.
      have local_ : (bulkReply (verdict (eachItem (net.writeItem s way headers apikey) 0 items st).2)
          (eachItem (net.writeItem s way headers apikey) 0 items st).2).statusAt i =
          some (if (net.sites s).accepts apikey item then .ok else .error) := by
        obtain ⟨st', line⟩ := @eachItem_line 0 i item items _ (net.writeItem s way headers apikey) st found
        rw [Nat.zero_add] at line
        rw [statusAt_bulkReply line, writeItem_isOk]
      cases known : (net.sites s).galaxy with
      | none =>
          have settled : net.settles (.writeBulk items) s way headers = true := by simp [settles, passesOn, known]
          have kept : net.leaves item s = false := by simp [leaves, known]
          simp only [itemized, settled, kept, Bool.false_eq_true, if_true, if_false]
          rw [taken settled, ← local_]
          simp [writeBulk, keyed, known]
      | some galaxy =>
          cases names : (items.map (·.namespace_)).filter (net.sites s).elsewhere with
          | nil =>
              have settled : net.settles (.writeBulk items) s way headers = true := by
                simp [settles, passesOn, any, names]
              have kept : net.leaves item s = false := by
                have none := List.filter_eq_nil_iff.mp names item.namespace_
                  (List.mem_map_of_mem (List.mem_of_getElem? found))
                simp [leaves, Bool.eq_false_iff.mpr none]
              simp only [itemized, settled, kept, Bool.false_eq_true, if_true, if_false]
              rw [taken settled, ← local_]
              simp [writeBulk, keyed, names]
          | cons name rest =>
              cases left : headers.hopsLeft galaxy.maxHops with
              | none =>
                  have stuck : net.settles (.writeBulk items) s way headers = false := by
                    simp [settles, passesOn, any, known, Network.forwards, Call.ask, keyed, names, left]
                  simp [itemized, stuck, writeBulk, keyed, names, known, left, forwardFailed, Reply.statusAt]
              | some hops =>
                  have forwards : net.forwards s headers (.writeBulk items) =
                      Network.forwardBatch galaxy (name :: rest) (.writeBulk items) hops ((net.sites s).originToSend headers) := by
                    simp [Network.forwards, keyed, known, names, left]
                  have settled := @settles_passed net s hops way headers st post sent apikey posts items name rest galaxy
                    keyed known names left
                  have leaves : net.leaves item s = (net.sites s).elsewhere item.namespace_ := by simp [leaves, known]
                  have told := @forwardBatch_tells net hops i st ((net.sites s).originToSend headers) post sent _ tell items
                    posts tells galaxy (name :: rest)
                  simp only [writeBulk, keyed, names, known, left, itemized, settled, leaves]
                  cases passed : forwardBatch post galaxy (name :: rest) hops ((net.sites s).originToSend headers) st with
                  | mk st₁ result =>
                      cases result with
                      | error e => simp [forwardFailed, Reply.statusAt, Except.toOption]
                      | ok answers =>
                          -- What is left here is decided as in a batch that is not passed on.
                          have here := taken (by rw [settled, passed]; rfl)
                          have merged := @mergedBatch_statusAt net s i way headers st₁ items item apikey answers found
                          rw [told (by rw [passed]), ← here] at merged
                          simpa [Except.toOption, forwards] using merged

theorem deliver_tells (handles : ∀ server headers way' st,
      decide ((net.serve (.writeBulk items) turns server way' headers st).2.statusAt i = some .ok) =
        net.told items i item turns server way' headers) :
    Tells (fun peer headers st => net.deliver (way ++ [peer.url]) peer.url
        (fun server st => net.serve (.writeBulk items) turns server (way ++ [peer.url]) headers st) st) i
      fun url headers => match net.urls url with
        | none => false
        | some next => net.told items i item turns next (way ++ [url]) headers := by
  intro peer headers st reply answered
  simp only [deliver] at answered
  split at answered
  · cases answered
  · cases answered
  · rename_i server _ arrives
    dsimp only
    rw [arrives, ← Except.ok.inj answered]
    exact handles server headers _ st
  · cases answered

/-- A server that says an item was taken has answered item by item. -/
theorem itemizes_of_told (told : net.told items i item turns s way headers = true) :
    net.itemizes items s way headers = true := by
  cases turns with
  | zero => cases told
  | succ turns =>
      rw [Traffic.told] at told
      split at told
      · obtain ⟨posted, sent, heard⟩ := List.any_eq_true.mp told
        rw [Bool.and_eq_true] at heard
        have keyed : ((net.sites s).apiKey headers).toOption.isSome = true := by
          cases keyed : (net.sites s).apiKey headers with
          | error e => simp [Network.forwards, keyed] at sent
          | ok apikey => rfl
        have settled : net.settles (.writeBulk items) s way headers = true := by
          simp only [settles, Bool.or_eq_true, Call.ask]
          exact .inr (List.any_eq_true.mpr ⟨posted, sent, heard.1⟩)
        rw [itemizes, keyed, settled]
        rfl
      · rw [List.contains_iff_mem, taken] at told
        cases keyed : (net.sites s).apiKey headers with
        | error e => simp [keyed] at told
        | ok apikey =>
            cases settled : net.settles (.writeBulk items) s way headers with
            | false => simp [keyed, settled] at told
            | true => simp [itemizes, keyed, settled, Except.toOption]

/-- What a server says of an item. -/
theorem serve_statusAt (found : items[i]? = some item) :
    (net.serve (.writeBulk items) (turns + 1) s way headers st).2.statusAt i =
      if net.itemizes items s way headers then
        some (if net.told items i item (turns + 1) s way headers then .ok else .error)
      else none := by
  induction turns generalizing s way headers st with
  | zero =>
      have posts := @deliver_posts net (.writeBulk items) 0 way fun server headers way st =>
        serve_log net (.writeBulk items) 0 server way headers st
      exact writeBulk_statusAt posts (deliver_tells fun server headers way' st => rfl) found
  | succ turns ih =>
      have posts := @deliver_posts net (.writeBulk items) (turns + 1) way fun server headers way st =>
        serve_log net (.writeBulk items) (turns + 1) server way headers st
      refine writeBulk_statusAt posts (deliver_tells fun server headers way' st => ?_) found
      rw [ih]
      cases told : net.told items i item (turns + 1) server way' headers with
      | true => rw [itemizes_of_told told]; rfl
      | false => cases net.itemizes items server way' headers <;> rfl

end Passing

/-! ## The ways of an item -/

section Ways

variable {net : Traffic} {s server turns i : Nat} {way way' : List String} {headers headers' : Headers}
  {items : List BulkSighting} {item : BulkSighting}

/-- A copy whose sender hears back has arrived. -/
theorem arrivesAt_of_answers {url : String} {next : Nat} (answers : net.answers way url = true)
    (arrives : net.urls url = some next) : net.arrivesAt way url = some next := by
  rw [Traffic.answers, Bool.and_eq_true, decide_eq_true_eq] at answers
  rw [arrivesAt, answers.1]
  exact arrives

theorem Relays.delivered (relays : net.Relays items item s way headers way' server headers') :
    Delivered net (.writeBulk items) s way headers way' server headers' := by
  induction relays with
  | here => exact .here
  | pass left sent answers arrives onward ih => exact .pass sent (arrivesAt_of_answers answers arrives) ih

/-- What a server takes it does not leave to its peers. -/
theorem leaves_of_taken (found : items[i]? = some item) (taken : i ∈ net.taken (.writeBulk items) s way headers) :
    net.leaves item s = false := by
  rw [Traffic.taken] at taken
  cases keyed : (net.sites s).apiKey headers with
  | error e => simp [keyed] at taken
  | ok apikey =>
      rw [keyed] at taken
      dsimp only at taken
      split at taken
      · obtain ⟨k, other, rfl, here, accepts⟩ := mem_accepted.mp taken
        rw [Nat.zero_add] at found
        rw [Call.items, found] at here
        cases here
        simp only [Site.accepts, Bool.and_eq_true] at accepts
        simp [leaves, Site.elsewhere, accepts.1.2]
      · cases taken

/-- A server says that an item was taken when the batch was relayed to a server that took it. -/
theorem told_iff (found : items[i]? = some item) : net.told items i item turns s way headers = true ↔
    ∃ way' server headers', way'.length < way.length + turns ∧ net.Relays items item s way headers way' server headers' ∧
      i ∈ net.taken (.writeBulk items) server way' headers' := by
  induction turns generalizing s way headers with
  | zero =>
      refine ⟨fun told => (by cases told), ?_⟩
      rintro ⟨way', server, headers', short, relays, _⟩
      obtain ⟨rest, whole⟩ := relays.delivered.extends_
      simp [whole] at short
  | succ turns ih =>
      rw [told]
      constructor
      · intro told
        split at told
        · rename_i left
          obtain ⟨posted, sent, heard⟩ := List.any_eq_true.mp told
          rw [Bool.and_eq_true] at heard
          cases arrives : net.urls posted.url with
          | none => simp [arrives] at heard
          | some next =>
              rw [arrives] at heard
              obtain ⟨way', server, headers', short, relays, taken⟩ := ih.mp heard.2
              rw [List.length_append, List.length_singleton] at short
              exact ⟨way', server, headers', by omega, .pass left sent heard.1 arrives relays, taken⟩
        · exact ⟨way, s, headers, by omega, .here, List.contains_iff_mem.mp told⟩
      · rintro ⟨way', server, headers', short, relays, taken⟩
        cases relays with
        | here =>
            rw [if_neg (by simp [leaves_of_taken found taken])]
            exact List.contains_iff_mem.mpr taken
        | @pass _ next _ _ _ _ _ posted left sent answers arrives onward =>
            rw [if_pos left]
            refine List.any_eq_true.mpr ⟨posted, sent, ?_⟩
            rw [answers, arrives, Bool.true_and]
            refine ih.mpr ⟨way', server, headers', ?_, onward, taken⟩
            rw [List.length_append, List.length_singleton]
            omega

end Ways

/-- Some copy of a batch comes to a server that takes the item. -/
def Lands (net : Traffic) (items : List BulkSighting) (i s : Nat) (headers : Headers) : Prop :=
  ∃ way server headers', Delivered net (.writeBulk items) s [] headers way server headers' ∧
    i ∈ net.taken (.writeBulk items) server way headers'

/-- And does so over servers that leave it to their peers and hear back. -/
def Confirmed (net : Traffic) (items : List BulkSighting) (i : Nat) (item : BulkSighting) (s : Nat) (headers : Headers) : Prop :=
  ∃ way server headers', net.Relays items item s [] headers way server headers' ∧
    i ∈ net.taken (.writeBulk items) server way headers'

section Items

variable {net : Traffic} {s turns i : Nat} {headers : Headers} {st : State net.toNetwork}
  {items : List BulkSighting} {item : BulkSighting}

theorem recorded_iff (enough : (headers.hopsLeft (net.hopLimit s)).getD 0 < turns) (fresh : st.log = []) :
    (∃ r ∈ (net.serve (.writeBulk items) turns s [] headers st).1.log, r.index = i) ↔ net.Lands items i s headers := by
  rw [serve_log, fresh, List.nil_append]
  constructor
  · rintro ⟨r, member, rfl⟩
    obtain ⟨_, headers', delivered, taken⟩ := mem_plan.mp member
    exact ⟨r.way, r.server, headers', delivered, taken⟩
  · rintro ⟨way, server, headers', delivered, taken⟩
    refine ⟨⟨server, way, i⟩, mem_plan.mpr ⟨?_, headers', delivered, taken⟩, rfl⟩
    have short := delivered.short
    simp only [List.length_nil, Nat.zero_add] at short ⊢
    omega

theorem told_iff_confirmed (found : items[i]? = some item) (enough : (headers.hopsLeft (net.hopLimit s)).getD 0 < turns) :
    net.told items i item turns s [] headers = true ↔ net.Confirmed items i item s headers := by
  rw [told_iff found]
  constructor
  · rintro ⟨way, server, headers', _, relays, taken⟩
    exact ⟨way, server, headers', relays, taken⟩
  · rintro ⟨way, server, headers', relays, taken⟩
    have short := relays.delivered.short
    refine ⟨way, server, headers', ?_, relays, taken⟩
    simp only [List.length_nil, Nat.zero_add] at short ⊢
    omega

theorem ownBatch_last (items : List BulkSighting) (i : Nat) (item : BulkSighting) :
    (ownBatch items i item)[(ownBatch items i item).length - 1]? = some item := by
  simp [ownBatch]

end Items

/-- Whether an item gets from its batch what it gets with the earlier sightings of its value
alone: recorded or not, and with the same status. -/
def Independent (net : Traffic) (items : List BulkSighting) (i : Nat) (item : BulkSighting) (turns s : Nat) (headers : Headers)
    (st : State net.toNetwork) : Prop :=
  let own := ownBatch items i item
  ((∃ r ∈ (net.serve (.writeBulk items) turns s [] headers st).1.log, r.index = i) ↔
    ∃ r ∈ (net.serve (.writeBulk own) turns s [] headers st).1.log, r.index = own.length - 1) ∧
  (net.serve (.writeBulk items) turns s [] headers st).2.statusAt i =
    (net.serve (.writeBulk own) turns s [] headers st).2.statusAt (own.length - 1)

/-- An item is independent of the others exactly when they change neither whether its server
comes to answer item by item, nor where a copy ends up, nor from where that is heard. An item
its server would take is recorded there exactly when nothing of the batch is passed on or some
peer answers. -/
theorem independent_iff (net : Traffic) (items : List BulkSighting) (i : Nat) (item : BulkSighting)
    (found : items[i]? = some item) (turns s : Nat) (headers : Headers)
    (enough : (headers.hopsLeft (net.hopLimit s)).getD 0 < turns) (st : State net.toNetwork) (fresh : st.log = []) :
    (net.Independent items i item turns s headers st ↔
      let own := ownBatch items i item
      net.itemizes items s [] headers = net.itemizes own s [] headers ∧
      (net.Lands items i s headers ↔ net.Lands own (own.length - 1) s headers) ∧
      (net.itemizes items s [] headers = true →
        (net.Confirmed items i item s headers ↔ net.Confirmed own (own.length - 1) item s headers))) ∧
    ∀ apikey, (net.sites s).apiKey headers = .ok apikey → (net.sites s).accepts apikey item = true →
      (⟨s, [], i⟩ ∈ (net.serve (.writeBulk items) turns s [] headers st).1.log ↔
        net.settles (.writeBulk items) s [] headers = true) := by
  obtain ⟨turns, rfl⟩ : ∃ n, turns = n + 1 := ⟨turns - 1, by omega⟩
  refine ⟨?_, fun apikey keyed accepts => ?_⟩
  · have last := ownBatch_last items i item
    simp only [Independent, recorded_iff enough fresh, serve_statusAt found, serve_statusAt last]
    rw [← told_iff_confirmed found enough, ← told_iff_confirmed last enough]
    cases net.itemizes items s [] headers <;> cases net.itemizes (ownBatch items i item) s [] headers <;>
      cases net.told items i item (turns + 1) s [] headers <;>
      cases net.told (ownBatch items i item) ((ownBatch items i item).length - 1) item (turns + 1) s [] headers <;> simp
  · have taken : i ∈ net.taken (.writeBulk items) s [] headers ↔ net.settles (.writeBulk items) s [] headers = true := by
      constructor
      · intro taken
        cases settled : net.settles (.writeBulk items) s [] headers with
        | true => rfl
        | false => simp [Traffic.taken, keyed, settled] at taken
      · intro settled
        rw [← List.contains_iff_mem, contains_taken keyed settled found]
        exact accepts
    rw [serve_log, fresh, List.nil_append, mem_plan, ← taken]
    constructor
    · rintro ⟨_, headers', delivered, here⟩
      obtain ⟨_, rfl⟩ := delivered.at_entry
      exact here
    · exact fun here => ⟨by simp, headers, .here, here⟩

/-- A server that stores `a`, with one peer for the rest that never answers. -/
def cutOff : Traffic where
  sites _ := ⟨⟨["a"], false⟩, "edge", false, ⟨∅⟩,
    some ⟨[⟨"n", "p", .storeEverything, true⟩], 4, fun _ => false, fun _ => false, by simp, by decide⟩⟩
  urls url := if url = "n" then some 1 else none
  weigh _ _ := 0
  catalogue _ := []
  listing _ _ := []
  worlds _ := .sample
  fate _ := .lost "connection refused"

def cutOff.idle : State cutOff.toNetwork where
  dbs s := .withNode ⟨0, 0⟩ (cutOff.sites s).stores (cutOff.sites s).node
  log := []
  stores _ := rfl
  node _ := rfl

/-- A client's request without a key. -/
def unkeyed : Headers := ⟨none, .absent, none⟩

/-- A sighting of a value in a namespace. -/
def seenIn (name : String) : BulkSighting := ⟨name, "v", none, none, "", false⟩

theorem cutOff_dependent : ¬ cutOff.Independent [seenIn "a/x", seenIn "b/x"] 0 (seenIn "a/x") 5 0 unkeyed cutOff.idle := by
  intro independent
  have different : (cutOff.serve (.writeBulk [seenIn "a/x", seenIn "b/x"]) 5 0 [] unkeyed cutOff.idle).2.statusAt 0 ≠
      (cutOff.serve (.writeBulk (ownBatch [seenIn "a/x", seenIn "b/x"] 0 (seenIn "a/x"))) 5 0 [] unkeyed
        cutOff.idle).2.statusAt ((ownBatch [seenIn "a/x", seenIn "b/x"] 0 (seenIn "a/x")).length - 1) := by decide
  exact different independent.2

theorem cutOff_drops : ¬ cutOff.Independent [seenIn "a/x", seenIn "b/x"] 0 (seenIn "a/x") 5 0 unkeyed cutOff.idle ∧
    (cutOff.serve (.writeBulk [seenIn "a/x"]) 5 0 [] unkeyed cutOff.idle).1.log = [⟨0, [], 0⟩] ∧
    (cutOff.serve (.writeBulk [seenIn "a/x", seenIn "b/x"]) 5 0 [] unkeyed cutOff.idle).1.log = [] :=
  ⟨cutOff_dependent, by decide, by decide⟩

theorem independent_iff_cutOff :
    let items := [seenIn "a/x", seenIn "b/x"]
    let own := ownBatch items 0 (seenIn "a/x")
    ¬ (cutOff.itemizes items 0 [] unkeyed = cutOff.itemizes own 0 [] unkeyed ∧
        (cutOff.Lands items 0 0 unkeyed ↔ cutOff.Lands own (own.length - 1) 0 unkeyed) ∧
        (cutOff.itemizes items 0 [] unkeyed = true →
          (cutOff.Confirmed items 0 (seenIn "a/x") 0 unkeyed ↔ cutOff.Confirmed own (own.length - 1) (seenIn "a/x") 0 unkeyed))) ∧
      ⟨0, [], 0⟩ ∉ (cutOff.serve (.writeBulk items) 5 0 [] unkeyed cutOff.idle).1.log := by
  obtain ⟨independent, recorded⟩ := independent_iff cutOff [seenIn "a/x", seenIn "b/x"] 0 (seenIn "a/x") rfl 5 0 unkeyed
    (by decide) cutOff.idle rfl
  refine ⟨fun same => cutOff_dependent (independent.mpr same), fun logged => ?_⟩
  have settled := (recorded none rfl (by decide)).mp logged
  revert settled
  decide

end Traffic

end SightingDB
