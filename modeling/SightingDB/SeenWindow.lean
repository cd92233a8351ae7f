import SightingDB.History

/-!
The seen window over whole histories. An operation widens it except where it finds the
value looking as if it had never been counted; it then seeds both edges, whatever they
were. A merge whose counts are all ignored or zero sets a window without a count, so the
sighting after it may seed from inside.
-/
namespace SightingDB
namespace Attribute

variable (value : String) (ops : List Operation)

/-- An edge has been set by a sighting, or by a merge with a time chrono can represent. -/
def EdgeSet (time : Operation → Option DateTime) (before : List Operation) : Prop :=
  ∃ op ∈ before, (time op).isSome

/-- Once the first edge is set, no later operation moves it to a later second. -/
def FirstWidens : Prop :=
  ∀ before op after, ops = before ++ op :: after → EdgeSet Operation.firstTime before →
    ((new value).applyAll (before ++ [op])).firstSeen.timestamp ≤
      ((new value).applyAll before).firstSeen.timestamp

/-- Once the last edge is set, no later operation moves it to an earlier second. -/
def LastWidens : Prop :=
  ∀ before op after, ops = before ++ op :: after → EdgeSet Operation.lastTime before →
    ((new value).applyAll before).lastSeen.timestamp ≤
      ((new value).applyAll (before ++ [op])).lastSeen.timestamp

/-- At every point the window covers every sighting recorded so far. -/
def CoversSightings : Prop :=
  ∀ before after, ops = before ++ after → ∀ node when ttl retention tags,
    .sight node when ttl retention tags ∈ before →
      ((new value).applyAll before).firstSeen.timestamp ≤ when.timestamp ∧
        when.timestamp ≤ ((new value).applyAll before).lastSeen.timestamp

/-- An operation that seeds the window after it was set does so from outside it. -/
structure SeedsOutside (a : Attribute) (before : List Operation) (op : Operation) : Prop where
  first : a.seeds op = true → EdgeSet Operation.firstTime before →
    ∀ t ∈ op.firstTime, t.timestamp ≤ a.firstSeen.timestamp
  last : a.seeds op = true → EdgeSet Operation.lastTime before →
    ∀ t ∈ op.lastTime, a.lastSeen.timestamp ≤ t.timestamp

/-! ## One step -/

/-- The first edge goes back or stays unless the operation seeds it later. -/
theorem apply_first_le_iff (a : Attribute) (op : Operation) :
    (a.apply op).firstSeen.timestamp ≤ a.firstSeen.timestamp ↔
      (a.seeds op = true → ∀ t ∈ op.firstTime, t.timestamp ≤ a.firstSeen.timestamp) := by
  rw [apply_firstSeen]
  cases op.firstTime with
  | none => simp [firstEdge]
  | some t => cases a.seeds op <;> simp [firstEdge, DateTime.timestamp_min]

theorem apply_last_le_iff (a : Attribute) (op : Operation) :
    a.lastSeen.timestamp ≤ (a.apply op).lastSeen.timestamp ↔
      (a.seeds op = true → ∀ t ∈ op.lastTime, a.lastSeen.timestamp ≤ t.timestamp) := by
  rw [apply_lastSeen]
  cases op.lastTime with
  | none => simp [lastEdge]
  | some t => cases a.seeds op <;> simp [lastEdge, DateTime.timestamp_max]

/-- A sighting is inside the window it leaves, seeded or widened. -/
theorem apply_sight_covers (a : Attribute) (node : String) (when : DateTime) (ttl : Option Nat)
    (retention : Nat) (tags : String) :
    (a.apply (.sight node when ttl retention tags)).firstSeen.timestamp ≤ when.timestamp ∧
      when.timestamp ≤ (a.apply (.sight node when ttl retention tags)).lastSeen.timestamp := by
  rw [apply_firstSeen, apply_lastSeen]
  constructor
  · cases a.seeds (.sight node when ttl retention tags) <;>
      simp [firstEdge, Operation.firstTime, DateTime.timestamp_min]
  · cases a.seeds (.sight node when ttl retention tags) <;>
      simp [lastEdge, Operation.lastTime, DateTime.timestamp_max]

/-! ## Whole histories -/

variable {value ops}

theorem firstWidens_iff : FirstWidens value ops ↔ ∀ before op after, ops = before ++ op :: after →
    ((new value).applyAll before).seeds op = true → EdgeSet Operation.firstTime before →
      ∀ t ∈ op.firstTime, t.timestamp ≤ ((new value).applyAll before).firstSeen.timestamp := by
  unfold FirstWidens
  simp only [applyAll_concat, apply_first_le_iff]
  constructor
  · intro widens before op after split seeds set
    exact widens before op after split set seeds
  · intro outside before op after split set seeds
    exact outside before op after split seeds set

theorem lastWidens_iff : LastWidens value ops ↔ ∀ before op after, ops = before ++ op :: after →
    ((new value).applyAll before).seeds op = true → EdgeSet Operation.lastTime before →
      ∀ t ∈ op.lastTime, ((new value).applyAll before).lastSeen.timestamp ≤ t.timestamp := by
  unfold LastWidens
  simp only [applyAll_concat, apply_last_le_iff]
  constructor
  · intro widens before op after split seeds set
    exact widens before op after split set seeds
  · intro outside before op after split set seeds
    exact outside before op after split seeds set

theorem coversSightings (first : FirstWidens value ops) (last : LastWidens value ops) :
    CoversSightings value ops := by
  -- On the last operation: it is the sighting itself, or it widens what already covered it.
  intro before
  induction before using List.reverseRecOn with
  | nil => intro after split node when ttl retention tags recorded; simp at recorded
  | append_singleton earlier op ih =>
      intro after split node when ttl retention tags recorded
      have here : ops = earlier ++ op :: after := by rw [split, List.append_assoc]; rfl
      rcases List.mem_append.mp recorded with old | new
      · have covered := ih (op :: after) here node when ttl retention tags old
        constructor
        · exact (first earlier op after here ⟨_, old, rfl⟩).trans covered.1
        · exact covered.2.trans (last earlier op after here ⟨_, old, rfl⟩)
      · obtain rfl := List.mem_singleton.mp new
        rw [applyAll_concat]
        apply apply_sight_covers

/-- Over every history: the window only widens, and covers every sighting, exactly when no
operation seeds it again from inside. -/
theorem window_only_widens (value : String) (ops : List Operation) :
    (FirstWidens value ops ∧ LastWidens value ops ∧ CoversSightings value ops) ↔
      ∀ before op after, ops = before ++ op :: after →
        SeedsOutside ((new value).applyAll before) before op := by
  constructor
  · rintro ⟨first, last, _⟩ before op after split
    constructor
    · exact firstWidens_iff.mp first before op after split
    · exact lastWidens_iff.mp last before op after split
  · intro outside
    have first : FirstWidens value ops :=
      firstWidens_iff.mpr fun before op after split => (outside before op after split).first
    have last : LastWidens value ops :=
      lastWidens_iff.mpr fun before op after split => (outside before op after split).last
    exact ⟨first, last, coversSightings first last⟩

/-- A server that lost its data gets back from a peer what it had seen from 100 to 200: its
own count is ignored, the window is kept, and the next sighting starts it again at 500. -/
theorem window_starts_again :
    let ops : List Operation :=
      [.merge ⟨OrderedMap.empty.insert "here" 5, ∅, 100, 200, "", 0, 0⟩ "here",
        .sight "here" ⟨500000000000, by decide, by decide⟩ none 0 ""]
    ¬ (FirstWidens "v" ops ∧ LastWidens "v" ops ∧ CoversSightings "v" ops) := by
  rintro ops ⟨first, _⟩
  have narrower := first [_] _ [] rfl ⟨_, List.mem_singleton_self _, rfl⟩
  exact absurd narrower (by decide)

end Attribute
end SightingDB
