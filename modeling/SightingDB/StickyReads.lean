import SightingDB.Galaxy
import Mathlib.Data.List.Permutation
import Mathlib.Data.Set.Function

/-!
The mirror a read goes to. As long as no two candidates weigh the same for a value, the choice
depends on who can answer and not on the order of the list, and a change to another mirror
leaves it alone.
-/
namespace SightingDB

namespace Galaxy

/-! ## The heaviest of a list -/

section

variable {weight : Peer → Nat}

/-- What is found is one of the list, and nothing in it is heavier. -/
theorem heaviest_spec {peers : List Peer} {peer : Peer} (found : heaviest weight peers = some peer) :
    peer ∈ peers ∧ ∀ other ∈ peers, weight other ≤ weight peer := by
  induction peers using List.reverseRecOn generalizing peer with
  | nil => cases found
  | append_singleton rest last ih =>
      rw [heaviest_concat] at found
      split at found
      · rename_i none
        obtain rfl := Option.some.inj found
        simp [heaviest_eq_none.mp none]
      · rename_i known before
        obtain ⟨member, top⟩ := ih before
        split at found
        · rename_i below
          obtain rfl := Option.some.inj found
          refine ⟨by simp, fun other mem => ?_⟩
          rcases List.mem_append.mp mem with earlier | last
          · exact (top other earlier).trans below
          · exact (List.mem_singleton.mp last ▸ le_rfl)
        · rename_i above
          obtain rfl := Option.some.inj found
          refine ⟨List.mem_append_left _ member, fun other mem => ?_⟩
          rcases List.mem_append.mp mem with earlier | last
          · exact top other earlier
          · obtain rfl := List.mem_singleton.mp last
            omega

/-- Where no two weigh the same there is one heaviest, wherever it stands in the list. -/
theorem heaviest_eq_some {peers : List Peer} (distinct : Set.InjOn weight {peer | peer ∈ peers}) {peer : Peer} :
    heaviest weight peers = some peer ↔ peer ∈ peers ∧ ∀ other ∈ peers, weight other ≤ weight peer := by
  refine ⟨heaviest_spec, fun ⟨member, top⟩ => ?_⟩
  cases found : heaviest weight peers with
  | none =>
      rw [heaviest_eq_none.mp found] at member
      cases member
  | some known =>
      obtain ⟨here, above⟩ := heaviest_spec found
      exact congrArg some (distinct here member (le_antisymm (top known here) (above peer member)))

end

/-! ## Candidates -/

variable (galaxy : Galaxy) (weigh : String → String → Nat) (name value : String)

/-- The mirrors a read may go to. -/
def candidates : List Peer :=
  let live := galaxy.liveHolders name
  let current := live.filter fun peer => !galaxy.catchingUp peer.url
  if current.isEmpty then live else current

theorem readerFor_eq : galaxy.readerFor weigh name value = heaviest (fun peer => weigh value peer.url) (galaxy.candidates name) :=
  rfl

/-- A mirror behind is a candidate when every one is. -/
theorem mem_candidates {peer : Peer} : peer ∈ galaxy.candidates name ↔ peer ∈ galaxy.liveHolders name ∧
    (galaxy.catchingUp peer.url = true → ∀ other ∈ galaxy.liveHolders name, galaxy.catchingUp other.url = true) := by
  rw [candidates]
  split
  · rename_i empty
    have behind : ∀ other ∈ galaxy.liveHolders name, galaxy.catchingUp other.url = true := fun other member => by
      simpa using List.filter_eq_nil_iff.mp (List.isEmpty_iff.mp empty) other member
    exact ⟨fun member => ⟨member, fun _ => behind⟩, And.left⟩
  · rename_i some_
    obtain ⟨fresh, member⟩ := List.exists_mem_of_ne_nil _ fun nil => some_ (List.isEmpty_iff.mpr nil)
    obtain ⟨live, upToDate⟩ := List.mem_filter.mp member
    rw [List.mem_filter, Bool.not_eq_true']
    refine and_congr_right fun _ => ⟨fun not behind => ?_, fun all => ?_⟩
    · rw [not] at behind
      cases behind
    · refine Bool.eq_false_iff.mpr fun behind => ?_
      rw [all behind fresh live] at upToDate
      cases upToDate

theorem mem_liveHolders {peer : Peer} : peer ∈ galaxy.liveHolders name ↔
    peer ∈ galaxy.peers ∧ peer.enabled = true ∧ peer.stores.holds name = true ∧ galaxy.down peer.url = false := by
  rw [liveHolders, holders, List.mem_filter, List.mem_filter, Bool.and_eq_true, Bool.not_eq_true', and_assoc, and_assoc]

theorem candidates_ne_nil (live : galaxy.liveHolders name ≠ []) : galaxy.candidates name ≠ [] := by
  rw [candidates]
  split
  · exact live
  · rename_i some_
    exact fun nil => some_ (List.isEmpty_iff.mpr nil)

/-- No two mirrors that could answer weigh the same for a value. -/
def Distinct : Prop := Set.InjOn (fun peer : Peer => weigh value peer.url) {peer | peer ∈ galaxy.liveHolders name}

/-- The same health and the same progress for every URL. -/
structure SameHealth (other : Galaxy) : Prop where
  down : other.down = galaxy.down
  catchingUp : other.catchingUp = galaxy.catchingUp

variable {galaxy weigh name value} {other : Galaxy} {peer : Peer}

theorem Distinct.candidates (distinct : galaxy.Distinct weigh name value) :
    Set.InjOn (fun peer : Peer => weigh value peer.url) {peer | peer ∈ galaxy.candidates name} :=
  distinct.mono fun _ member => ((galaxy.mem_candidates name).mp member).1

theorem Distinct.reader_iff (distinct : galaxy.Distinct weigh name value) : galaxy.readerFor weigh name value = some peer ↔
    peer ∈ galaxy.candidates name ∧ ∀ rival ∈ galaxy.candidates name, weigh value rival.url ≤ weigh value peer.url := by
  rw [readerFor_eq, heaviest_eq_some distinct.candidates]

theorem reader_none : galaxy.readerFor weigh name value = none ↔ galaxy.liveHolders name = [] := by
  rw [readerFor_eq, heaviest_eq_none]
  constructor
  · intro none
    by_contra live
    exact galaxy.candidates_ne_nil name live none
  · intro none
    rw [Galaxy.candidates, none]
    rfl

/-- With one mirror more that can answer, a value stays where it was or moves to that one. -/
theorem reader_of_gain (health : galaxy.SameHealth other) (distinct : other.Distinct weigh name value)
    (keeps : ∀ p ∈ galaxy.liveHolders name, p ∈ other.liveHolders name)
    (gains : ∀ p ∈ other.liveHolders name, p = peer ∨ p ∈ galaxy.liveHolders name) :
    other.readerFor weigh name value = galaxy.readerFor weigh name value ∨ other.readerFor weigh name value = some peer := by
  have known : galaxy.Distinct weigh name value := Set.InjOn.mono keeps distinct
  cases chosen : other.readerFor weigh name value with
  | none =>
      have empty := reader_none.mp chosen
      refine .inl (reader_none.mpr (List.eq_nil_iff_forall_not_mem.mpr fun p member => ?_)).symm
      have there := keeps p member
      rw [empty] at there
      cases there
  | some winner =>
      obtain ⟨candidate, top⟩ := distinct.reader_iff.mp chosen
      obtain ⟨live, fallback⟩ := (other.mem_candidates name).mp candidate
      rcases gains winner live with rfl | before
      · exact .inr rfl
      · refine .inl (known.reader_iff.mpr ⟨?_, fun rival member => ?_⟩).symm
        · refine (galaxy.mem_candidates name).mpr ⟨before, fun behind p member => ?_⟩
          rw [← health.catchingUp] at behind ⊢
          exact fallback behind p (keeps p member)
        · obtain ⟨rivals, rivalFallback⟩ := (galaxy.mem_candidates name).mp member
          -- A rival that is behind may have been a candidate only because every mirror was.
          by_cases still : rival ∈ other.candidates name
          · exact top rival still
          · exfalso
            have behind : galaxy.catchingUp rival.url = true := by
              by_contra fresh
              refine still ((other.mem_candidates name).mpr ⟨keeps rival rivals, fun late => absurd ?_ fresh⟩)
              rwa [health.catchingUp] at late
            have winnerBehind : other.catchingUp winner.url = true := by
              rw [health.catchingUp]
              exact rivalFallback behind winner before
            exact still ((other.mem_candidates name).mpr ⟨keeps rival rivals, fun _ => fallback winnerBehind⟩)

/-- A list with the same mirrors that can answer gives the same choice. -/
theorem reader_congr (health : galaxy.SameHealth other) (distinct : galaxy.Distinct weigh name value)
    (same : ∀ p, p ∈ other.liveHolders name ↔ p ∈ galaxy.liveHolders name) :
    other.readerFor weigh name value = galaxy.readerFor weigh name value := by
  have there : other.Distinct weigh name value := distinct.mono fun p member => (same p).mp member
  have candidates : ∀ p, p ∈ other.candidates name ↔ p ∈ galaxy.candidates name := fun p => by
    rw [mem_candidates, mem_candidates, health.catchingUp, same]
    simp only [same]
  refine Option.ext fun p => ?_
  rw [there.reader_iff, distinct.reader_iff, candidates]
  simp only [candidates]

/-- Taking out a mirror that was not chosen changes nothing. -/
theorem reader_of_loss (health : galaxy.SameHealth other) (distinct : galaxy.Distinct weigh name value)
    (keeps : ∀ p ∈ other.liveHolders name, p ∈ galaxy.liveHolders name)
    (loses : ∀ p ∈ galaxy.liveHolders name, p = peer ∨ p ∈ other.liveHolders name)
    (unchosen : galaxy.readerFor weigh name value ≠ some peer) :
    other.readerFor weigh name value = galaxy.readerFor weigh name value := by
  rcases reader_of_gain ⟨health.down.symm, health.catchingUp.symm⟩ distinct keeps loses with same | moved
  · exact same.symm
  · exact absurd moved unchosen

/-- A peer as it is once it has been disabled. -/
def disable (url : String) (peer : Peer) : Peer := if peer.url = url then { peer with enabled := false } else peer

theorem live_of_removed (health : galaxy.SameHealth other) {url : String}
    (removed : other.peers = galaxy.peers.filter (·.url ≠ url) ∨ other.peers = galaxy.peers.map (disable url)) (p : Peer) :
    p ∈ other.liveHolders name ↔ p ∈ galaxy.liveHolders name ∧ p.url ≠ url := by
  rw [mem_liveHolders, mem_liveHolders, health.down]
  rcases removed with removed | disabled
  · rw [removed, List.mem_filter, decide_eq_true_iff]
    tauto
  · rw [disabled, List.mem_map]
    constructor
    · rintro ⟨⟨p, member, rfl⟩, rest⟩
      rw [disable] at rest ⊢
      split_ifs at rest ⊢ with off
      · exact absurd rest.1 (by simp)
      · exact ⟨⟨member, rest⟩, off⟩
    · rintro ⟨⟨member, rest⟩, on⟩
      exact ⟨⟨p, member, if_neg on⟩, rest⟩

/-- Where the mirrors that can answer weigh differently for a value: the order of the peers does not
matter; taking out or disabling a mirror that was not chosen changes nothing; a mirror that is
added takes the value or leaves it where it was; and the one chosen holds the namespace, is not
known to be down, and is catching up only when all that could answer are. -/
theorem reads_stick (galaxy : Galaxy) (weigh : String → String → Nat) (name value : String)
    (distinct : galaxy.Distinct weigh name value) :
    (∀ other, galaxy.SameHealth other → other.peers.Perm galaxy.peers →
      other.readerFor weigh name value = galaxy.readerFor weigh name value) ∧
    (∀ other, galaxy.SameHealth other → ∀ peer ∈ galaxy.peers,
      other.peers = galaxy.peers.filter (·.url ≠ peer.url) ∨ other.peers = galaxy.peers.map (disable peer.url) →
      galaxy.readerFor weigh name value ≠ some peer →
      other.readerFor weigh name value = galaxy.readerFor weigh name value) ∧
    (∀ other, galaxy.SameHealth other → ∀ peer, other.peers.Perm (peer :: galaxy.peers) → other.Distinct weigh name value →
      other.readerFor weigh name value = galaxy.readerFor weigh name value ∨
        other.readerFor weigh name value = some peer) ∧
    (∀ peer, galaxy.readerFor weigh name value = some peer → peer ∈ galaxy.peers ∧ peer.enabled = true ∧
      peer.stores.holds name = true ∧ galaxy.down peer.url = false ∧
      (galaxy.catchingUp peer.url = true → ∀ rival ∈ galaxy.liveHolders name, galaxy.catchingUp rival.url = true)) := by
  refine ⟨fun other health shuffled => ?_, fun other health peer member removed unchosen => ?_,
    fun other health peer added apart => ?_, fun peer chosen => ?_⟩
  · refine reader_congr health distinct fun p => ?_
    rw [mem_liveHolders, mem_liveHolders, health.down, shuffled.mem_iff]
  · have live := @live_of_removed galaxy name other health _ removed
    refine reader_of_loss health distinct (fun p there => ((live p).mp there).1) (fun p here => ?_) unchosen
    by_cases same : p.url = peer.url
    · exact .inl (List.inj_on_of_nodup_map galaxy.apart ((galaxy.mem_liveHolders name).mp here).1 member same)
    · exact .inr ((live p).mpr ⟨here, same⟩)
  · refine reader_of_gain health apart (fun p here => ?_) fun p there => ?_
    · obtain ⟨member, rest⟩ := (galaxy.mem_liveHolders name).mp here
      rw [← health.down] at rest
      exact (other.mem_liveHolders name).mpr ⟨added.mem_iff.mpr (List.mem_cons_of_mem _ member), rest⟩
    · obtain ⟨member, rest⟩ := (other.mem_liveHolders name).mp there
      rw [health.down] at rest
      exact (List.mem_cons.mp (added.mem_iff.mp member)).imp_right fun before => (galaxy.mem_liveHolders name).mpr ⟨before, rest⟩
  · obtain ⟨live, fallback⟩ := (galaxy.mem_candidates name).mp (distinct.reader_iff.mp chosen).1
    obtain ⟨member, enabled, holds, up⟩ := (galaxy.mem_liveHolders name).mp live
    exact ⟨member, enabled, holds, up, fallback⟩

/-- A mirror of everything. -/
def mirrorAt (url : String) : Peer := ⟨url, "k", .storeEverything, true⟩

theorem url_mirrorAt (urls : List String) : (urls.map mirrorAt).map (·.url) = urls := by
  rw [List.map_map]
  exact List.map_id urls

theorem apart_of_nodup {urls : List String} (nodup : urls.Nodup) : ((urls.map mirrorAt).map (·.url)).Nodup := by
  rwa [url_mirrorAt]

/-- Mirrors of which one is catching up. -/
def mirrors (urls : List String) (nodup : urls.Nodup) : Galaxy :=
  ⟨urls.map mirrorAt, defaultMaxHops, fun _ => false, (· = "http://b"), apart_of_nodup nodup, defaultMaxHops_pos⟩

theorem three_nodup : ["http://a", "http://b", "http://c"].Nodup := by decide

theorem two_nodup : ["http://b", "http://c"].Nodup := by decide

/-- The weights of one value. -/
def weighed (value url : String) : Nat :=
  if value = "v" then
    if url = "http://a" then 14333667281670643
    else if url = "http://b" then 7066283384965707166
    else if url = "http://c" then 15341643154605090230
    else 0
  else 0

theorem reads_stick_three :
    (mirrors _ three_nodup).readerFor weighed "feeds" "v" = some (mirrorAt "http://c") ∧
    (mirrors _ two_nodup).readerFor weighed "feeds" "v" = some (mirrorAt "http://c") := by
  have alike : ∀ p ∈ (mirrors _ three_nodup).liveHolders "feeds", ∀ q ∈ (mirrors _ three_nodup).liveHolders "feeds",
      weighed "v" p.url = weighed "v" q.url → p = q := by decide
  have three : (mirrors _ three_nodup).readerFor weighed "feeds" "v" = some (mirrorAt "http://c") := by decide
  have removed := (reads_stick (mirrors _ three_nodup) weighed "feeds" "v"
    fun p here q there same => alike p here q there same).2.1
  refine ⟨three, (removed (mirrors _ two_nodup) ⟨rfl, rfl⟩ (mirrorAt "http://a") (by decide) (.inl (by decide)) ?_).trans three⟩
  rw [three]
  decide

end Galaxy

end SightingDB
