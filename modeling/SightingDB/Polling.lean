import SightingDB.RecentWrites

/-!
Asking for what was written since some time. The list is walked from the newest entry and the
walk ends at the first one written before that time: the order of arrival is taken for the
order of the times. They differ when the clock is put back, and when two writers read it in
one order and come to the list in the other.
-/
namespace SightingDB
namespace Latest

variable (latest : Latest) (limit : Nat) (since : Option Int) (start : String) (visible : String → Bool)

/-- Written before the time that was given. -/
def isOlder (entry : LatestEntry) : Bool := since.any (entry.written < ·)

/-- What a caller is to be shown: visible, under the prefix, and written at or after the time. -/
def wanted (entry : LatestEntry) : Bool :=
  !isOlder since entry && (inSubtree start entry.namespace_ && visible entry.namespace_)

/-- The first of the held entries that are wanted, the most recent first. -/
def newestWanted : List LatestEntry := (latest.entries.reverse.filter (wanted since start visible)).take limit

/-- Nothing wanted is behind an older entry, unless the answer is full before that one. -/
def NothingBehind : Prop :=
  ∀ newer entry behind, latest.entries.reverse = newer ++ entry :: behind → isOlder since entry = true →
    newer.countP (wanted since start visible) < limit → ∀ other ∈ behind, wanted since start visible other = false

variable {limit since start visible}

/-- The walk collects what is wanted in front of the first older entry. -/
theorem walk_eq (found entries : List LatestEntry) : walk limit since start visible found entries =
    found ++ ((entries.takeWhile fun e => !isOlder since e).filter (wanted since start visible)).take (limit - found.length) := by
  induction entries generalizing found with
  | nil => simp [walk]
  | cons entry behind ih =>
      unfold walk
      by_cases full : limit ≤ found.length
      · rw [if_pos full, Nat.sub_eq_zero_of_le full, List.take_zero, List.append_nil]
      rw [if_neg full]
      cases older : since.any (entry.written < ·) with
      | true =>
          have stops : isOlder since entry = true := older
          simp [stops]
      | false =>
          have goes : isOlder since entry = false := older
          rw [if_neg (by simp), List.takeWhile_cons_of_pos (by simp [goes]), List.filter_cons]
          cases shown : inSubtree start entry.namespace_ && visible entry.namespace_ with
          | false =>
              rw [if_neg (by simp), if_neg (by simp [wanted, shown]), ih]
          | true =>
              have room : limit - found.length = (limit - (found ++ [entry]).length) + 1 := by
                rw [List.length_append, List.length_singleton]
                omega
              rw [if_pos rfl, if_pos (by simp [wanted, goes, shown]), ih, room, List.take_succ_cons, List.append_assoc,
                List.singleton_append]

theorem recent_eq : latest.recent limit since start visible =
    ((latest.entries.reverse.takeWhile fun e => !isOlder since e).filter (wanted since start visible)).take
      (min limit maxLimit) := by
  rw [recent, walk_eq]
  simp

theorem not_wanted_of_older {entry : LatestEntry} (older : isOlder since entry = true) :
    wanted since start visible entry = false := by
  simp [wanted, older]

/-- Taking the first of what is in front of the stop, or of everything. -/
theorem take_front_iff {front behind : List LatestEntry} :
    front.take limit = (front ++ behind).take limit ↔ limit ≤ front.length ∨ behind = [] := by
  rw [List.take_append, List.self_eq_append_right, List.take_eq_nil_iff, Nat.sub_eq_zero_iff_le]

/-- Wherever an element stands that ends the front, the front is before it, and it and all behind it are what is left. -/
theorem split_at_stop {α : Type} {p : α → Bool} {all newer later : List α} {a : α} (split : all = newer ++ a :: later)
    (stop : p a = false) : all.takeWhile p <+: newer ∧ a :: later <:+ all.dropWhile p := by
  have front : (a :: later).takeWhile p = [] := List.takeWhile_cons_of_neg (by rw [stop]; exact Bool.false_ne_true)
  have back : (a :: later).dropWhile p = a :: later := List.dropWhile_cons_of_neg (by rw [stop]; exact Bool.false_ne_true)
  rw [split, List.takeWhile_append, List.dropWhile_append, front, back, List.append_nil]
  constructor
  · split
    · exact List.prefix_rfl
    · exact List.takeWhile_prefix p
  · split
    · exact List.suffix_rfl
    · exact List.suffix_append _ _

/-- The first older entry is the one that matters. -/
theorem nothingBehind_iff : latest.NothingBehind limit since start visible ↔
    limit ≤ ((latest.entries.reverse.takeWhile fun e => !isOlder since e).filter (wanted since start visible)).length ∨
      (latest.entries.reverse.dropWhile fun e => !isOlder since e).filter (wanted since start visible) = [] := by
  unfold NothingBehind
  rw [← List.countP_eq_length_filter, List.filter_eq_nil_iff]
  generalize latest.entries.reverse = all
  constructor
  · intro nothing
    have whole := List.takeWhile_append_dropWhile (p := fun e => !isOlder since e) (l := all)
    cases rest : all.dropWhile fun e => !isOlder since e with
    | nil => exact .inr fun _ member => absurd member List.not_mem_nil
    | cons first behind =>
        have older : isOlder since first = true := by
          have stop := List.head_dropWhile_not (fun e => !isOlder since e) (l := all) (by rw [rest]; simp)
          simpa [rest] using stop
        rw [rest] at whole
        by_cases full : limit ≤ (all.takeWhile fun e => !isOlder since e).countP (wanted since start visible)
        · exact .inl full
        · right
          intro other member
          rw [Bool.not_eq_true]
          rcases List.mem_cons.mp member with rfl | later
          · exact not_wanted_of_older older
          · exact nothing _ _ _ whole.symm older (Nat.not_le.mp full) other later
  · intro enough newer entry later split older short other member
    have stop : (!isOlder since entry) = false := by rw [older, Bool.not_true]
    obtain ⟨front, back⟩ := split_at_stop (p := fun e => !isOlder since e) split stop
    rcases enough with full | none_
    · have fewer := front.sublist.countP_le (p := wanted since start visible)
      omega
    · exact Bool.not_eq_true _ ▸ none_ other (back.subset (List.mem_cons_of_mem _ member))

/-- More than the cap is never shown. -/
theorem take_cap_iff {α : Type} {shown : List α} {limit cap : Nat} :
    shown.take (min limit cap) = shown.take limit ↔ limit ≤ cap ∨ shown.length ≤ cap := by
  constructor
  · intro same
    have sizes := congrArg List.length same
    rw [List.length_take, List.length_take] at sizes
    omega
  · rintro (fits | few)
    · rw [Nat.min_eq_left fits]
    · rcases Nat.le_total limit cap with fits | less
      · rw [Nat.min_eq_left fits]
      · rw [Nat.min_eq_right less, List.take_of_length_le few, List.take_of_length_le (few.trans less)]

/-- For every list, however its times are ordered: a caller is shown the newest of what it asks for
exactly when nothing of it is behind an entry that is too old, and it is no more than the cap or no
more was asked for. -/
theorem recent_iff (latest : Latest) (limit : Nat) (since : Option Int) (start : String) (visible : String → Bool) :
    latest.recent limit since start visible = latest.newestWanted limit since start visible ↔
      (limit ≤ maxLimit ∨ latest.entries.countP (wanted since start visible) ≤ maxLimit) ∧
        latest.NothingBehind (min limit maxLimit) since start visible := by
  have whole := List.takeWhile_append_dropWhile (p := fun e => !isOlder since e) (l := latest.entries.reverse)
  have count : latest.entries.countP (wanted since start visible) =
      (latest.entries.reverse.filter (wanted since start visible)).length := by
    rw [← List.countP_eq_length_filter, List.countP_reverse]
  have parts : latest.entries.reverse.filter (wanted since start visible) =
      ((latest.entries.reverse.takeWhile fun e => !isOlder since e).filter (wanted since start visible)) ++
        (latest.entries.reverse.dropWhile fun e => !isOlder since e).filter (wanted since start visible) := by
    rw [← List.filter_append, whole]
  rw [recent_eq, nothingBehind_iff, count, newestWanted, ← take_cap_iff, ← take_front_iff, ← parts]
  constructor
  · intro shown
    -- What is shown is within the cap, so the cap takes nothing from what is to be shown.
    have capped : (latest.entries.reverse.filter (wanted since start visible)).take (min limit maxLimit) =
        (latest.entries.reverse.filter (wanted since start visible)).take limit := by
      rw [take_cap_iff]
      have sizes := congrArg List.length shown
      rw [List.length_take, List.length_take] at sizes
      omega
    exact ⟨capped, shown.trans capped.symm⟩
  · rintro ⟨capped, shown⟩
    exact shown.trans capped

/-- Two writers read the clock in one order and come to the list in the other. Who asks for what was
written since the later time is not shown the write that was, now or later. -/
theorem later_write_missed : ¬ ∀ (latest : Latest) (limit : Nat) (since : Option Int) (start : String)
    (visible : String → Bool), latest.recent limit since start visible = latest.newestWanted limit since start visible := by
  intro shows
  have shown := shows (run 10 [.record "feeds" "b" 11, .record "feeds" "a" 10]) 100 (some 11) "" fun _ => true
  exact absurd shown (by decide)

/-- What the walk rests on: with the entries in the order of their times, nothing is missed. -/
theorem nothingBehind_of_ordered (ordered : latest.entries.Pairwise fun earlier later => earlier.written ≤ later.written) :
    latest.NothingBehind limit since start visible := by
  intro newer entry behind split older _ other member
  apply not_wanted_of_older
  have back := List.pairwise_reverse.mpr ordered
  rw [split] at back
  have order : other.written ≤ entry.written := (List.pairwise_cons.mp (List.pairwise_append.mp back).2.1).1 other member
  cases since with
  | none => cases older
  | some time =>
      simp only [isOlder, Option.any_some, decide_eq_true_eq] at older ⊢
      omega

end Latest
end SightingDB
