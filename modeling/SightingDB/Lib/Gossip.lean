import Mathlib.Order.Lattice
import Mathlib.Logic.Function.Basic

/-!
Replicas that exchange copies of what they know. A copy is taken at one moment and may
arrive later, repeatedly or never; arriving means being joined in. Nothing here depends
on what is known beyond its being a join semilattice.
-/
namespace Gossip

variable {ι : Type*} {L : Type*}

structure State (ι : Type*) (L : Type*) where
  replica : ι → L
  sent : List (ι × L)

inductive Action (ι : Type*)
  | take (i : ι)
  | deliver (j : ι) (k : Nat)

variable [SemilatticeSup L]

/-- The log of copies only grows, and new copies are of what was known at some time since. -/
structure Grows (s t : State ι L) : Prop where
  replica : ∀ j, s.replica j ≤ t.replica j
  kept : ∀ {k : Nat} {copy : ι × L}, s.sent[k]? = some copy → t.sent[k]? = some copy
  fresh : ∀ {k : Nat} {i : ι} {x : L}, s.sent.length ≤ k → t.sent[k]? = some (i, x) → s.replica i ≤ x

theorem Grows.refl (s : State ι L) : Grows s s where
  replica _ := le_rfl
  kept found := found
  fresh late found := by simp [List.getElem?_eq_none late] at found

theorem Grows.trans {s t u : State ι L} (first : Grows s t) (second : Grows t u) : Grows s u where
  replica j := (first.replica j).trans (second.replica j)
  kept found := second.kept (first.kept found)
  fresh := by
    intro k i x late found
    by_cases early : k < t.sent.length
    · have already := second.kept (List.getElem?_eq_getElem early)
      rw [already] at found
      exact first.fresh late ((List.getElem?_eq_getElem early).trans found)
    · exact (first.replica i).trans (second.fresh (not_lt.mp early) found)

variable [DecidableEq ι]

/-- A delivery names a copy by its place in the log of copies taken. -/
def step (s : State ι L) : Action ι → Option (State ι L)
  | .take i => some { s with sent := s.sent ++ [(i, s.replica i)] }
  | .deliver j k => s.sent[k]?.map fun copy =>
      { s with replica := Function.update s.replica j (s.replica j ⊔ copy.2) }

def run (s : State ι L) : List (Action ι) → Option (State ι L)
  | [] => some s
  | a :: rest => (step s a).bind fun s' => run s' rest

theorem run_cons {s t : State ι L} {a : Action ι} {rest : List (Action ι)}
    (ran : run s (a :: rest) = some t) : ∃ m, step s a = some m ∧ run m rest = some t := by
  simpa only [run, Option.bind_eq_some_iff] using ran

theorem step_grows {s t : State ι L} {a : Action ι} (stepped : step s a = some t) : Grows s t := by
  cases a with
  | take i =>
      obtain rfl := Option.some.inj stepped
      refine ⟨fun _ => le_rfl, ?_, ?_⟩
      · intro k copy found
        obtain ⟨inside, _⟩ := List.getElem?_eq_some_iff.mp found
        simpa only [List.getElem?_append_left inside] using found
      · intro k i' x late found
        have last : k = s.sent.length := by
          obtain ⟨inside, _⟩ := List.getElem?_eq_some_iff.mp found
          simp only [List.length_append, List.length_singleton] at inside
          omega
        subst last
        simp only [List.getElem?_concat_length, Option.some.injEq, Prod.mk.injEq] at found
        obtain ⟨rfl, rfl⟩ := found
        exact le_rfl
  | deliver j k =>
      obtain ⟨copy, _, rfl⟩ := Option.map_eq_some_iff.mp stepped
      refine ⟨?_, fun found => found, fun late found => (Grows.refl s).fresh late found⟩
      intro j'
      by_cases same : j' = j
      · subst same
        simp
      · simp [same]

theorem run_grows {s t : State ι L} {as : List (Action ι)} (ran : run s as = some t) : Grows s t := by
  induction as generalizing s with
  | nil =>
      obtain rfl := Option.some.inj ran
      exact .refl s
  | cons a rest ih =>
      obtain ⟨m, stepped, ranRest⟩ := run_cons ran
      exact (step_grows stepped).trans (ih ranRest)

/-- A delivered copy is known to the receiver from then on. -/
theorem le_of_delivered {s t : State ι L} {as : List (Action ι)} {j : ι} {k : Nat} {copy : ι × L}
    (ran : run s as = some t) (delivered : .deliver j k ∈ as) (found : t.sent[k]? = some copy) :
    copy.2 ≤ t.replica j := by
  induction as generalizing s with
  | nil => simp at delivered
  | cons a rest ih =>
      obtain ⟨m, stepped, ranRest⟩ := run_cons ran
      rcases List.mem_cons.mp delivered with rfl | later
      · obtain ⟨copy', found', rfl⟩ := Option.map_eq_some_iff.mp stepped
        have kept := (step_grows stepped).trans (run_grows ranRest) |>.kept found'
        obtain rfl : copy' = copy := Option.some.inj (kept.symm.trans found)
        refine le_trans ?_ ((run_grows ranRest).replica j)
        simp
      · exact ih ranRest later

/-- Whatever bounds every replica at the start bounds every replica at the end, if the
copies that were already under way and do arrive lie below it too. -/
theorem run_bounded {s t : State ι L} {as : List (Action ι)} {u : L} (ran : run s as = some t)
    (start : ∀ j, s.replica j ≤ u)
    (stale : ∀ (j : ι) (k : Nat) (copy : ι × L), .deliver j k ∈ as → s.sent[k]? = some copy → copy.2 ≤ u) :
    ∀ j, t.replica j ≤ u := by
  -- Copies taken along the way are bounded because replicas are, so the log is split in
  -- entries bounded outright and entries that matter only when delivered.
  induction as generalizing s with
  | nil =>
      obtain rfl := Option.some.inj ran
      exact start
  | cons a rest ih =>
      obtain ⟨m, stepped, ranRest⟩ := run_cons ran
      cases a with
      | take i =>
          obtain rfl := Option.some.inj stepped
          refine ih ranRest start ?_
          intro j k copy delivered found
          by_cases old : k < s.sent.length
          · simp only [List.getElem?_append_left old] at found
            exact stale j k copy (List.mem_cons_of_mem _ delivered) found
          · simp only [List.getElem?_append_right (not_lt.mp old), List.getElem?_singleton] at found
            split_ifs at found
            obtain rfl := Option.some.inj found
            exact start i
      | deliver j' k' =>
          obtain ⟨copy', found', rfl⟩ := Option.map_eq_some_iff.mp stepped
          refine ih ranRest ?_ ?_
          · intro j
            by_cases same : j = j'
            · subst same
              simpa using ⟨start j, stale j k' copy' (by simp) found'⟩
            · simpa [same] using start j
          · intro j k copy delivered found
            exact stale j k copy (List.mem_cons_of_mem _ delivered) found

/-- Once every replica that knew anything has had a copy taken since the start delivered to
every other, all know the same, provided that nothing older arrives that none of them knew. -/
theorem exchange_agrees {s t : State ι L} {as : List (Action ι)} (ran : run s as = some t)
    (silent : ι → Prop) (nothing : ∀ i, silent i → ∀ x : L, s.replica i ≤ x)
    (exchanged : ∀ i j, ¬ silent i → i ≠ j →
      ∃ (k : Nat) (x : L), s.sent.length ≤ k ∧ t.sent[k]? = some (i, x) ∧ .deliver j k ∈ as)
    (known : ∀ (j : ι) (k : Nat) (i : ι) (x : L), .deliver j k ∈ as → s.sent[k]? = some (i, x) → x ≤ s.replica i) (j j' : ι) :
    t.replica j = t.replica j' := by
  have above : ∀ i j, s.replica i ≤ t.replica j := by
    intro i j
    by_cases quiet : silent i
    · exact nothing i quiet _
    · by_cases same : i = j
      · subst same
        exact (run_grows ran).replica i
      · obtain ⟨k, x, late, found, delivered⟩ := exchanged i j quiet same
        exact ((run_grows ran).fresh late found).trans (le_of_delivered ran delivered found)
  have below : ∀ j j', t.replica j ≤ t.replica j' := by
    intro j j'
    refine run_bounded ran (fun i => above i j') ?_ j
    intro r k copy delivered found
    exact (known r k copy.1 copy.2 delivered found).trans (above copy.1 j')
  exact le_antisymm (below j j') (below j' j)

end Gossip
