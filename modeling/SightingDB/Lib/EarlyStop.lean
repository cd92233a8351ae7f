import Mathlib.Data.List.Basic
import Mathlib.Data.List.TakeDrop

/-!
A search that stops as soon as everything is accounted for, or one match past its limit. When
the number of matches was not underestimated, stopping early loses nothing.
-/
namespace EarlyStop

variable {α β : Type*}

/-- The matches that are shown. -/
def hits (look : α → Option β) (shown : α → Bool) (l : List α) : List β := (l.filter shown).filterMap look

/-- What was collected, and whether the limit cut the search. -/
def search (look : α → Option β) (shown : α → Bool) (target limit : Nat) : List α → Nat → List β → List β × Bool
  | [], _, found => (found, false)
  | a :: rest, seen, found =>
      if 0 < target ∧ target ≤ seen then (found, false)
      else match look a with
        | none => search look shown target limit rest seen found
        | some b =>
            if !shown a then search look shown target limit rest (seen + 1) found
            else if limit ≤ found.length then (found, true)
            else search look shown target limit rest (seen + 1) (found ++ [b])

variable {look : α → Option β} {shown : α → Bool} {l : List α}

theorem hits_of_none (none_ : l.countP (fun a => (look a).isSome) = 0) : hits look shown l = [] := by
  rw [List.countP_eq_zero] at none_
  rw [hits, List.filterMap_eq_nil_iff]
  intro a member
  simpa using none_ a (List.mem_of_mem_filter member)

/-- The search finds the first matches there is room for, and is cut when there are more. -/
theorem search_eq {target limit seen : Nat} {found : List β}
    (accounted : seen + l.countP (fun a => (look a).isSome) ≤ target) (room : found.length ≤ limit) :
    search look shown target limit l seen found =
      (found ++ (hits look shown l).take (limit - found.length),
        decide (limit < found.length + (hits look shown l).length)) := by
  induction l generalizing seen found with
  | nil => simp [search, hits, Nat.not_lt.mpr room]
  | cons a rest ih =>
      rw [search]
      by_cases done : 0 < target ∧ target ≤ seen
      · have none_ : (a :: rest).countP (fun a => (look a).isSome) = 0 := by omega
        rw [if_pos done, hits_of_none none_]
        simp [Nat.not_lt.mpr room]
      rw [if_neg done]
      rw [List.countP_cons] at accounted
      cases answer : look a with
      | none =>
          have same : hits look shown (a :: rest) = hits look shown rest := by
            cases visible : shown a <;> simp [hits, visible, answer]
          simp only [same]
          exact ih (by omega) room
      | some b =>
          simp only [answer, Option.isSome_some, if_true] at accounted
          cases visible : shown a with
          | false =>
              have same : hits look shown (a :: rest) = hits look shown rest := by simp [hits, visible]
              simp only [Bool.not_false, if_true, same]
              exact ih (by omega) room
          | true =>
              have more : hits look shown (a :: rest) = b :: hits look shown rest := by
                simp [hits, visible, answer]
              simp only [Bool.not_true, Bool.false_eq_true, if_false, more]
              by_cases full : limit ≤ found.length
              · have spent : limit - found.length = 0 := by omega
                have beyond : limit < found.length + (b :: hits look shown rest).length := by simp; omega
                rw [if_pos full, spent, List.take_zero, List.append_nil, decide_eq_true beyond]
              · rw [if_neg full, ih (by omega) (by rw [List.length_append]; exact Nat.not_le.mp full)]
                obtain ⟨left, leaves⟩ : ∃ left, limit - found.length = left + 1 := ⟨limit - found.length - 1, by omega⟩
                have fewer : limit - (found ++ [b]).length = left := by simp; omega
                have total : (found ++ [b]).length + (hits look shown rest).length =
                    found.length + (b :: hits look shown rest).length := by simp; omega
                rw [leaves, fewer, total, List.take_succ_cons, List.append_assoc, List.singleton_append]

end EarlyStop
