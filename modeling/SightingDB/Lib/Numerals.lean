import Mathlib.Data.List.Basic
import Mathlib.Data.List.Induction
import Mathlib.Data.List.TakeWhile

/-!
Numbers written out in digits. A number has one numeral with no zero in front, which is what is left of any of its numerals
when the zeros in front are taken off. Digits may also be taken two at a time, as those of a larger base.
-/
namespace Numerals

theorem digitChar_inj {d e : Nat} (small : d < 16) (small' : e < 16) (same : d.digitChar = e.digitChar) : d = e := by
  have table : ∀ d e : Fin 16, Nat.digitChar d = Nat.digitChar e → d = e := by decide
  exact congrArg Fin.val (table ⟨d, small⟩ ⟨e, small'⟩ same)

/-- Different numbers are written differently. -/
theorem toDigits_injective {base : Nat} (more : 1 < base) (most : base ≤ 16) : Function.Injective (Nat.toDigits base) := by
  intro n
  induction n using Nat.strong_induction_on with
  | _ n ih =>
      intro m same
      have inside : ∀ k, k % base < 16 := fun k => (Nat.mod_lt k (by omega)).trans_le most
      have some_ : ∀ k, 0 < (Nat.toDigits base k).length := fun _ => Nat.length_toDigits_pos
      by_cases short : n < base
      · rw [Nat.toDigits_of_lt_base short] at same
        by_cases short' : m < base
        · rw [Nat.toDigits_of_lt_base short', List.singleton_inj] at same
          exact digitChar_inj (short.trans_le most) (short'.trans_le most) same
        · rw [Nat.toDigits_of_base_le more (not_lt.mp short')] at same
          have lengths := congrArg List.length same
          rw [List.length_append, List.length_singleton, List.length_singleton] at lengths
          have := some_ (m / base)
          omega
      · rw [Nat.toDigits_of_base_le more (not_lt.mp short)] at same
        by_cases short' : m < base
        · rw [Nat.toDigits_of_lt_base short'] at same
          have lengths := congrArg List.length same
          rw [List.length_append, List.length_singleton, List.length_singleton] at lengths
          have := some_ (n / base)
          omega
        · rw [Nat.toDigits_of_base_le more (not_lt.mp short')] at same
          obtain ⟨front, last⟩ := List.append_inj' same rfl
          have upper : n / base = m / base := ih (n / base) (Nat.div_lt_self (by omega) more) front
          have lower : n % base = m % base := digitChar_inj (inside n) (inside m) (List.singleton_inj.mp last)
          rw [← Nat.div_add_mod n base, ← Nat.div_add_mod m base, upper, lower]

/-- What stands in a numeral are digits of its base. -/
theorem mem_toDigits {base : Nat} (more : 1 < base) {n : Nat} {c : Char} (member : c ∈ Nat.toDigits base n) :
    ∃ d < base, c = d.digitChar := by
  induction n using Nat.strong_induction_on with
  | _ n ih =>
      by_cases short : n < base
      · rw [Nat.toDigits_of_lt_base short, List.mem_singleton] at member
        exact ⟨n, short, member⟩
      · rw [Nat.toDigits_of_base_le more (not_lt.mp short), List.mem_append, List.mem_singleton] at member
        rcases member with front | last
        · exact ih (n / base) (Nat.div_lt_self (by omega) more) front
        · exact ⟨n % base, Nat.mod_lt n (by omega), last⟩

theorem toString_injective : Function.Injective (fun n : Nat => toString n) := by
  intro n m same
  have digits : Nat.toDigits 10 n = Nat.toDigits 10 m := by
    have texts := congrArg String.toList same
    simpa only [Nat.toString_eq_repr, Nat.toList_repr] using texts
  exact toDigits_injective (by decide) (by decide) digits

/-- Only zero is written with a zero in front. -/
theorem head_toDigits {n : Nat} (zero : (Nat.toDigits 10 n).head? = some '0') : n = 0 := by
  induction n using Nat.strongRecOn with
  | ind n ih =>
      by_cases small : n < 10
      · rw [Nat.toDigits_of_lt_base small] at zero
        have value : (n.digitChar).toNat - '0'.toNat = n := Nat.toNat_digitChar_sub_48_of_lt_ten small
        rw [Option.some.inj zero] at value
        simpa using value.symm
      · rw [Nat.toDigits_of_base_le (by decide) (by omega),
          List.head?_append_of_ne_nil _ Nat.toDigits_ne_nil] at zero
        have := ih (n / 10) (by omega) zero
        omega

/-- A numeral without the zeros in front of it. -/
def stripZeros (digits : List Char) : List Char :=
  match digits.dropWhile (· = '0') with
  | [] => ['0']
  | c :: rest => c :: rest

/-- A numeral with no zero in front stays as it is, and so does a zero. -/
theorem stripZeros_eq_self {digits : List Char} (some_ : digits ≠ []) (front : 1 < digits.length → digits.head? ≠ some '0') :
    stripZeros digits = digits := by
  cases digits with
  | nil => exact absurd rfl some_
  | cons c rest =>
      by_cases zero : c = '0'
      · subst zero
        cases rest with
        | nil => rfl
        | cons d more =>
            rw [List.length_cons, List.length_cons] at front
            exact absurd rfl (front (by omega))
      · have stop : (c :: rest).dropWhile (· = '0') = c :: rest := List.dropWhile_cons_of_neg (by simpa using zero)
        rw [stripZeros, stop]

theorem digitChar_of_isDigit {c : Char} (digit : c.isDigit = true) : (c.toNat - '0'.toNat).digitChar = c := by
  have range : 48 ≤ c.toNat ∧ c.toNat ≤ 57 := Char.isDigit_iff_toNat.mp digit
  have zero : '0'.toNat = 48 := rfl
  apply Char.toNat_inj.mp
  rw [zero, Nat.toNat_digitChar_of_lt_ten (by omega)]
  omega

/-- Only zeros are the number nothing. -/
theorem ofDigitChars_eq_zero_iff {digits : List Char} (all : ∀ c ∈ digits, c.isDigit = true) :
    Nat.ofDigitChars 10 digits 0 = 0 ↔ digits.dropWhile (· = '0') = [] := by
  induction digits with
  | nil => exact iff_of_true rfl rfl
  | cons c rest ih =>
      have range : 48 ≤ c.toNat ∧ c.toNat ≤ 57 := Char.isDigit_iff_toNat.mp (all c List.mem_cons_self)
      have zero : '0'.toNat = 48 := rfl
      have front : c = '0' ↔ c.toNat = 48 := Char.toNat_inj.symm
      rw [Nat.ofDigitChars_cons, Nat.ofDigitChars_eq_ofDigitChars_zero, Nat.add_eq_zero_iff, Nat.mul_eq_zero,
        ih fun d member => all d (List.mem_cons_of_mem _ member), List.dropWhile_cons]
      by_cases blank : c = '0'
      · rw [if_pos (decide_eq_true blank)]
        refine and_iff_right (.inr ?_)
        have := front.mp blank
        omega
      · rw [if_neg (by simpa using blank)]
        refine iff_of_false ?_ (List.cons_ne_nil _ _)
        rintro ⟨power | value, _⟩
        · exact absurd power (Nat.pos_iff_ne_zero.mp (Nat.pow_pos (by decide)))
        · exact blank (front.mpr (by omega))

/-- A numeral read and written again has lost the zeros in front. -/
theorem toDigits_ofDigitChars {digits : List Char} (all : ∀ c ∈ digits, c.isDigit = true) :
    Nat.toDigits 10 (Nat.ofDigitChars 10 digits 0) = stripZeros digits := by
  induction digits using List.reverseRecOn with
  | nil => rfl
  | append_singleton front c ih =>
      have below : ∀ d ∈ front, d.isDigit = true := fun d member => all d (List.mem_append_left _ member)
      have last : c.isDigit = true := all c (List.mem_append_right _ (List.mem_singleton_self c))
      have range : 48 ≤ c.toNat ∧ c.toNat ≤ 57 := Char.isDigit_iff_toNat.mp last
      have zero : '0'.toNat = 48 := rfl
      have unit : c.toNat - '0'.toNat < 10 := by omega
      have digit : Nat.toDigits 10 (c.toNat - '0'.toNat) = [c] := by
        rw [Nat.toDigits_of_lt_base unit, digitChar_of_isDigit last]
      rw [Nat.ofDigitChars_append, Nat.ofDigitChars_cons, Nat.ofDigitChars_nil, stripZeros, List.dropWhile_append]
      by_cases blank : front.dropWhile (· = '0') = []
      · rw [(ofDigitChars_eq_zero_iff below).mpr blank, Nat.mul_zero, Nat.zero_add, digit, blank]
        -- The digit is all there is; it stays even if it is a zero.
        by_cases none_ : c = '0' <;> simp [none_]
      · have some_ : 0 < Nat.ofDigitChars 10 front 0 :=
          Nat.pos_of_ne_zero fun none_ => blank ((ofDigitChars_eq_zero_iff below).mp none_)
        rw [← Nat.toDigits_append_toDigits (by decide) some_ unit, digit, ih below, stripZeros]
        cases kept : front.dropWhile (· = '0') with
        | nil => exact absurd kept blank
        | cons d rest => rfl

/-- What holds of each number below a bound holds of each byte below it. -/
theorem byte_of_table {bound : Nat} {p : UInt8 → Prop} (table : ∀ n < bound, p (UInt8.ofNat n)) {b : UInt8}
    (small : b.toNat < bound) : p b := by
  have here := table b.toNat small
  rwa [UInt8.ofNat_toNat] at here

section Pairs

variable {α β : Type} (f : α → α → β)

/-- Two at a time, the higher one first. -/
def pairUp : List α → List β
  | high :: low :: rest => f high low :: pairUp rest
  | _ => []

theorem length_pairUp (digits : List α) : (pairUp f digits).length = digits.length / 2 := by
  induction digits using pairUp.induct with
  | case1 high low rest ih =>
      rw [pairUp, List.length_cons, ih, List.length_cons, List.length_cons]
      omega
  | case2 digits short =>
      match digits, short with
      | [], _ => simp only [pairUp, List.length_nil, Nat.zero_div]
      | [_], _ => simp only [pairUp, List.length_nil, List.length_singleton, Nat.reduceDiv]
      | high :: low :: rest, short => exact absurd rfl (short high low rest)

variable {f}

/-- Two at a time and taken apart again, an even number of digits is what it was. -/
theorem flatMap_pairUp {g h : β → α} {p : α → Prop} (apart : ∀ a b, p a → p b → g (f a b) = a ∧ h (f a b) = b) {digits : List α}
    (even : digits.length % 2 = 0) (all : ∀ a ∈ digits, p a) : (pairUp f digits).flatMap (fun b => [g b, h b]) = digits := by
  induction digits using pairUp.induct with
  | case1 high low rest ih =>
      rw [List.length_cons, List.length_cons] at even
      simp only [List.mem_cons, forall_eq_or_imp] at all
      obtain ⟨first, second⟩ := apart high low all.1 all.2.1
      rw [pairUp, List.flatMap_cons, first, second, ih (by omega) all.2.2]
      rfl
  | case2 digits short =>
      match digits, short with
      | [], _ => simp only [pairUp, List.flatMap_nil]
      | [_], _ => cases even
      | high :: low :: rest, short => exact absurd rfl (short high low rest)

/-- What was taken apart, put together again. -/
theorem pairUp_flatMap {g h : β → α} (whole : ∀ b, f (g b) (h b) = b) (l : List β) :
    pairUp f (l.flatMap fun b => [g b, h b]) = l := by
  induction l with
  | nil => rfl
  | cons b rest ih =>
      rw [List.flatMap_cons]
      change f (g b) (h b) :: pairUp f (rest.flatMap fun b => [g b, h b]) = b :: rest
      rw [whole, ih]

end Pairs

end Numerals
