import Mathlib.Algebra.Ring.Nat
import Mathlib.Data.List.Basic

/-!
Bytes shown as text. A character may take several bytes; what does not begin or go on as a character should is shown as one
replacement for as much of it as did.
-/
namespace Utf8

/-- U+FFFD. -/
def replacement : Char := Char.ofNat 0xfffd

/-- A character begun: its bits so far, the range of the next byte, and how many more come after that. -/
structure Begun where
  bits : Nat
  low : Nat
  high : Nat
  after : Nat
  deriving DecidableEq

/-- What a first byte says. -/
inductive First
  | whole (c : Char)
  | begun (s : Begun)
  | bad

/-- Neither overlong forms nor surrogates, and nothing beyond the last character: the second byte is where they are seen. -/
def first (b : UInt8) : First :=
  let n := b.toNat
  if n < 0x80 then .whole (Char.ofNat n)
  else if n < 0xc2 then .bad
  else if n < 0xe0 then .begun ⟨n % 32, 0x80, 0xc0, 0⟩
  else if n < 0xf0 then .begun ⟨n % 16, if n = 0xe0 then 0xa0 else 0x80, if n = 0xed then 0xa0 else 0xc0, 1⟩
  else if n < 0xf5 then .begun ⟨n % 8, if n = 0xf0 then 0x90 else 0x80, if n = 0xf4 then 0x90 else 0xc0, 2⟩
  else .bad

/-- One byte more of a character that has begun. -/
def Begun.next (s : Begun) (b : UInt8) : Begun := ⟨s.bits * 64 + (b.toNat - 0x80), 0x80, 0xc0, s.after - 1⟩

/-- The characters, from where no character has begun or where one has. -/
def shownFrom : Option Begun → List UInt8 → List Char
  | none, [] => []
  | some _, [] => [replacement]
  | none, b :: rest =>
      match first b with
      | .whole c => c :: shownFrom none rest
      | .begun s => shownFrom (some s) rest
      | .bad => replacement :: shownFrom none rest
  | some s, b :: rest =>
      if s.low ≤ b.toNat ∧ b.toNat < s.high then
        if s.after = 0 then Char.ofNat (s.next b).bits :: shownFrom none rest
        else shownFrom (some (s.next b)) rest
      else
        replacement :: match first b with
          | .whole c => c :: shownFrom none rest
          | .begun s => shownFrom (some s) rest
          | .bad => replacement :: shownFrom none rest

/-- `String::from_utf8_lossy`. -/
def lossy (bytes : List UInt8) : String := String.ofList (shownFrom none bytes)

example : lossy [0x61, 0xe2, 0x82, 0xac, 0xf0, 0x9f, 0x98, 0x80] = "a€😀" ∧ lossy [0xe2, 0x82, 0x61] = "\uFFFDa" ∧
    lossy [0xed, 0xa0, 0x80] = "\uFFFD\uFFFD\uFFFD" ∧ lossy [0xc0, 0xaf, 0xf4, 0x90] = "\uFFFD\uFFFD\uFFFD\uFFFD" := by
  decide

/-- Whatever comes of it is a character, and takes more than one byte. -/
def Begun.Wide (s : Begun) : Prop :=
  ∀ n, (s.bits * 64 + (s.low - 0x80)) * 64 ^ s.after ≤ n → n < (s.bits * 64 + (s.high - 0x80)) * 64 ^ s.after →
    128 ≤ n ∧ n.isValidChar

theorem first_wide {b : UInt8} {s : Begun} (begins : first b = .begun s) : s.Wide ∧ 0x80 ≤ s.low := by
  have fits := b.toNat_lt
  unfold first at begins
  dsimp only at begins
  unfold Begun.Wide Nat.isValidChar
  split_ifs at begins <;> cases begins <;> dsimp only <;> refine ⟨?_, by omega⟩ <;> intro n low high <;> omega

theorem Begun.Wide.next {s : Begun} (wide : s.Wide) (more : s.after ≠ 0) (above : 0x80 ≤ s.low) {b : UInt8}
    (low : s.low ≤ b.toNat) (high : b.toNat < s.high) : (s.next b).Wide := by
  intro n least most
  have power : 64 * 64 ^ (s.after - 1) = 64 ^ s.after := by
    rw [← Nat.pow_succ', Nat.succ_eq_add_one, Nat.sub_add_cancel (Nat.pos_of_ne_zero more)]
  apply wide n
  · calc (s.bits * 64 + (s.low - 0x80)) * 64 ^ s.after ≤ (s.bits * 64 + (b.toNat - 0x80)) * 64 ^ s.after :=
          Nat.mul_le_mul_right _ (by omega)
      _ = ((s.bits * 64 + (b.toNat - 0x80)) * 64 + (0x80 - 0x80)) * 64 ^ (s.after - 1) := by
          rw [← power, Nat.sub_self, Nat.add_zero, Nat.mul_assoc]
      _ ≤ n := least
  · calc n < ((s.bits * 64 + (b.toNat - 0x80)) * 64 + (0xc0 - 0x80)) * 64 ^ (s.after - 1) := most
      _ = (s.bits * 64 + (b.toNat - 0x80) + 1) * 64 ^ s.after := by
          rw [← power, ← Nat.mul_assoc, Nat.add_mul _ 1 64]
      _ ≤ (s.bits * 64 + (s.high - 0x80)) * 64 ^ s.after := Nat.mul_le_mul_right _ (by omega)

theorem toNat_ofNat {n : Nat} (valid : n.isValidChar) : (Char.ofNat n).toNat = n := by
  rw [Char.ofNat, dif_pos valid]
  rfl

/-- Where a character of several bytes has begun, not all that comes is ASCII. -/
theorem shownFrom_begun {s : Begun} (wide : s.Wide) (above : 0x80 ≤ s.low) (rest : List UInt8) :
    ∃ c ∈ shownFrom (some s) rest, 128 ≤ c.toNat := by
  induction rest generalizing s with
  | nil => exact ⟨replacement, List.mem_singleton_self _, by decide⟩
  | cons b rest ih =>
      unfold shownFrom
      split_ifs with inside last
      · refine ⟨_, List.mem_cons_self, ?_⟩
        have reached := wide (s.next b).bits
        rw [last, Nat.pow_zero, Nat.mul_one, Nat.mul_one] at reached
        have bits : (s.next b).bits = s.bits * 64 + (b.toNat - 0x80) := rfl
        obtain ⟨large, valid⟩ := reached (by omega) (by omega)
        rw [toNat_ofNat valid]
        exact large
      · exact ih (wide.next last above inside.1 inside.2) (Nat.le_refl _)
      · exact ⟨replacement, List.mem_cons_self, by decide⟩

/-- What is shown as ASCII is ASCII, byte for byte. -/
theorem ascii_of_shownFrom {bytes : List UInt8} (ascii : ∀ c ∈ shownFrom none bytes, c.toNat < 128) :
    ∀ b ∈ bytes, b.toNat < 128 := by
  induction bytes with
  | nil => exact fun b member => absurd member List.not_mem_nil
  | cons b rest ih =>
      unfold shownFrom at ascii
      cases start : first b with
      | whole c =>
          have small : b.toNat < 128 := by
            by_contra large
            unfold first at start
            dsimp only at start
            split_ifs at start
          simp only [start] at ascii
          intro d member
          rcases List.mem_cons.mp member with rfl | later
          · exact small
          · exact ih (fun c there => ascii c (List.mem_cons_of_mem _ there)) d later
      | begun s =>
          simp only [start] at ascii
          obtain ⟨wide, above⟩ := first_wide start
          obtain ⟨c, there, large⟩ := shownFrom_begun wide above rest
          exact absurd (ascii c there) (Nat.not_lt.mpr large)
      | bad =>
          simp only [start] at ascii
          exact absurd (ascii replacement List.mem_cons_self) (by decide)

theorem shownFrom_ascii {bytes : List UInt8} (ascii : ∀ b ∈ bytes, b.toNat < 128) :
    shownFrom none bytes = bytes.map fun b => Char.ofNat b.toNat := by
  induction bytes with
  | nil => rfl
  | cons b rest ih =>
      have start : first b = .whole (Char.ofNat b.toNat) := if_pos (ascii b List.mem_cons_self)
      unfold shownFrom
      rw [start, List.map_cons]
      dsimp only
      rw [ih fun d member => ascii d (List.mem_cons_of_mem _ member)]

end Utf8
