import Mathlib.Data.List.Basic
import Mathlib.Data.String.Basic

/-!
Text as bytes, and escapes made of a percent sign and two hexadecimal digits. Decoding leaves
the bytes of a text alone exactly when there is no escape in it, and what was encoded decodes
to itself. How bytes that are no text are shown is left open.
-/
namespace Percent

/-- The UTF-8 bytes of a text. -/
def bytes (text : String) : List UInt8 := text.toList.flatMap String.utf8EncodeChar

def hexValue (b : UInt8) : Option UInt8 :=
  if 48 ≤ b.toNat ∧ b.toNat ≤ 57 then some (b - 48)
  else if 65 ≤ b.toNat ∧ b.toNat ≤ 70 then some (b - 55)
  else if 97 ≤ b.toNat ∧ b.toNat ≤ 102 then some (b - 87)
  else none

/-- A percent sign that no two hexadecimal digits follow stands for itself. -/
def decode : List UInt8 → List UInt8
  | [] => []
  | [b] => [b]
  | [b, c] => [b, c]
  | b :: high :: low :: rest =>
      if b = 37 then match hexValue high, hexValue low with
        | some h, some l => (16 * h + l) :: decode rest
        | _, _ => b :: decode (high :: low :: rest)
      else b :: decode (high :: low :: rest)

theorem decode_cons {b : UInt8} (other : b ≠ 37) (rest : List UInt8) : decode (b :: rest) = b :: decode rest := by
  match rest with
  | [] => rfl
  | [_] => rfl
  | _ :: _ :: _ => rw [decode, if_neg other]

theorem decode_escape {high low h l : UInt8} (foundHigh : hexValue high = some h) (foundLow : hexValue low = some l)
    (rest : List UInt8) : decode (37 :: high :: low :: rest) = (16 * h + l) :: decode rest := by
  rw [decode, if_pos rfl]
  simp only [foundHigh, foundLow]

def isAscii (b : UInt8) : Bool := b.toNat < 128

/-- There is an escape among some bytes. -/
def Escaped (bs : List UInt8) : Prop :=
  ∃ front high low rest, bs = front ++ 37 :: high :: low :: rest ∧ (hexValue high).isSome = true ∧ (hexValue low).isSome = true

theorem isAscii_of_hexValue {b : UInt8} (digit : (hexValue b).isSome = true) : isAscii b = true := by
  rw [hexValue] at digit
  split_ifs at digit
  · simp [isAscii]
    omega
  · simp [isAscii]
    omega
  · simp [isAscii]
    omega
  · cases digit

theorem escaped_cons {b : UInt8} {bs : List UInt8} : Escaped (b :: bs) ↔ Escaped bs ∨
    ∃ high low rest, b = 37 ∧ bs = high :: low :: rest ∧ (hexValue high).isSome = true ∧ (hexValue low).isSome = true := by
  constructor
  · rintro ⟨_ | ⟨b', front⟩, high, low, rest, shape, digits⟩
    · obtain ⟨rfl, rfl⟩ := List.cons.inj shape
      exact .inr ⟨high, low, rest, rfl, rfl, digits⟩
    · obtain ⟨-, rfl⟩ := List.cons.inj shape
      exact .inl ⟨front, high, low, rest, rfl, digits⟩
  · rintro (⟨front, high, low, rest, rfl, digits⟩ | ⟨high, low, rest, rfl, rfl, digits⟩)
    · exact ⟨b :: front, high, low, rest, rfl, digits⟩
    · exact ⟨[], high, low, rest, rfl, digits⟩

theorem not_escaped_short {bs : List UInt8} (short : bs.length < 3) : ¬ Escaped bs := by
  rintro ⟨front, high, low, rest, rfl, -⟩
  simp only [List.length_append, List.length_cons] at short
  omega

/-- A byte that starts no escape stands for itself. -/
theorem decode_cases_cons {b : UInt8} {bs : List UInt8} (kept : decode (b :: bs) = b :: decode bs)
    (plain : ∀ high low rest, b = 37 → bs = high :: low :: rest →
      ¬ ((hexValue high).isSome = true ∧ (hexValue low).isSome = true))
    (ih : (decode bs = bs ∧ ¬ Escaped bs) ∨ ((decode bs).countP isAscii < bs.countP isAscii ∧ Escaped bs)) :
    (decode (b :: bs) = b :: bs ∧ ¬ Escaped (b :: bs)) ∨
      ((decode (b :: bs)).countP isAscii < (b :: bs).countP isAscii ∧ Escaped (b :: bs)) := by
  rw [kept]
  rcases ih with ⟨same, none⟩ | ⟨less, escaped⟩
  · refine .inl ⟨by rw [same], fun escaped => ?_⟩
    rcases escaped_cons.mp escaped with later | ⟨high, low, rest, percent, shape, digits⟩
    · exact none later
    · exact plain high low rest percent shape digits
  · rw [List.countP_cons, List.countP_cons]
    exact .inr ⟨by omega, escaped_cons.mpr (.inl escaped)⟩

/-- Decoding leaves some bytes alone, or there is an escape, of which it drops at least two. -/
theorem decode_cases (bs : List UInt8) :
    (decode bs = bs ∧ ¬ Escaped bs) ∨ ((decode bs).countP isAscii < bs.countP isAscii ∧ Escaped bs) := by
  induction bs using decode.induct with
  | case1 => exact .inl ⟨rfl, not_escaped_short (by simp)⟩
  | case2 b => exact .inl ⟨rfl, not_escaped_short (by simp)⟩
  | case3 b c => exact .inl ⟨rfl, not_escaped_short (by simp)⟩
  | case4 high low rest h l foundLow foundHigh ih =>
      have shorter : (decode rest).countP isAscii ≤ rest.countP isAscii := by
        rcases ih with ⟨same, -⟩ | ⟨less, -⟩
        · rw [same]
        · exact less.le
      have ascii := isAscii_of_hexValue (b := high) (by simp [foundHigh])
      have ascii' := isAscii_of_hexValue (b := low) (by simp [foundLow])
      rw [decode_escape foundHigh foundLow]
      refine .inr ⟨?_, escaped_cons.mpr (.inr ⟨high, low, rest, rfl, rfl, by simp [foundHigh], by simp [foundLow]⟩)⟩
      simp only [List.countP_cons, ascii, ascii']
      have percent : isAscii 37 = true := by decide
      rw [if_pos percent]
      split_ifs <;> omega
  | case5 high low rest none ih =>
      refine decode_cases_cons ?_ ?_ ih
      · simp only [decode, if_true]
      · rintro high low rest - shape ⟨digit, digit'⟩
        obtain ⟨rfl, rfl, rfl⟩ : _ ∧ _ ∧ _ := by simpa using shape
        obtain ⟨h, found⟩ := Option.isSome_iff_exists.mp digit
        obtain ⟨l, found'⟩ := Option.isSome_iff_exists.mp digit'
        exact none h l found found'
  | case6 b high low rest other ih =>
      exact decode_cases_cons (decode_cons other _) (fun _ _ _ percent => absurd percent other) ih

/-- Decoding leaves some bytes alone exactly when there is no escape. -/
theorem decode_eq_iff {bs : List UInt8} : decode bs = bs ↔ ¬ Escaped bs := by
  rcases decode_cases bs with ⟨same, none⟩ | ⟨less, escaped⟩
  · exact iff_of_true same none
  · refine iff_of_false (fun same => ?_) (not_not.mpr escaped)
    rw [same] at less
    exact less.false

instance (bs : List UInt8) : Decidable (Escaped bs) :=
  decidable_of_iff (decode bs ≠ bs) (by rw [Ne, decode_eq_iff, not_not])

theorem countP_decode_le (bs : List UInt8) : (decode bs).countP isAscii ≤ bs.countP isAscii := by
  rcases decode_cases bs with ⟨same, -⟩ | ⟨less, -⟩
  · rw [same]
  · exact less.le

/-! ## Back to text -/

/-- What is asked of a function that shows bytes as text: text is shown as it is, and of other
bytes at least those of ASCII are. -/
structure Shows (shown : List UInt8 → String) : Prop where
  valid : ∀ text, shown (bytes text) = text
  ascii : ∀ bs, (shown bs).toList.countP (fun c => decide (c.toNat < 128)) = bs.countP isAscii

variable {shown : List UInt8 → String} {text other : String}

theorem Shows.count (shows : Shows shown) (text : String) :
    text.toList.countP (fun c => decide (c.toNat < 128)) = (bytes text).countP isAscii := by
  rw [← shows.ascii, shows.valid]

/-- A text decodes to itself exactly when there is no escape in it. -/
theorem Shows.decoded_iff (shows : Shows shown) : shown (decode (bytes text)) = text ↔ ¬ Escaped (bytes text) := by
  constructor
  · intro same
    rcases decode_cases (bytes text) with ⟨-, none⟩ | ⟨less, -⟩
    · exact none
    · have count := shows.ascii (decode (bytes text))
      rw [same, shows.count] at count
      omega
  · intro none
    rw [decode_eq_iff.mpr none, shows.valid]

/-- Bytes of a text with fewer ASCII characters decode to something else. -/
theorem Shows.decoded_ne (shows : Shows shown) (fewer : other.toList.countP (fun c => decide (c.toNat < 128)) <
    text.toList.countP (fun c => decide (c.toNat < 128))) : shown (decode (bytes other)) ≠ text := by
  intro same
  have count := shows.ascii (decode (bytes other))
  have less := countP_decode_le (bytes other)
  rw [same] at count
  rw [shows.count other] at fewer
  omega

/-! ## Text without escapes -/

theorem utf8EncodeChar_ascii {c : Char} (ascii : c.toNat < 128) : String.utf8EncodeChar c = [UInt8.ofNat c.toNat] := by
  have small : c.val.toNat ≤ 127 := by
    change c.toNat ≤ 127
    omega
  simp only [String.utf8EncodeChar, if_pos small]
  rfl

theorem not_isAscii_of_wide {c : Char} (wide : 128 ≤ c.toNat) {b : UInt8} (mem : b ∈ String.utf8EncodeChar c) :
    isAscii b = false := by
  have large : ¬ c.val.toNat ≤ 127 := by
    change ¬ c.toNat ≤ 127
    omega
  have valid : c.val.toNat < 1114112 := by
    have := c.valid
    simp only [UInt32.isValidChar, Nat.isValidChar] at this
    omega
  simp only [String.utf8EncodeChar, if_neg large] at mem
  split_ifs at mem <;> simp only [List.mem_cons, List.not_mem_nil, or_false] at mem <;>
    simp only [isAscii, decide_eq_false_iff_not, not_lt]
  · rcases mem with rfl | rfl <;> simp only [UInt8.toNat_ofNat'] <;> omega
  · rcases mem with rfl | rfl | rfl <;> simp only [UInt8.toNat_ofNat'] <;> omega
  · rcases mem with rfl | rfl | rfl | rfl <;> simp only [UInt8.toNat_ofNat'] <;> omega

/-- Every byte of an ASCII text is one of its characters. -/
theorem bytes_ascii {text : String} (ascii : ∀ c ∈ text.toList, c.toNat < 128) :
    bytes text = text.toList.map fun c => UInt8.ofNat c.toNat := by
  rw [bytes, ← List.flatMap_pure_eq_map]
  exact List.flatMap_congr fun c mem => utf8EncodeChar_ascii (ascii c mem)

theorem countP_bytes (text : String) :
    (bytes text).countP isAscii = text.toList.countP fun c => decide (c.toNat < 128) := by
  rw [bytes]
  induction text.toList with
  | nil => rfl
  | cons c cs ih =>
      rw [List.flatMap_cons, List.countP_append, List.countP_cons, ih]
      by_cases ascii : c.toNat < 128
      · have one : isAscii (UInt8.ofNat c.toNat) = true := by
          simp only [isAscii, UInt8.toNat_ofNat', decide_eq_true_eq]
          omega
        simp [utf8EncodeChar_ascii ascii, one, ascii, Nat.add_comm]
      · have none : (String.utf8EncodeChar c).countP isAscii = 0 := by
          rw [List.countP_eq_zero]
          intro b mem
          simp [not_isAscii_of_wide (by omega) mem]
        simp [none, ascii]

/-- Bytes shown as text, with anything that is none left out but the ASCII. -/
def lenient (bs : List UInt8) : String :=
  (String.fromUTF8? bs.toByteArray).getD (String.ofList ((bs.filter isAscii).map fun b => Char.ofNat b.toNat))

theorem lenient_bytes (text : String) : lenient (bytes text) = text := by
  have encoded : (bytes text).toByteArray = text.toByteArray := String.utf8Encode_toList
  have valid : (bytes text).toByteArray.IsValidUTF8 := encoded ▸ text.isValidUTF8
  rw [lenient, String.fromUTF8?, dif_pos valid, Option.getD_some]
  exact String.toByteArray_inj.mp encoded

theorem shows_lenient : Shows lenient where
  valid := lenient_bytes
  ascii bs := by
    by_cases valid : bs.toByteArray.IsValidUTF8
    · obtain ⟨cs, encoded⟩ := valid
      have same : bs = bytes (String.ofList cs) := by
        refine List.toByteArray_inj.mp (encoded.trans ?_)
        rw [bytes, String.toList_ofList]
        rfl
      rw [same, lenient_bytes, countP_bytes]
    · rw [lenient, String.fromUTF8?, dif_neg valid, Option.getD_none, String.toList_ofList, List.countP_map,
        List.countP_filter]
      refine List.countP_congr fun b mem => ?_
      cases ascii : isAscii b with
      | false => simp
      | true =>
          have small : b.toNat < 128 := by simpa [isAscii] using ascii
          have back : (Char.ofNat b.toNat).toNat = b.toNat := by
            have valid : b.toNat.isValidChar := .inl (by omega)
            rw [Char.ofNat, dif_pos valid]
            rfl
          simp [back, small]

end Percent
