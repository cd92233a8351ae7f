import SightingDB.DnsNames
import SightingDB.Lib.Traverse

/-!
One address, one name: what an address is written as, in a text and in the labels of a query, and which labels name it.
-/
namespace SightingDB
namespace Addresses

/-- `IpAddr`. -/
inductive IpAddr
  | v4 (octets : List UInt8) (four : octets.length = 4)
  | v6 (octets : List UInt8) (sixteen : octets.length = 16)

def IpAddr.text : IpAddr → String
  | .v4 octets _ => ipv4Text octets
  | .v6 octets _ => ipv6Text octets

/-! ## Texts -/

theorem mem_joinWith {sep : Char} {parts : List String} {c : Char} (mem : c ∈ (joinWith sep parts).toList) :
    c = sep ∨ ∃ p ∈ parts, c ∈ p.toList := by
  have joined : joinWith sep parts = joinBy (String.ofList [sep]) parts := by simp [joinWith, joinBy]
  rw [joined] at mem
  refine (mem_joinBy mem).imp_left fun gap => ?_
  simpa using gap

theorem splitOn_joinWith {sep : Char} {parts : List String} (free : ∀ p ∈ parts, sep ∉ p.toList) (some_ : parts ≠ []) :
    (joinWith sep parts).toList.splitOn sep = parts.map String.toList := by
  rw [joinWith, String.toList_ofList]
  refine List.splitOn_intercalate sep ?_ (List.map_eq_nil_iff.not.mpr some_)
  intro part member
  obtain ⟨p, there, rfl⟩ := List.mem_map.mp member
  exact free p there

theorem decimal_chars {n : Nat} {c : Char} (member : c ∈ (toString n).toList) : c ≠ '.' ∧ c ≠ ':' := by
  rw [Nat.toString_eq_repr, Nat.toList_repr] at member
  obtain ⟨d, small, rfl⟩ := Numerals.mem_toDigits (by decide) member
  have table : ∀ d : Fin 10, Nat.digitChar d ≠ '.' ∧ Nat.digitChar d ≠ ':' := by decide
  exact table ⟨d, small⟩

theorem hex_chars {n : Nat} {c : Char} (member : c ∈ Nat.toDigits 16 n) : c ≠ '.' ∧ c ≠ ':' := by
  obtain ⟨d, small, rfl⟩ := Numerals.mem_toDigits (by decide) member
  have table : ∀ d : Fin 16, Nat.digitChar d ≠ '.' ∧ Nat.digitChar d ≠ ':' := by decide
  exact table ⟨d, small⟩

theorem colon_ipv4Text (octets : List UInt8) : ':' ∉ (ipv4Text octets).toList := by
  intro colon
  rcases mem_joinWith colon with dot | ⟨p, member, inside⟩
  · cases dot
  · obtain ⟨octet, _, rfl⟩ := List.mem_map.mp member
    exact (decimal_chars inside).2 rfl

theorem splitOn_ipv4Text {octets : List UInt8} (four : octets.length = 4) : (ipv4Text octets).toList.splitOn '.' =
    (octets.map fun octet => toString octet.toNat).map String.toList := by
  refine splitOn_joinWith ?_ (List.ne_nil_of_length_pos (by rw [List.length_map, four]; decide))
  intro p member dot
  obtain ⟨octet, _, rfl⟩ := List.mem_map.mp member
  exact (decimal_chars dot).1 rfl

/-- Four octets have dots between them. -/
theorem dot_ipv4Text {octets : List UInt8} (four : octets.length = 4) : '.' ∈ (ipv4Text octets).toList := by
  by_contra free
  have one := congrArg List.length (List.splitOn_eq_singleton free)
  rw [splitOn_ipv4Text four, List.length_map, List.length_map, four] at one
  cases one

theorem ipv4Text_inj {a b : List UInt8} (four : a.length = 4) (four' : b.length = 4) (same : ipv4Text a = ipv4Text b) : a = b := by
  have parts := splitOn_ipv4Text four
  rw [same, splitOn_ipv4Text four'] at parts
  have texts := List.map_injective_iff.mpr (fun _ _ => String.toList_injective) parts.symm
  refine List.map_injective_iff.mpr ?_ texts
  intro m n numerals
  exact UInt8.toNat_inj.mp (Numerals.toString_injective numerals)

theorem groups_inj {a b : List UInt8} (sixteen : a.length = 16) (sixteen' : b.length = 16) (same : groups a = groups b) :
    a = b := by
  have back : ∀ {octets : List UInt8}, octets.length = 16 →
      (groups octets).flatMap (fun group => [UInt8.ofNat (group / 256), UInt8.ofNat (group % 256)]) = octets := by
    intro octets sixteen
    have apart : ∀ high low : UInt8, True → True → UInt8.ofNat ((high.toNat * 256 + low.toNat) / 256) = high ∧
        UInt8.ofNat ((high.toNat * 256 + low.toNat) % 256) = low := by
      intro high low _ _
      have fits := low.toNat_lt
      have upper : (high.toNat * 256 + low.toNat) / 256 = high.toNat := by omega
      have lower : (high.toNat * 256 + low.toNat) % 256 = low.toNat := by omega
      rw [upper, lower]
      exact ⟨UInt8.ofNat_toNat, UInt8.ofNat_toNat⟩
    exact Numerals.flatMap_pairUp apart (by rw [sixteen]) fun _ _ => trivial
  rw [← back sixteen, same, back sixteen']

/-- What is between colons, if there are no groups nothing. -/
def pieces (groups : List Nat) : List (List Char) := if groups = [] then [[]] else groups.map (Nat.toDigits 16)

theorem splitOn_groupsText (groups : List Nat) : (groupsText groups).toList.splitOn ':' = pieces groups := by
  unfold pieces
  by_cases none_ : groups = []
  · rw [if_pos none_, none_]
    rfl
  · rw [if_neg none_, groupsText, splitOn_joinWith _ (List.map_eq_nil_iff.not.mpr none_), List.map_map]
    · refine List.map_congr_left fun group _ => ?_
      exact String.toList_ofList
    · intro p member colon
      obtain ⟨group, _, rfl⟩ := List.mem_map.mp member
      rw [String.toList_ofList] at colon
      exact (hex_chars colon).2 rfl

/-- The groups written in full: what is around the empty pieces, and zeros for what is missing. -/
def expand (parts : List (List Char)) : List (List Char) :=
  Runs.fill 8 ['0'] (parts.takeWhile (· ≠ [])) ((parts.dropWhile (· ≠ [])).filter (· ≠ []))

theorem digits_all (groups : List Nat) : ∀ part ∈ groups.map (Nat.toDigits 16), decide (part ≠ []) = true := by
  intro part member
  obtain ⟨group, _, rfl⟩ := List.mem_map.mp member
  exact decide_eq_true Nat.toDigits_ne_nil

theorem filter_pieces (groups : List Nat) : (pieces groups).filter (· ≠ []) = groups.map (Nat.toDigits 16) := by
  unfold pieces
  by_cases none_ : groups = []
  · rw [if_pos none_, none_]
    rfl
  · rw [if_neg none_, List.filter_eq_self]
    exact digits_all groups

/-- Pieces around an empty one. -/
theorem expand_gap (front back : List Nat) : expand (pieces front ++ [] :: pieces back) =
    Runs.fill 8 ['0'] (front.map (Nat.toDigits 16)) (back.map (Nat.toDigits 16)) := by
  have stop : ∀ rest : List (List Char), ([] :: rest).takeWhile (· ≠ []) = [] ∧ ([] :: rest).dropWhile (· ≠ []) = [] :: rest :=
    fun rest => ⟨rfl, rfl⟩
  have skip : ([] :: pieces back).filter (· ≠ []) = back.map (Nat.toDigits 16) := filter_pieces back
  unfold expand
  by_cases none_ : front = []
  · rw [none_]
    change Runs.fill 8 ['0'] [] ((pieces back).filter (· ≠ [])) = _
    rw [filter_pieces, List.map_nil]
  · have here : pieces front = front.map (Nat.toDigits 16) := if_neg none_
    rw [here, List.takeWhile_append_of_pos (digits_all front), List.dropWhile_append_of_pos (digits_all front), (stop _).1,
      (stop _).2, skip, List.append_nil]

theorem expand_all {groups : List Nat} (eight : groups.length = 8) : expand (pieces groups) = groups.map (Nat.toDigits 16) := by
  have some_ : groups ≠ [] := List.ne_nil_of_length_pos (by rw [eight]; decide)
  have here : pieces groups = groups.map (Nat.toDigits 16) := if_neg some_
  unfold expand
  rw [here, List.takeWhile_eq_self_iff.mpr (digits_all groups), List.dropWhile_eq_nil_iff.mpr (digits_all groups), List.filter_nil]
  exact Runs.fill_whole (by rw [List.length_map, eight]) _

theorem length_groups {octets : List UInt8} (sixteen : octets.length = 16) : (groups octets).length = 8 := by
  rw [groups, Numerals.length_pairUp, sixteen]

/-- The groups of an address can be read off its text. -/
theorem expand_ipv6Text {octets : List UInt8} (sixteen : octets.length = 16) (unmapped : ipv4Mapped octets = none) :
    expand ((ipv6Text octets).toList.splitOn ':') = (groups octets).map (Nat.toDigits 16) := by
  have eight := length_groups sixteen
  unfold ipv6Text
  rw [unmapped]
  dsimp only
  split_ifs with long
  · have gap : ∀ front back : String, (front ++ "::" ++ back).toList.splitOn ':' =
        front.toList.splitOn ':' ++ [] :: back.toList.splitOn ':' := by
      intro front back
      have text : (front ++ "::" ++ back).toList = front.toList ++ ':' :: ([] ++ ':' :: back.toList) := by
        simp [String.toList_append]
      rw [text, List.splitOn_append_cons_self, List.splitOn_append_cons_self]
      rfl
    have around := Runs.fill_around (Runs.longestRun_isRun (p := (· = 0)) (groups octets))
    rw [gap, splitOn_groupsText, splitOn_groupsText, expand_gap]
    rw [eight] at around
    calc Runs.fill 8 ['0'] _ _ = (Runs.fill 8 0 ((groups octets).take _) ((groups octets).drop _)).map (Nat.toDigits 16) :=
          (Runs.map_fill (Nat.toDigits 16) 8 0 _ _).symm
      _ = (groups octets).map (Nat.toDigits 16) := congrArg _ around
  · rw [splitOn_groupsText, expand_all eight]

theorem mem_groupsText {groups : List Nat} {c : Char} (member : c ∈ (groupsText groups).toList) : c ≠ '.' := by
  rcases mem_joinWith member with rfl | ⟨p, there, inside⟩
  · decide
  · obtain ⟨group, _, rfl⟩ := List.mem_map.mp there
    rw [String.toList_ofList] at inside
    exact (hex_chars inside).1

theorem no_dot {octets : List UInt8} (unmapped : ipv4Mapped octets = none) : '.' ∉ (ipv6Text octets).toList := by
  intro dot
  unfold ipv6Text at dot
  rw [unmapped] at dot
  dsimp only at dot
  split_ifs at dot
  · rw [String.toList_append, String.toList_append, List.mem_append, List.mem_append] at dot
    rcases dot with (front | gap) | back
    · exact mem_groupsText front rfl
    · exact absurd gap (by decide)
    · exact mem_groupsText back rfl
  · exact mem_groupsText dot rfl

theorem colon_ipv6Text {octets : List UInt8} (sixteen : octets.length = 16) : ':' ∈ (ipv6Text octets).toList := by
  unfold ipv6Text
  cases ipv4Mapped octets with
  | some ipv4 =>
      dsimp only
      rw [String.toList_append, List.mem_append]
      exact .inl (by decide)
  | none =>
      dsimp only
      split_ifs
      · rw [String.toList_append, String.toList_append, List.mem_append, List.mem_append]
        exact .inl (.inr (by decide))
      · -- Eight groups have colons between them.
        by_contra free
        have one := congrArg List.length (List.splitOn_eq_singleton free)
        have some_ : groups octets ≠ [] := List.ne_nil_of_length_pos (by rw [length_groups sixteen]; decide)
        rw [splitOn_groupsText, pieces, if_neg some_, List.length_map, length_groups sixteen] at one
        cases one

theorem ipv4Mapped_eq_some {octets ipv4 : List UInt8} (mapped : ipv4Mapped octets = some ipv4) :
    octets = [0, 0, 0, 0, 0, 0, 0, 0, 0, 0, 0xff, 0xff] ++ ipv4 := by
  unfold ipv4Mapped at mapped
  split_ifs at mapped with front
  rw [← front, ← Option.some.inj mapped, List.take_append_drop]

theorem ipv6Text_inj {a b : List UInt8} (sixteen : a.length = 16) (sixteen' : b.length = 16) (same : ipv6Text a = ipv6Text b) :
    a = b := by
  have four : ∀ {octets ipv4 : List UInt8}, octets.length = 16 → ipv4Mapped octets = some ipv4 → ipv4.length = 4 := by
    intro octets ipv4 whole mapped
    rw [ipv4Mapped_eq_some mapped, List.length_append] at whole
    simp only [List.length_cons, List.length_nil] at whole
    omega
  have dotted : ∀ {octets ipv4 : List UInt8}, octets.length = 16 → ipv4Mapped octets = some ipv4 →
      ipv6Text octets = "::ffff:" ++ ipv4Text ipv4 ∧ '.' ∈ (ipv6Text octets).toList := by
    intro octets ipv4 whole mapped
    have text : ipv6Text octets = "::ffff:" ++ ipv4Text ipv4 := by
      unfold ipv6Text
      rw [mapped]
    refine ⟨text, ?_⟩
    rw [text, String.toList_append, List.mem_append]
    exact .inr (dot_ipv4Text (four whole mapped))
  cases mapped : ipv4Mapped a with
  | some ipv4 =>
      cases mapped' : ipv4Mapped b with
      | some ipv4' =>
          rw [(dotted sixteen mapped).1, (dotted sixteen' mapped').1] at same
          have texts := congrArg String.toList same
          rw [String.toList_append, String.toList_append] at texts
          have rest := String.toList_injective (List.append_cancel_left texts)
          rw [ipv4Mapped_eq_some mapped, ipv4Mapped_eq_some mapped',
            ipv4Text_inj (four sixteen mapped) (four sixteen' mapped') rest]
      | none => exact absurd (same ▸ (dotted sixteen mapped).2) (no_dot mapped')
  | none =>
      cases mapped' : ipv4Mapped b with
      | some ipv4' => exact absurd (same.symm ▸ (dotted sixteen' mapped').2) (no_dot mapped)
      | none =>
          have parts := expand_ipv6Text sixteen mapped
          rw [same, expand_ipv6Text sixteen' mapped'] at parts
          have digits : Function.Injective (Nat.toDigits 16) := Numerals.toDigits_injective (by decide) (by decide)
          exact (groups_inj sixteen' sixteen (List.map_injective_iff.mpr digits parts)).symm

/-- Every address has a text of its own. -/
theorem text_injective : Function.Injective IpAddr.text := by
  intro a b same
  cases a with
  | v4 octets four =>
      cases b with
      | v4 octets' four' =>
          obtain rfl := ipv4Text_inj four four' same
          rfl
      | v6 octets' sixteen =>
          change ipv4Text octets = ipv6Text octets' at same
          exact absurd (same ▸ colon_ipv6Text sixteen) (colon_ipv4Text octets)
  | v6 octets sixteen =>
      cases b with
      | v4 octets' four =>
          change ipv6Text octets = ipv4Text octets' at same
          exact absurd (same ▸ colon_ipv6Text sixteen) (colon_ipv4Text octets')
      | v6 octets' sixteen' =>
          obtain rfl := ipv6Text_inj sixteen sixteen' same
          rfl

/-! ## Labels -/

def decimalLabel (octet : UInt8) : String := toString octet.toNat

def nibbleLabel (nibble : UInt8) : String := String.ofList [nibble.toNat.digitChar]

/-- An octet's nibbles, the higher first. -/
def nibbles (octets : List UInt8) : List UInt8 := octets.flatMap fun octet : UInt8 => [octet >>> 4, octet &&& 15]

/-- The labels an address is looked up under: its octets or nibbles, the last one first. -/
def IpAddr.labels : IpAddr → List String
  | .v4 octets _ => (octets.map decimalLabel).reverse
  | .v6 octets _ => ((nibbles octets).map nibbleLabel).reverse

end Addresses

namespace Dns

open Addresses

/-- A label without a sign in front, and without the zeros that a sign lets through. -/
def plain (label : String) : String :=
  match label.toList with
  | '+' :: digits => String.ofList (Numerals.stripZeros digits)
  | _ => label

theorem plain_unsigned {label : String} (unsigned : startsWithChar label '+' = false) : plain label = label := by
  unfold plain
  split
  · rename_i digits shape
    rw [startsWithChar, shape] at unsigned
    cases unsigned
  · rfl

theorem toList_of_startsWithChar {text : String} {c : Char} (starts : startsWithChar text c = true) :
    ∃ rest, text.toList = c :: rest := by
  cases shape : text.toList with
  | nil => simp [startsWithChar, shape] at starts
  | cons d rest =>
      have same : d = c := by simpa [startsWithChar, shape] using starts
      exact ⟨rest, by rw [same]⟩

theorem parseU8_unsigned {label : String} (unsigned : startsWithChar label '+' = false) : parseU8 label =
    if label.toList.isEmpty || !label.toList.all Char.isDigit then none
    else if Nat.ofDigitChars 10 label.toList 0 < 256 then some (UInt8.ofNat (Nat.ofDigitChars 10 label.toList 0))
    else none := by
  unfold parseU8
  split
  · rename_i digits shape
    rw [startsWithChar, shape] at unsigned
    cases unsigned
  · rfl

theorem length_le_utf8ByteSize (label : String) : label.toList.length ≤ label.utf8ByteSize := by
  rw [← String.utf8Len_toList]
  induction label.toList with
  | nil => exact Nat.zero_le _
  | cons c rest ih =>
      have wide := Char.utf8Size_pos c
      rw [List.length_cons, String.utf8Len_cons]
      omega

/-- What is read as a number is that number's numeral, once the sign is off. -/
theorem plain_of_octet {label : String} {octet : UInt8} (accepted : parseCanonicalU8 label = some octet) :
    plain label = decimalLabel octet := by
  have numeral : ∀ {digits : List Char}, digits.all Char.isDigit = true → Nat.ofDigitChars 10 digits 0 < 256 →
      decimalLabel (UInt8.ofNat (Nat.ofDigitChars 10 digits 0)) = String.ofList (Numerals.stripZeros digits) := by
    intro digits all small
    rw [decimalLabel, UInt8.toNat_ofNat_of_lt' small, Nat.toString_eq_ofList_toDigits,
      Numerals.toDigits_ofDigitChars (List.all_eq_true.mp all)]
  unfold parseCanonicalU8 at accepted
  split_ifs at accepted with refused
  cases signed : startsWithChar label '+' with
  | true =>
      obtain ⟨digits, text⟩ := toList_of_startsWithChar signed
      unfold parseU8 at accepted
      unfold plain
      simp only [text] at accepted ⊢
      split_ifs at accepted with bad small
      rw [Bool.or_eq_true, not_or, Bool.not_eq_true', Bool.not_eq_false] at bad
      rw [← Option.some.inj accepted, numeral bad.2 small]
  | false =>
      rw [parseU8_unsigned signed] at accepted
      split_ifs at accepted with bad small
      rw [Bool.or_eq_true, not_or, Bool.not_eq_true', Bool.not_eq_false, List.isEmpty_iff] at bad
      rw [Bool.or_eq_true, not_or, Bool.and_eq_true, not_and, decide_eq_true_eq] at refused
      have whole : Numerals.stripZeros label.toList = label.toList := by
        refine Numerals.stripZeros_eq_self bad.1 fun long zero => ?_
        refine refused.2 (decide_eq_true (long.trans_le (length_le_utf8ByteSize label))) ?_
        rw [startsWithChar, zero]
        rfl
      rw [plain_unsigned signed, ← Option.some.inj accepted, numeral bad.2 small, whole, String.ofList_toList]

/-- Of two letters for one digit, one is not lowercase. -/
theorem digit_lower {c : Char} {value : Nat} (lower : c.toLower = c) (read : digit 16 c = some value) :
    value < 16 ∧ c = value.digitChar := by
  unfold digit at read
  rw [Option.filter_eq_some_iff, decide_eq_true_eq] at read
  obtain ⟨read, small⟩ := read
  refine ⟨small, ?_⟩
  split_ifs at read with decimal letter capital
  all_goals obtain rfl := Option.some.inj read
  · exact (Numerals.digitChar_of_isDigit decimal).symm
  · rw [Bool.and_eq_true, decide_eq_true_eq] at letter
    have table : ∀ k < 6, Char.ofNat (97 + k) = (97 + k - 87).digitChar := by decide
    have low : 97 ≤ c.toNat := letter.1
    have here := table (c.toNat - 97) (by omega)
    rw [Nat.add_sub_cancel' low, Char.ofNat_toNat] at here
    exact here
  · rw [Bool.and_eq_true, decide_eq_true_eq] at capital
    have table : ∀ k < 6, (Char.ofNat (65 + k)).toLower ≠ Char.ofNat (65 + k) := by decide
    have low : 65 ≤ c.toNat := capital.1
    have here := table (c.toNat - 65) (by omega)
    rw [Nat.add_sub_cancel' low, Char.ofNat_toNat] at here
    exact absurd lower here

/-- A lowercase label that is read as a hexadecimal digit is the label of that digit. -/
theorem label_of_nibble {label : String} {nibble : UInt8} (lower : asciiLowercase label = label)
    (accepted : parseNibble label = some nibble) : label = nibbleLabel nibble ∧ nibble.toNat < 16 := by
  unfold parseNibble at accepted
  split_ifs at accepted with size
  rw [not_not] at size
  have short := length_le_utf8ByteSize label
  rw [size] at short
  match text : label.toList with
  | [] => 
      rw [text] at accepted
      cases accepted
  | [c] =>
      rw [text, List.head?_cons, Option.bind_some, Option.map_eq_some_iff] at accepted
      obtain ⟨value, read, rfl⟩ := accepted
      have kept : c.toLower = c := by
        have texts := congrArg String.toList lower
        rw [asciiLowercase, String.toList_ofList, text] at texts
        exact List.singleton_inj.mp texts
      obtain ⟨small, same⟩ := digit_lower kept read
      have number : (UInt8.ofNat value).toNat = value := UInt8.toNat_ofNat_of_lt' (small.trans (by decide))
      rw [nibbleLabel, number, ← same, ← text, String.ofList_toList]
      exact ⟨rfl, small⟩
  | _ :: _ :: _ =>
      rw [text, List.length_cons, List.length_cons] at short
      omega

theorem toList_decimalLabel (octet : UInt8) : (decimalLabel octet).toList = Nat.toDigits 10 octet.toNat := by
  rw [decimalLabel, Nat.toString_eq_repr, Nat.toList_repr]

theorem parse_decimalLabel (octet : UInt8) : parseCanonicalU8 (decimalLabel octet) = some octet := by
  have text := toList_decimalLabel octet
  have digits : ∀ c ∈ (decimalLabel octet).toList, c.isDigit = true := by
    rw [text]
    exact fun c member => Nat.isDigit_of_mem_toDigits (by decide) (by decide) member
  have some_ : (decimalLabel octet).toList ≠ [] := text ▸ Nat.toDigits_ne_nil
  have unsigned : startsWithChar (decimalLabel octet) '+' = false := by
    by_contra signed
    rw [Bool.not_eq_false] at signed
    obtain ⟨rest, plus⟩ := toList_of_startsWithChar signed
    exact absurd (digits '+' (by rw [plus]; exact List.mem_cons_self)) (by decide)
  have short : startsWithChar (decimalLabel octet) '0' = true → (decimalLabel octet).utf8ByteSize ≤ 1 := by
    intro zero
    rw [startsWithChar, text, beq_iff_eq] at zero
    rw [decimalLabel, Numerals.head_toDigits zero]
    decide
  unfold parseCanonicalU8
  rw [if_neg, parseU8_unsigned unsigned, if_neg, text, Nat.ofDigitChars_ten_toDigits, if_pos octet.toNat_lt, UInt8.ofNat_toNat]
  · rw [Bool.or_eq_true, List.isEmpty_iff, Bool.not_eq_true', not_or, Bool.not_eq_false, List.all_eq_true]
    exact ⟨some_, digits⟩
  · rw [Bool.or_eq_true, not_or, Bool.and_eq_true, decide_eq_true_eq, decide_eq_true_eq, not_and]
    refine ⟨fun empty => some_ (by rw [empty]; rfl), fun long zero => ?_⟩
    exact absurd (short zero) (Nat.not_le.mpr long)

theorem parse_nibbleLabel {nibble : UInt8} (small : nibble.toNat < 16) : parseNibble (nibbleLabel nibble) = some nibble :=
  Numerals.byte_of_table (p := fun n => parseNibble (nibbleLabel n) = some n) (by decide) small

theorem plain_nibbleLabel {nibble : UInt8} (small : nibble.toNat < 16) : plain (nibbleLabel nibble) = nibbleLabel nibble :=
  plain_unsigned (Numerals.byte_of_table (p := fun n => startsWithChar (nibbleLabel n) '+' = false) (by decide) small)

theorem nibbles_small (octets : List UInt8) : ∀ nibble ∈ nibbles octets, nibble.toNat < 16 := by
  intro nibble member
  obtain ⟨octet, _, half⟩ := List.mem_flatMap.mp member
  have halves : (octet >>> 4).toNat < 16 ∧ (octet &&& 15).toNat < 16 :=
    Numerals.byte_of_table (p := fun n => (n >>> 4).toNat < 16 ∧ (n &&& 15).toNat < 16) (by decide +kernel) octet.toNat_lt
  rcases List.mem_cons.mp half with rfl | low
  · exact halves.1
  · rw [List.mem_singleton.mp low]
    exact halves.2

theorem joinNibbles_nibbles (octets : List UInt8) : joinNibbles (nibbles octets) = octets := by
  refine Numerals.pairUp_flatMap (fun octet => ?_) octets
  exact Numerals.byte_of_table (p := fun n => n >>> 4 <<< 4 ||| n &&& 15 = n) (by decide +kernel) octet.toNat_lt

theorem nibbles_joinNibbles {digits : List UInt8} (even : digits.length % 2 = 0) (small : ∀ d ∈ digits, d.toNat < 16) :
    nibbles (joinNibbles digits) = digits := by
  have apart : ∀ high low : UInt8, high.toNat < 16 → low.toNat < 16 →
      (high <<< 4 ||| low) >>> 4 = high ∧ (high <<< 4 ||| low) &&& 15 = low := by
    intro high low small small'
    have table : ∀ a < 16, ∀ b < 16, (UInt8.ofNat a <<< 4 ||| UInt8.ofNat b) >>> 4 = UInt8.ofNat a ∧
        (UInt8.ofNat a <<< 4 ||| UInt8.ofNat b) &&& 15 = UInt8.ofNat b := by decide
    have here := table high.toNat small low.toNat small'
    rwa [UInt8.ofNat_toNat, UInt8.ofNat_toNat] at here
  exact Numerals.flatMap_pairUp apart even small

/-! ## Names -/

/-- Every address is found under its labels. -/
theorem decodeIp_labels (address : IpAddr) : decodeIp address.labels = some address.text := by
  cases address with
  | v4 octets four =>
      have length : (octets.map decimalLabel).reverse.length = 4 := by rw [List.length_reverse, List.length_map, four]
      have read : (octets.map decimalLabel).mapM parseCanonicalU8 = some octets :=
        Traverse.mapM_written octets fun octet _ => parse_decimalLabel octet
      change decodeIp (octets.map decimalLabel).reverse = _
      unfold decodeIp
      rw [length, List.reverse_reverse, read]
      rfl
  | v6 octets sixteen =>
      have length : ((nibbles octets).map nibbleLabel).reverse.length = 32 := by
        rw [List.length_reverse, List.length_map, nibbles, List.length_flatMap]
        simp [sixteen]
      have read : ((nibbles octets).map nibbleLabel).mapM parseNibble = some (nibbles octets) :=
        Traverse.mapM_written _ fun nibble member => parse_nibbleLabel (nibbles_small octets nibble member)
      change decodeIp ((nibbles octets).map nibbleLabel).reverse = _
      unfold decodeIp
      rw [length, List.reverse_reverse, read]
      dsimp only [Option.map_some]
      rw [joinNibbles_nibbles]
      rfl

theorem labels_injective : Function.Injective IpAddr.labels := by
  intro a b same
  apply text_injective
  have texts := decodeIp_labels a
  rw [same, decodeIp_labels b] at texts
  exact (Option.some.inj texts).symm

/-- Lowercase labels that are accepted are those of an address, once the signs are off. -/
theorem labels_of_decoded {labels : List String} (lower : ∀ label ∈ labels, asciiLowercase label = label) {text : String}
    (decoded : decodeIp labels = some text) : ∃ address : IpAddr, address.text = text ∧ labels.map plain = address.labels := by
  unfold decodeIp at decoded
  split at decoded
  · rename_i four
    rw [Option.map_eq_some_iff] at decoded
    obtain ⟨octets, read, rfl⟩ := decoded
    have each := Traverse.mapM_eq_some_iff.mp read
    have length : octets.length = 4 := by rw [← each.length_eq, List.length_reverse, four]
    have spelled : labels.reverse.map plain = octets.map decimalLabel := by
      rw [← List.forall₂_eq_eq_eq, List.forall₂_map_left_iff, List.forall₂_map_right_iff]
      exact each.imp fun _ _ accepted => plain_of_octet accepted
    refine ⟨.v4 octets length, rfl, ?_⟩
    change _ = (octets.map decimalLabel).reverse
    rw [← spelled, List.map_reverse, List.reverse_reverse]
  · rename_i long
    rw [Option.map_eq_some_iff] at decoded
    obtain ⟨digits, read, rfl⟩ := decoded
    have each := Traverse.mapM_eq_some_iff.mp read
    have length : digits.length = 32 := by rw [← each.length_eq, List.length_reverse, long]
    have both := (List.forall₂_and_left _ _).mpr ⟨fun label member => lower label (List.mem_reverse.mp member), each⟩
    have small : ∀ digit ∈ digits, digit.toNat < 16 := by
      intro digit member
      obtain ⟨label, _, low, accepted⟩ := Traverse.exists_left both member
      exact (label_of_nibble low accepted).2
    have spelled : labels.reverse.map plain = digits.map nibbleLabel := by
      rw [← List.forall₂_eq_eq_eq, List.forall₂_map_left_iff, List.forall₂_map_right_iff]
      refine both.imp fun label digit ⟨low, accepted⟩ => ?_
      obtain ⟨rfl, fits⟩ := label_of_nibble low accepted
      exact plain_nibbleLabel fits
    have sixteen : (joinNibbles digits).length = 16 := by rw [joinNibbles, Numerals.length_pairUp, length]
    refine ⟨.v6 (joinNibbles digits) sixteen, rfl, ?_⟩
    change _ = ((nibbles (joinNibbles digits)).map nibbleLabel).reverse
    rw [nibbles_joinNibbles (by rw [length]) small, ← spelled, List.map_reverse, List.reverse_reverse]
  · cases decoded

/-- Two lists of lowercase labels that are accepted are the same address exactly if they are the same labels once the signs are
off; without a sign, they are. And every address is found under its own labels. -/
theorem one_address_one_name_iff (first second : List String)
    (lower : ∀ label ∈ first ++ second, asciiLowercase label = label) (accepted : (decodeIp first).isSome = true)
    (accepted' : (decodeIp second).isSome = true) :
    ((decodeIp first = decodeIp second → first = second) ↔ (first = second ∨ first.map plain ≠ second.map plain)) ∧
    (∀ label, startsWithChar label '+' = false → plain label = label) ∧
    ∀ address : IpAddr, decodeIp address.labels = some address.text := by
  refine ⟨?_, fun _ => plain_unsigned, decodeIp_labels⟩
  obtain ⟨text, decoded⟩ := Option.isSome_iff_exists.mp accepted
  obtain ⟨text', decoded'⟩ := Option.isSome_iff_exists.mp accepted'
  obtain ⟨address, rfl, spelled⟩ := labels_of_decoded (fun label member => lower label (List.mem_append_left _ member)) decoded
  obtain ⟨address', rfl, spelled'⟩ := labels_of_decoded (fun label member => lower label (List.mem_append_right _ member)) decoded'
  have same : decodeIp first = decodeIp second ↔ first.map plain = second.map plain := by
    rw [decoded, decoded', Option.some.injEq, text_injective.eq_iff, spelled, spelled', labels_injective.eq_iff]
  rw [same]
  constructor
  · intro one
    by_cases plains : first.map plain = second.map plain
    · exact .inl (one plains)
    · exact .inr plains
  · rintro (one | apart) plains
    · exact one
    · exact absurd plains apart

/-- The sign that `u8::from_str` takes. -/
theorem signed_octet : ¬∀ first second : List String, (∀ label ∈ first ++ second, asciiLowercase label = label) →
    (decodeIp first).isSome = true → (decodeIp second).isSome = true → decodeIp first = decodeIp second → first = second := by
  intro one
  exact absurd (one ["+1", "2", "3", "4"] ["1", "2", "3", "4"] (by decide) (by decide) (by decide) (by decide)) (by decide)

theorem one_address_one_name_iff_signed :
    ¬ (decodeIp ["+01", "2", "3", "4"] = decodeIp ["1", "2", "3", "4"] → ["+01", "2", "3", "4"] = ["1", "2", "3", "4"]) ∧
      decodeIp (IpAddr.labels (.v4 [1, 2, 3, 4] rfl)) = some (IpAddr.text (.v4 [1, 2, 3, 4] rfl)) := by
  obtain ⟨one, -, own⟩ := one_address_one_name_iff ["+01", "2", "3", "4"] ["1", "2", "3", "4"] (by decide) (by decide) (by decide)
  refine ⟨fun told => ?_, own _⟩
  rcases one.mp told with same | apart
  · exact absurd same (by decide)
  · exact apart (by decide)

end Dns
end SightingDB
