import SightingDB.Addresses
import SightingDB.Lib.Numerals
import SightingDB.Lib.Runs

/-!
Turning a query name into a namespace and a value. Addresses are written out as the standard library writes them; decoding
base32 is left to whatever does it.
-/
namespace SightingDB

namespace Addresses

/-- `Ipv4Addr` as text, from its octets. -/
def ipv4Text (octets : List UInt8) : String := joinWith '.' (octets.map fun octet => toString octet.toNat)

/-- `Ipv6Addr::segments`. -/
def groups : List UInt8 → List Nat := Numerals.pairUp fun high low => high.toNat * 256 + low.toNat

/-- `Ipv6Addr::to_ipv4_mapped`. -/
def ipv4Mapped (octets : List UInt8) : Option (List UInt8) :=
  if octets.take 12 = [0, 0, 0, 0, 0, 0, 0, 0, 0, 0, 0xff, 0xff] then some (octets.drop 12) else none

/-- `fmt_subslice`: groups in hexadecimal, between colons. -/
def groupsText (groups : List Nat) : String := joinWith ':' (groups.map fun group => String.ofList (Nat.toDigits 16 group))

/-- `Ipv6Addr` as text, from its octets: the longest run of zeros is left out, if there are two or more. -/
def ipv6Text (octets : List UInt8) : String :=
  match ipv4Mapped octets with
  | some ipv4 => "::ffff:" ++ ipv4Text ipv4
  | none =>
      let groups := groups octets
      let zeroes := Runs.longestRun (· = 0) groups
      if 1 < zeroes.len then
        groupsText (groups.take zeroes.start) ++ "::" ++ groupsText (groups.drop (zeroes.start + zeroes.len))
      else groupsText groups

example : ipv6Text [0x20, 1, 0xd, 0xb8, 0, 0, 0, 0, 0, 0, 0, 0, 0, 0, 0, 1] = "2001:db8::1" ∧
    ipv6Text [0, 0, 0, 0, 0, 0, 0, 0, 0, 0, 0xff, 0xff, 10, 0, 0, 1] = "::ffff:10.0.0.1" ∧
    ipv6Text [0, 1, 0, 0, 0, 0, 0, 2, 0, 0, 0, 0, 0, 3, 0, 4] = "1::2:0:0:3:4" ∧ ipv6Text (List.replicate 16 0) = "::" := by
  decide

end Addresses

namespace Dns

/-- How the value labels of a query encode the stored value. -/
inductive Encoding
  | ip
  | domain
  | base32
  deriving DecidableEq

/-- One namespace exposed over DNS, and the label that selects it. -/
structure Exposed where
  label : String
  namespace_ : String
  encoding : Encoding
  deriving DecidableEq

/-- What a query resolved to. -/
structure Lookup where
  exposed : Exposed
  value : String
  deriving DecidableEq

/-- `u8::from_str`, which takes a sign. -/
def parseU8 (text : String) : Option UInt8 :=
  let digits := match text.toList with
    | '+' :: rest => rest
    | cs => cs
  if digits.isEmpty || !digits.all Char.isDigit then none
  else if Nat.ofDigitChars 10 digits 0 < 256 then some (UInt8.ofNat (Nat.ofDigitChars 10 digits 0))
  else none

/-- Reject non-canonical octets such as `01`. -/
def parseCanonicalU8 (label : String) : Option UInt8 :=
  if label = "" || (1 < label.utf8ByteSize && startsWithChar label '0') then none
  else parseU8 label

/-- A label of one byte, as a hexadecimal digit. -/
def parseNibble (label : String) : Option UInt8 :=
  if label.utf8ByteSize ≠ 1 then none
  else (label.toList.head?.bind (Addresses.digit 16)).map UInt8.ofNat

/-- Two nibbles an octet, the higher first. -/
def joinNibbles : List UInt8 → List UInt8 := Numerals.pairUp fun high low => high <<< 4 ||| low

/-- The labels are reversed, so the last one is the first octet or nibble. -/
def decodeIp (labels : List String) : Option String :=
  match labels.length with
  | 4 => (labels.reverse.mapM parseCanonicalU8).map Addresses.ipv4Text
  | 32 => (labels.reverse.mapM parseNibble).map fun nibbles => Addresses.ipv6Text (joinNibbles nibbles)
  | _ => none

example : decodeIp ["4", "3", "2", "1"] = some "1.2.3.4" ∧ decodeIp ["01", "2", "3", "4"] = none ∧
    decodeIp ["4", "3", "2", "256"] = none ∧ decodeIp ["4", "3", "2", "-1"] = none ∧ decodeIp ["3", "2", "1"] = none := by
  decide

section

variable (base32 : List UInt8 → Option (List UInt8))

/-- The labels are one text in base32, in capitals. -/
def decodeBase32 (labels : List String) : Option String :=
  let joined := (joinBy "" labels).toList.map Char.toUpper
  (base32 (joined.flatMap String.utf8EncodeChar)).bind fun bytes => String.fromUTF8? bytes.toByteArray

/-- Read the value out of its labels. -/
def decode (labels : List String) : Encoding → Option String
  | .ip => decodeIp labels
  | .domain => some (joinWith '.' labels)
  | .base32 => decodeBase32 base32 labels

/-- `slice::strip_suffix`. -/
def stripSuffix (labels zone : List String) : Option (List String) :=
  if zone.isSuffixOf labels then some (labels.take (labels.length - zone.length)) else none

/-- Split a query name into a namespace and a value; both lists of labels are without a root label. -/
def resolve (qlabels zone : List String) (exposed : List Exposed) : Option Lookup := do
  let rest ← stripSuffix qlabels zone
  let label ← rest.getLast?
  let valueLabels := rest.dropLast
  if valueLabels.isEmpty then none
  else
    let exposed ← exposed.find? (·.label = label)
    let value ← decode base32 valueLabels exposed.encoding
    return ⟨exposed, value⟩

end

end Dns

end SightingDB
