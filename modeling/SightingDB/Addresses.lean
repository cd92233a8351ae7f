import SightingDB.Text

/-!
Addresses as the standard library reads them. Every reader takes what it can from the front
of a text; an address is one when nothing is left.
-/
namespace SightingDB

namespace Addresses

/-- `char::to_digit`. -/
def digit (radix : Nat) (c : Char) : Option Nat :=
  let n := c.toNat
  let value := if c.isDigit then some (n - 48)
    else if 'a' ≤ c && c ≤ 'z' then some (n - 87)
    else if 'A' ≤ c && c ≤ 'Z' then some (n - 55)
    else none
  value.filter (· < radix)

/-- `char::is_ascii_hexdigit`. -/
def isHexDigit (c : Char) : Bool := (digit 16 c).isSome

/-- `Parser::read_number`: at least one digit, and no more than `most`. -/
def readNumber (radix most size : Nat) (zeros : Bool) (text : List Char) : Option (Nat × List Char) :=
  let digits := text.takeWhile fun c => (digit radix c).isSome
  let value := (digits.filterMap (digit radix)).foldl (fun n d => n * radix + d) 0
  if digits.isEmpty || most < digits.length || size ≤ value then none
  else if !zeros && 1 < digits.length && digits.head? = some '0' then none
  else some (value, text.drop digits.length)

def readChar (c : Char) : List Char → Option (List Char)
  | d :: rest => if d = c then some rest else none
  | [] => none

/-- `Parser::read_separator`: the separator stands before all but the first. -/
def readSeparated {α : Type} (sep : Char) (index : Nat) (inner : List Char → Option (α × List Char)) (text : List Char) :
    Option (α × List Char) :=
  if 0 < index then (readChar sep text).bind inner else inner text

/-- `Parser::read_ipv4_addr`. -/
def readIpv4 (text : List Char) : Option (List Nat × List Char) := do
  let (a, text) ← readSeparated '.' 0 (readNumber 10 3 256 false) text
  let (b, text) ← readSeparated '.' 1 (readNumber 10 3 256 false) text
  let (c, text) ← readSeparated '.' 2 (readNumber 10 3 256 false) text
  let (d, text) ← readSeparated '.' 3 (readNumber 10 3 256 false) text
  return ([a, b, c, d], text)

/-- `read_groups`: how many groups of an address there are in front of something else, and
whether the last two were written as an IPv4 address. -/
def readGroups (limit : Nat) : Nat → List Char → Nat × Bool × List Char
  | 0, text => (limit, false, text)
  | left + 1, text =>
      let index := limit - (left + 1)
      match if 0 < left then readSeparated ':' index readIpv4 text else none with
      | some (_, rest) => (index + 2, true, rest)
      | none => match readSeparated ':' index (readNumber 16 4 65536 true) text with
        | some (_, rest) => readGroups limit left rest
        | none => (index, false, text)

/-- `Parser::read_ipv6_addr`, and what is left. -/
def readIpv6 (text : List Char) : Option (List Char) :=
  let (head, embedded, text) := readGroups 8 8 text
  if head = 8 then some text
  else if embedded then none
  else do
    let text ← readChar ':' text
    let text ← readChar ':' text
    let (_, _, text) := readGroups (8 - (head + 1)) (8 - (head + 1)) text
    return text

/-- `Ipv4Addr::from_str`; a text longer than any address is none. -/
def isIpv4 (text : String) : Bool :=
  text.utf8ByteSize ≤ 15 && (readIpv4 text.toList).any (·.2 = [])

/-- `Ipv6Addr::from_str`. -/
def isIpv6 (text : String) : Bool := (readIpv6 text.toList).any (· = [])

example : isIpv4 "1.2.3.4" = true ∧ isIpv4 "1.2.3.04" = false ∧ isIpv6 "fe80::1" = true ∧
    isIpv6 "::ffff:1.2.3.4" = true ∧ isIpv6 "1:2:3:4:5:6:7:8:9" = false := by decide

end Addresses

end SightingDB
