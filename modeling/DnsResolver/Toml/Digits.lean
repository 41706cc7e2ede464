import DnsResolver.Text.Numeral

namespace DnsResolver.Toml

/-!
# Digits

A number may have a sign in front, and underscores that part its digits into groups.
-/

/-- A digit of base sixteen. -/
def isHexDigit (c : Char) : Bool := (Text.hexValue? c).isSome

/-- A digit of base eight. -/
def isOctDigit (c : Char) : Bool := '0' ≤ c && c ≤ '7'

/-- A digit of base two. -/
def isBinDigit (c : Char) : Bool := c = '0' || c = '1'

/-- The number that digits of a base spell. -/
def ofDigits (base : Nat) (digits : List Char) : Nat :=
  digits.foldl (fun n c => n * base + (Text.hexValue? c).getD 0) 0

/-- Splits a sign off, telling whether it is a minus sign. -/
def splitSign : List Char → Bool × List Char
  | '-' :: cs => (true, cs)
  | '+' :: cs => (false, cs)
  | cs => (false, cs)

/-- A number with the sign that was split off. -/
def withSign (negative : Bool) (n : Nat) : Int := if negative then -n else n

/-- The text of a number without its underscores. Every underscore stands between two
    digits. -/
def ungroup? (isDigit : Char → Bool) (cs : List Char) : Option (List Char) :=
  let groups := cs.splitOn '_'
  if groups.dropLast.all (fun group => group.getLast?.any isDigit)
      && groups.tail.all (fun group => group.head?.any isDigit) then
    some groups.flatten
  else none

end DnsResolver.Toml
