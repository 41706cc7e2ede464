import DnsResolver.Toml.Digits
import DnsResolver.Toml.Value

namespace DnsResolver.Toml

/-!
# Floats

A float is a decimal number with a fraction, an exponent or both; infinity; or no number. A
decimal number fits in a double when it is not rounded to infinity.
-/

/-- A decimal number without its sign: its digits in front of the point and behind it, and
    the power of ten that it is to be multiplied with. -/
structure Decimal where
  whole : List Char
  fraction : List Char
  exponent : Int

namespace Decimal

/-- Splits off the digits behind a point, if there is a point. -/
def splitFraction? : List Char → Option (List Char × List Char)
  | '.' :: cs =>
    let digits := cs.takeWhile Char.isDigit
    if digits.isEmpty then none else some (digits, cs.dropWhile Char.isDigit)
  | cs => some ([], cs)

/-- The exponent that digits spell. They are read until it is no longer below 65536; the
    digits behind do not count. -/
def ofExponentDigits (digits : List Char) : Nat :=
  digits.foldl (fun n c => if n < 65536 then n * 10 + (Text.hexValue? c).getD 0 else n) 0

/-- The exponent that ends a number; it is 0 when there is none. -/
def exponent? : List Char → Option Int
  | [] => some 0
  | c :: cs =>
    let (negative, digits) := splitSign cs
    if (c = 'e' || c = 'E') && !digits.isEmpty && digits.all Char.isDigit then
      some (withSign negative (ofExponentDigits digits))
    else none

/-- Reads a decimal number that is not whole in form. -/
def parse? (cs : List Char) : Option Decimal := do
  let whole := cs.takeWhile Char.isDigit
  let rest := cs.dropWhile Char.isDigit
  if whole.isEmpty || rest.isEmpty then none
  let (fraction, rest) ← splitFraction? rest
  return { whole, fraction, exponent := ← exponent? rest }

/-- The least whole number that a double rounds to infinity: it lies halfway between the
    greatest double and the power of two behind it. -/
def overflow : Nat := Nat.pow 2 1024 - Nat.pow 2 970

/-- The number of decimal digits of `overflow`. -/
def overflowPlaces : Nat := 309

/-- Whether a double holds a decimal number. The digits are shifted to the place of their
    point, and no power of ten is taken. -/
def fitsDouble (decimal : Decimal) : Bool :=
  let digits := (decimal.whole ++ decimal.fraction).dropWhile (· = '0')
  let places : Int := digits.length - decimal.fraction.length + decimal.exponent
  digits.isEmpty || places < overflowPlaces
    || (places = overflowPlaces
      && ofDigits 10 ((digits.rightpad overflowPlaces '0').take overflowPlaces) < overflow)

end Decimal

/-- The float that a text spells. The digits in front of the point do not start with a zero
    unless it is the only one. -/
def float? (cs : List Char) : Option Value :=
  let body := (splitSign cs).2
  if body = "inf".toList || body = "nan".toList then some (.float true)
  else do
    let decimal ← Decimal.parse? (splitSign (← ungroup? Char.isDigit cs)).2
    if decimal.whole.length = 1 || decimal.whole.head? != some '0' then
      some (.float decimal.fitsDouble)
    else none

end DnsResolver.Toml
