import DnsResolver.Toml.Digits
import DnsResolver.Toml.Value

namespace DnsResolver.Toml

/-!
# Integers

An integer has base ten and may have a sign, or has the mark of another base and no sign.
What counts as an integer is more than what spells a number: the mark of a base may stand
alone, and in base ten characters that are no digits may follow an underscore, unless one of
them is a space or makes it a float.
-/

/-- Whether 128 bits hold a number, signed or unsigned. -/
def fits128 (n : Int) : Bool := -Int.pow 2 127 ≤ n && n < Int.pow 2 128

/-- The integer that spells a number, or spells none. -/
def Value.ofNumber (n : Option Int) : Value := .integer (n.filter fits128)

/-- The integer behind the mark of a base. -/
def basedInteger? (base : Nat) (isDigit : Char → Bool) (cs : List Char) : Option Value := do
  let digits ← ungroup? isHexDigit cs
  if digits.all isDigit then
    some (.ofNumber (if digits.isEmpty then none else some (ofDigits base digits)))
  else none

/-- A character that makes a number a float. -/
def isFloatMark (c : Char) : Bool := c = '.' || c = 'e' || c = 'E'

/-- Whether a text without a sign has the form of an integer of base ten. Only zero itself
    starts with a zero. -/
def isWhole (cs : List Char) : Bool :=
  let rest := cs.dropWhile Char.isDigit
  (if rest.isEmpty then !cs.isEmpty else rest.head? = some '_') && !rest.any isFloatMark
    && !rest.contains ' ' && (cs.length = 1 || cs.head? != some '0')

/-- The integer of base ten. -/
def decimalInteger? (cs : List Char) : Option Value := do
  if isWhole (splitSign cs).2 then
    let (negative, digits) := splitSign (← ungroup? isHexDigit cs)
    some (.ofNumber ((Text.decimal? digits).map (withSign negative)))
  else none

/-- The integer that a text spells. -/
def integer? : List Char → Option Value
  | '0' :: 'x' :: cs => basedInteger? 16 isHexDigit cs
  | '0' :: 'o' :: cs => basedInteger? 8 isOctDigit cs
  | '0' :: 'b' :: cs => basedInteger? 2 isBinDigit cs
  | cs => decimalInteger? cs

end DnsResolver.Toml
