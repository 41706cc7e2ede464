import DnsResolver.Toml.Datetime
import DnsResolver.Toml.Decimal
import DnsResolver.Toml.Integer
import DnsResolver.Toml.Trivia

namespace DnsResolver.Toml

/-!
# Scalars

Booleans, integers, floats, dates and times run up to the next character with a meaning of
its own, and each kind is told by the whole run. Blanks inside a run belong to it, as between
a date and a time, but no quoted string does.
-/

/-- The characters with a meaning of their own around scalars. -/
def separators : List Char :=
  ['=', ',', '[', ']', '\x7b', '\x7d', '#', ' ', '\t', '\r', '\n']

/-- A character of a scalar. -/
def isAtom (c : Char) : Bool := !separators.contains c

/-- A character that opens a quoted string. -/
def isQuote (c : Char) : Bool := c = '"' || c = '\''

/-- The value that a scalar spells. -/
def scalar? (cs : List Char) : Option Value :=
  if cs = "true".toList then some (.boolean true)
  else if cs = "false".toList then some (.boolean false)
  else
    (integer? cs).or ((float? cs).or (if isDatetime cs then some .datetime else none))

/-- Splits the characters of a scalar off a text. `seen` are those in front, and `blanks` the
    blanks behind them, which belong to the scalar only when more of it follows; both are in
    reverse order. -/
def takeScalar (seen blanks : List Char) : List Char → List Char × List Char
  | [] => (seen.reverse, blanks.reverse)
  | c :: cs =>
    if isBlank c then takeScalar seen (c :: blanks) cs
    else if isAtom c && (blanks.isEmpty || !isQuote c) then
      takeScalar (c :: (blanks ++ seen)) [] cs
    else (seen.reverse, blanks.reverse ++ c :: cs)

/-- Reads a scalar. -/
def readScalar (cs : List Char) : Option (Value × List Char) :=
  let (scalar, rest) := takeScalar [] [] cs
  (scalar? scalar).map fun value => (value, rest)

end DnsResolver.Toml
