import DnsResolver.Toml.Trivia
import DnsResolver.Toml.Value

namespace DnsResolver.Toml

/-!
# Keys

A key is bare or a quoted string of one line. Keys with dots between them, and blanks around
the dots, form a path.
-/

/-- A character of a bare key. -/
def isBareKey (c : Char) : Bool := c.isAlphanum || c = '_' || c = '-'

/-- Reads one key. -/
def readKey : List Char → Option (Key × List Char)
  | '"' :: rest => readBasic none [] rest
  | '\'' :: rest => readLiteral [] rest
  | cs =>
    let key := cs.takeWhile isBareKey
    if key.isEmpty then none else some (key, cs.dropWhile isBareKey)

/-- Reads a path of at most `limit` keys, and the blanks behind it. -/
def readKeys : Nat → List Char → Option (List Key × List Char)
  | 0, _ => none
  | limit + 1, cs => do
    let (key, rest) ← readKey cs
    match skipBlanks rest with
    | '.' :: rest =>
      let (keys, rest) ← readKeys limit (skipBlanks rest)
      return (key :: keys, rest)
    | rest => return ([key], rest)

/-- How many keys a path has at most. -/
def maxKeys : Nat := 80

/-- Reads a path, and the blanks behind it. -/
def readPath (cs : List Char) : Option (List Key × List Char) := readKeys maxKeys cs

end DnsResolver.Toml
