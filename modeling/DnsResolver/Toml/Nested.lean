import DnsResolver.Toml.Key
import DnsResolver.Toml.Scalar
import DnsResolver.Toml.Table

namespace DnsResolver.Toml

/-!
# Values in a text

A value is a string, a scalar, an array in brackets or a table in braces. Both may span
lines, with comments, and end in a comma. Values nest up to a fixed depth.
-/

/-- How deep values nest. -/
def maxDepth : Nat := 80

/-- Reads a string or a scalar. -/
def readFlat (cs : List Char) : Option (Value × List Char) :=
  if cs.head?.any isQuote then
    (readQuoted cs).map fun (text, rest) => (.string text, rest)
  else readScalar cs

/-- Reads the items of an array up to its closing bracket, at most `limit` of them. -/
def readItems (item : List Char → Option (Value × List Char)) :
    Nat → List Char → Option (List Value × List Char)
  | 0, _ => none
  | limit + 1, cs => do
    match ← skipLines false cs with
    | ']' :: rest => return ([], rest)
    | cs =>
      let (value, rest) ← item cs
      match ← skipLines false rest with
      | ',' :: rest =>
        let (values, rest) ← readItems item limit rest
        return (value :: values, rest)
      | ']' :: rest => return ([value], rest)
      | _ => none

/-- Reads a path, an equals sign and a value. `skip` skips what may stand around the sign. -/
def readPair (skip : List Char → Option (List Char))
    (item : List Char → Option (Value × List Char)) (cs : List Char) :
    Option ((List Key × Value) × List Char) := do
  let (path, rest) ← readPath cs
  let rest ← Text.stripFront? ['='] (← skip rest)
  let (value, rest) ← item (← skip rest)
  return ((path, value), rest)

/-- Reads the entries of a table up to its closing brace, at most `limit` of them, and adds
    them to `table`. -/
def readEntries (item : List Char → Option (Value × List Char)) :
    Nat → Table → List Char → Option (Table × List Char)
  | 0, _, _ => none
  | limit + 1, table, cs => do
    match ← skipLines false cs with
    | '\x7d' :: rest => return (table, rest)
    | cs =>
      let ((path, value), rest) ← readPair (skipLines false) item cs
      let table ← table.assign? value path
      match ← skipLines false rest with
      | ',' :: rest => readEntries item limit table rest
      | '\x7d' :: rest => return (table, rest)
      | _ => none

/-- Reads a value that nests at most `depth` deep and has no more than `limit` items or
    entries at any depth. -/
def readNested (limit : Nat) : Nat → List Char → Option (Value × List Char)
  | 0, cs => readFlat cs
  | depth + 1, cs =>
    match cs with
    | '[' :: rest =>
      (readItems (readNested limit depth) limit rest).map fun (items, rest) =>
        (.array .inline items, rest)
    | '\x7b' :: rest =>
      (readEntries (readNested limit depth) limit [] rest).map fun (table, rest) =>
        (.table .inline table, rest)
    | cs => readFlat cs

/-- Reads a value of a text that has `size` characters in all, so at most as many items. -/
def readValue (size : Nat) (cs : List Char) : Option (Value × List Char) :=
  readNested size maxDepth cs

end DnsResolver.Toml
