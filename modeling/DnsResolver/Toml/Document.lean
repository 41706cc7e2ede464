import DnsResolver.Toml.Nested

namespace DnsResolver.Toml

/-!
# Documents

A document is a list of statements, each on a line of its own: headers in brackets, headers
in double brackets, and keys with values, which belong to the table of the header in front.
-/

/-- One line of a document. -/
inductive Statement where
  /-- A table, by the path in front of its key and its key. -/
  | header (path : List Key) (key : Key)
  /-- One more table of an array. -/
  | item (path : List Key) (key : Key)
  | entry (path : List Key) (value : Value)

/-! ### Reading -/

/-- Splits a path at its last key. -/
def splitLast? (path : List Key) : Option (List Key × Key) :=
  path.getLast?.map fun key => (path.dropLast, key)

/-- Reads the path of a header up to its closing brackets. -/
def readHeader (closing cs : List Char) : Option ((List Key × Key) × List Char) := do
  let (path, rest) ← readPath (skipBlanks cs)
  return (← splitLast? path, ← Text.stripFront? closing rest)

/-- Reads a statement of a text that has `size` characters. -/
def readStatement (size : Nat) : List Char → Option (Statement × List Char)
  | '[' :: '[' :: rest => do
    let ((path, key), rest) ← readHeader [']', ']'] rest
    return (.item path key, rest)
  | '[' :: rest => do
    let ((path, key), rest) ← readHeader [']'] rest
    return (.header path key, rest)
  | cs => do
    let ((path, value), rest) ← readPair (some ∘ skipBlanks) (readValue size) cs
    return (.entry path value, rest)

/-- Reads statements up to the end of the text, at most `limit` of them. -/
def readStatements (size : Nat) : Nat → List Char → Option (List Statement)
  | 0, _ => none
  | limit + 1, cs => do
    match ← skipLines false cs with
    | [] => return []
    | cs =>
      let (statement, rest) ← readStatement size cs
      let statements ← readStatements size limit (← endLine false rest)
      return statement :: statements

/-- Reads the statements of a text. A byte order mark in front does not count. -/
def statements? (cs : List Char) : Option (List Statement) :=
  let cs := if cs.head? = some '\uFEFF' then cs.tail else cs
  readStatements cs.length (cs.length + 1) cs

/-! ### Building -/

/-- What statements have built: the table, and the path of the header in force. -/
structure Document where
  table : Table := []
  path : List Key := []

/-- Adds a statement. -/
def Document.add? (document : Document) : Statement → Option Document
  | .header path key =>
    (Table.changeAt? (Table.openTable? key) path document.table).map (⟨·, path ++ [key]⟩)
  | .item path key =>
    (Table.changeAt? (Table.openItem? key) path document.table).map (⟨·, path ++ [key]⟩)
  | .entry path value =>
    (Table.changeAt? (Table.assign? value path) document.path document.table).map
      (⟨·, document.path⟩)

/-- The table that a list of statements builds. -/
def Table.ofStatements? (statements : List Statement) : Option Table :=
  (statements.foldlM Document.add? {}).map Document.table

/-- The table of a document. -/
def Table.parse? (text : String) : Option Table := do
  Table.ofStatements? (← statements? text.toList)

end DnsResolver.Toml
