namespace DnsResolver.Toml

/-!
# TOML values

Tables and arrays remember how they were written, because that decides what a later line of
the document may still add to them. Of floats, dates and times nothing is kept that no
setting asks for.

A number that is too large is part of the document like any other value. It only fails those
who read it, so a value is *sound* when every number in it can be read.
-/

/-- How a table came about. -/
inductive TableKind where
  /-- Written in braces: closed. -/
  | inline
  /-- Named by a header of its own. -/
  | header
  /-- Named only on the way to the table of a longer header. -/
  | implied
  /-- Named only by a dotted key. -/
  | dotted
  deriving DecidableEq

/-- How an array came about. -/
inductive ArrayKind where
  /-- Written in brackets: closed. -/
  | inline
  /-- Made of the tables of double-bracket headers, the last one first. -/
  | tables
  deriving DecidableEq

/-- A key. -/
abbrev Key := List Char

/-- A value. -/
inductive Value where
  | string (text : List Char)
  /-- An integer, and the number that it spells if 128 bits hold it. -/
  | integer (n : Option Int)
  /-- A float, and whether it fits in a double. Infinity, written as such, does. -/
  | float (fits : Bool)
  | boolean (b : Bool)
  | datetime
  | array (kind : ArrayKind) (items : List Value)
  | table (kind : TableKind) (entries : List (Key × Value))

/-- The entries of a table in the order of their first appearance. -/
abbrev Table := List (Key × Value)

/-- The items of an array in the order of the document. -/
def ArrayKind.inOrder (items : List Value) : ArrayKind → List Value
  | inline => items
  | tables => items.reverse

mutual

/-- Whether every number in a value can be read. -/
def Value.isSound : Value → Bool
  | .integer n => n.isSome
  | .float fits => fits
  | .array _ items => areSound items
  | .table _ entries => haveSoundValues entries
  | _ => true

/-- Whether every number in a list of values can be read. -/
def areSound : List Value → Bool
  | [] => true
  | item :: items => item.isSound && areSound items

/-- Whether every number in the values of a table can be read. -/
def haveSoundValues : List (Key × Value) → Bool
  | [] => true
  | (_, value) :: entries => value.isSound && haveSoundValues entries

end

end DnsResolver.Toml
