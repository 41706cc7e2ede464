import DnsResolver.Toml.Value

namespace DnsResolver.Toml

/-!
# Building tables

A document builds one table, line by line. A header names the table that the following
lines fill; a dotted key makes the tables on its way. No key is given twice, and a table
that one line has closed is not changed by a later one: a header does not enter a table in
braces, and a dotted key enters only tables that dotted keys have made.
-/

namespace Table

/-- The value of a key. -/
def get? (table : Table) (key : Key) : Option Value := List.lookup key table

/-- Gives a key a value, in its place if it has one and at the end otherwise. -/
def put (key : Key) (value : Value) : Table → Table
  | [] => [(key, value)]
  | (k, v) :: rest => if k = key then (k, value) :: rest else (k, v) :: put key value rest

/-- Changes the last table of an array, which stands in front. -/
def changeLast? (change : Table → Option Table) : List Value → Option (List Value)
  | .table kind entries :: items =>
    (change entries).map fun entries => .table kind entries :: items
  | _ => none

/-- Gives a value to a dotted key, given as its path. -/
def assign? (value : Value) : List Key → Table → Option Table
  | [], _ => none
  | [key], table => if (get? table key).isSome then none else some (table.put key value)
  | key :: next :: path, table =>
    let inner := assign? value (next :: path)
    match get? table key with
    | none => (inner []).map fun entries => table.put key (.table .dotted entries)
    | some (.table .dotted entries) =>
      (inner entries).map fun entries => table.put key (.table .dotted entries)
    | some (.table .implied entries) =>
      if path.isEmpty then none
      else (inner entries).map fun entries => table.put key (.table .implied entries)
    | some (.array .tables items) =>
      if path.isEmpty then none
      else (changeLast? inner items).map fun items => table.put key (.array .tables items)
    | some _ => none

/-- Changes the table that a header's path leads to: of an array the last one. Tables on the
    way that are not there yet are made. -/
def changeAt? (change : Table → Option Table) : List Key → Table → Option Table
  | [], table => change table
  | key :: path, table =>
    let inner := changeAt? change path
    match get? table key with
    | none => (inner []).map fun entries => table.put key (.table .implied entries)
    | some (.table .inline _) => none
    | some (.table kind entries) =>
      (inner entries).map fun entries => table.put key (.table kind entries)
    | some (.array .tables items) =>
      (changeLast? inner items).map fun items => table.put key (.array .tables items)
    | some _ => none

/-- Opens the table of a header, which has only been implied so far. -/
def openTable? (key : Key) (table : Table) : Option Table :=
  match get? table key with
  | none => some (table.put key (.table .header []))
  | some (.table .implied entries) => some (table.put key (.table .header entries))
  | some _ => none

/-- Opens one more table of an array. -/
def openItem? (key : Key) (table : Table) : Option Table :=
  match get? table key with
  | none => some (table.put key (.array .tables [.table .header []]))
  | some (.array .tables items) =>
    some (table.put key (.array .tables (.table .header [] :: items)))
  | some _ => none

end Table

end DnsResolver.Toml
