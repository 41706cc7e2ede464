import DnsResolver.Error
import DnsResolver.Trie.Erase
import DnsResolver.Trie.Insert

namespace DnsResolver

/-!
# Tries over octet strings

A finite map from octet strings to values. Operations that change the trie return it with
their answer.
-/

/-- A trie. -/
structure Trie (α : Type) where
  root : Trie.Node α

namespace Trie

variable {α : Type}

/-- The trie without entries. -/
def empty : Trie α := ⟨.root⟩

/-- All entries: a key before its extensions, and otherwise the higher octet first. -/
def entries (trie : Trie α) : List (Entry α) := trie.root.entries

/-- Whether there is no entry. -/
def isEmpty (trie : Trie α) : Bool := trie.root.isBare

theorem isEmpty_eq (trie : Trie α) : trie.isEmpty = trie.entries.isEmpty := Node.isBare_eq _

/-- The trie after all its entries were dropped. -/
def clear (trie : Trie α) : Trie α := ⟨{ trie.root with entry := none, children := none }⟩

/-! ### Looking up -/

/-- The value of a key. -/
def find? (trie : Trie α) (key : Key) : Option α := (trie.root.find? key key).map (·.value)

/-- The value of a key that has to be present. -/
def get (trie : Trie α) (key : Key) : Except Error α :=
  match trie.find? key with
  | some value => .ok value
  | none => .error .keyNotFound

/-- Whether a key is present. -/
def contains (trie : Trie α) (key : Key) : Bool := (trie.find? key).isSome

/-! ### Storing -/

/-- Stores under a key what `choose` makes of its present value. -/
def upsert (trie : Trie α) (key : Key) (choose : Option α → Option α) : Trie α × Outcome α :=
  let decide (present : Option (Entry α)) : Option (Entry α) :=
    (choose (present.map (·.value))).map fun value => ⟨key, value⟩
  let (root, outcome) := trie.root.insert decide key
  (⟨root⟩, outcome)

/-- Adds a value unless the key is present, and says whether it was added. -/
def tryAdd (trie : Trie α) (key : Key) (value : α) : Bool × Trie α :=
  match trie.upsert key fun present => if present.isSome then none else some value with
  | (trie, .stored ..) => (true, trie)
  | (trie, _) => (false, trie)

/-- Adds a value under a key that must not be present. -/
def add (trie : Trie α) (key : Key) (value : α) : Except Error Unit × Trie α :=
  match trie.tryAdd key value with
  | (true, trie) => (.ok (), trie)
  | (false, trie) => (.error .keyAlreadyExists, trie)

/-- Stores a value and returns the one it replaced. -/
def set (trie : Trie α) (key : Key) (value : α) : Option α × Trie α :=
  match trie.upsert key fun _ => some value with
  | (trie, .stored previous _) => (previous.map (·.value), trie)
  | (trie, _) => (none, trie)

/-- Stores `fresh` when the key is absent and `change` of its value otherwise, and returns
    the stored value. -/
def addOrUpdate (trie : Trie α) (key : Key) (fresh : α) (change : α → α) : α × Trie α :=
  match trie.upsert key fun present => some ((present.map change).getD fresh) with
  | (trie, .stored _ current) => (current.value, trie)
  | (trie, .unchanged (some present)) => (present.value, trie)
  | (trie, _) => (fresh, trie)

/-- The value of a key, which is stored first when the key is absent. -/
def getOrAdd (trie : Trie α) (key : Key) (fresh : α) : α × Trie α :=
  match trie.find? key with
  | some value => (value, trie)
  | none =>
    match trie.upsert key fun present => if present.isSome then none else some fresh with
    | (trie, .stored _ current) => (current.value, trie)
    | (trie, .unchanged (some present)) => (present.value, trie)
    | (trie, _) => (fresh, trie)

/-- Replaces the value of a key while it equals `expected`, and says whether it did. -/
def tryUpdate [BEq α] (trie : Trie α) (key : Key) (value expected : α) : Bool × Trie α :=
  let choose (present : Option α) : Option α :=
    present.bind fun old => if old == expected then some value else none
  match trie.upsert key choose with
  | (trie, .stored ..) => (true, trie)
  | (trie, _) => (false, trie)

/-! ### Erasing -/

/-- Erases a key and returns its value. The root stays even when nothing is left of it. -/
def erase (trie : Trie α) (key : Key) : Option α × Trie α :=
  match trie.root.erase? key key with
  | some (entry, some root) => (some entry.value, ⟨root⟩)
  | some (entry, none) => (some entry.value, ⟨{ trie.root with entry := none, children := none }⟩)
  | none => (none, trie)

/-- Erases the entries of several keys, and counts those that were present. -/
def eraseAll (trie : Trie α) : List Key → Nat × Trie α
  | [] => (0, trie)
  | key :: keys =>
    match trie.erase key with
    | (some _, trie) =>
      let (count, trie) := trie.eraseAll keys
      (count + 1, trie)
    | (none, trie) => trie.eraseAll keys

/-- Erases every entry that `selects` picks, and counts them. An entry that was picked is still
    that of its key when its turn comes, so that is not asked again. -/
def eraseWhere (trie : Trie α) (selects : Key → α → Bool) : Nat × Trie α :=
  trie.eraseAll ((trie.entries.filter fun entry => selects entry.key entry.value).map (·.key))

end Trie

end DnsResolver
