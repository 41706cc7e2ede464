import DnsResolver.Trie.Node

namespace DnsResolver.Trie

/-!
# Inserting into a trie

An insertion walks down the path of its key. What it meets at a node decides its next move.
A parked entry that stands in the way goes one level down, into a node of its own below it:
first the node gets a place for children, then the entry moves there, then the walk goes
on.
-/

variable {α : Type}

/-- What comes next for a key at a node. -/
inductive Move (α : Type) where
  /-- The entry of the key is here. -/
  | found (entry : Entry α)
  /-- Another key's entry is parked here although there are children. -/
  | relocate (parked : Entry α) (octet : UInt8) (slots : Slots (Node α))
  /-- Another key's entry is here, and there is no place for children yet. -/
  | allocate
  /-- The entry of the key belongs here. -/
  | settle
  /-- The entry of the key belongs below, under a child that exists. -/
  | descend (octet : UInt8) (child : Node α) (slots : Slots (Node α))
  /-- The entry of the key belongs below, in a child of its own. -/
  | branch (octet : UInt8) (slots : Slots (Node α))

/-- How an insertion ended. -/
inductive Outcome (α : Type) where
  /-- The entry was stored in place of the previous one. -/
  | stored (previous : Option (Entry α)) (current : Entry α)
  /-- Nothing was to be stored over what is present. -/
  | unchanged (present : Option (Entry α))
  /-- The walk was to start at a node that is no longer part of the trie. -/
  | abandoned
  /-- The entry was written into a node that is not in use. -/
  | lost
  /-- The walk did not end. -/
  | exhausted

namespace Node

/-- The move towards the child for an octet. -/
def toward (slots : Slots (Node α)) (octet : UInt8) : Move α :=
  match slots.lookup octet with
  | some child => .descend octet child slots
  | none => .branch octet slots

/-- The next move of an insertion at a node. -/
def move (key : Key) (node : Node α) : Move α :=
  match node.entry, node.children with
  | some entry, some slots =>
    if entry.key = key then .found entry
    else
      match entry.key[node.depth]?, key[node.depth]? with
      | some octet, _ => .relocate entry octet slots
      | none, some octet => toward slots octet
      | none, none => .allocate
  | some entry, none => if entry.key = key then .found entry else .allocate
  | none, some slots =>
    match key[node.depth]? with
    | some octet => toward slots octet
    | none => .settle
  | none, none => .settle

/-- The outcome of a write into a node: it counts only while the node is in use. -/
def kept (node : Node α) (previous : Option (Entry α)) (current : Entry α) : Outcome α :=
  if node.standing = .attached then .stored previous current else .lost

/-- Walks from a node towards the place of a key and stores there what `decide` makes of
    the present entry, making at most `moves` moves.

    A relocation is a walk of its own from the child on. It does not ask again whether that
    child is detached, since a child that was just found is linked to its node; and it does not
    sweep the path below for an entry that was erased on its way, since nothing is erased
    meanwhile. Pointers are not compared either: what a slot holds when it is written to is
    what it held when it was read. -/
def place (decide : Option (Entry α) → Option (Entry α)) (key : Key) :
    Nat → Node α → Node α × Outcome α
  | 0, node => (node, .exhausted)
  | moves + 1, node =>
    match node.move key with
    | .found present =>
      match decide (some present) with
      | some entry => ({ node with entry := some entry }, node.kept (some present) entry)
      | none => (node, .unchanged (some present))
    | .relocate parked octet slots =>
      match slots.lookup octet with
      | none =>
        let moved := node.withChild slots octet (node.leaf octet parked)
        place decide key moves { moved with entry := none }
      | some child =>
        match place (fun _ => some parked) parked.key moves child with
        | (child, .stored ..) =>
          place decide key moves { node.withChild slots octet child with entry := none }
        | _ => place decide key moves node
    | .allocate => place decide key moves { node with children := some (node.children.getD []) }
    | .settle =>
      match decide none with
      | some entry => ({ node with entry := some entry }, node.kept none entry)
      | none => (node, .unchanged none)
    | .descend octet child slots =>
      let (child, outcome) := place decide key moves child
      (node.withChild slots octet child, outcome)
    | .branch octet slots =>
      match decide none with
      | some entry =>
        (node.withChild slots octet (node.leaf octet entry), node.kept none entry)
      | none => (node, .unchanged none)

/-- The moves that suffice for a key: three at each depth of its path. -/
def enoughMoves (key : Key) : Nat := 3 * (key.length + 1)

/-- Inserts below a node that is part of the trie. -/
def insert (decide : Option (Entry α) → Option (Entry α)) (key : Key) (node : Node α) :
    Node α × Outcome α :=
  if node.standing = .detached then (node, .abandoned)
  else place decide key (enoughMoves key) node

end Node

end DnsResolver.Trie
