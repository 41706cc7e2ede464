import DnsResolver.Trie.Node

namespace DnsResolver.Trie

/-!
# Erasing from a trie

An erasure takes the entry out of its node and then goes back up the path. A node is sealed
while it is inspected: a place for children that holds none is dropped, and a node that is
left with nothing at all is unlinked from its parent, which is inspected next. Any other
node is put back into use, and the way up ends there.

Erasures and insertions follow one another here. What only matters to those that run at the
same time is left out, because it does nothing when there is one at a time: see `Node.erase?`
and `Node.place`.
-/

variable {α : Type}

namespace Node

/-- A node under inspection, without a place for children that holds none. -/
def inspect (node : Node α) : Node α :=
  match node.children with
  | some [] => { node with standing := .sealed, children := none }
  | _ => { node with standing := .sealed }

/-- A node back in use after its inspection. -/
def reopen (node : Node α) : Node α := { node with standing := .attached }

/-- What an inspection leaves of a node that hangs below another one. -/
def cleaned (node : Node α) : Option (Node α) :=
  let inspected := node.inspect
  if inspected.isVacant then none else some inspected.reopen

/-- What an erasure below leaves of a node: an unlinked child makes room and calls for an
    inspection, a child that stays is put back. -/
def afterErase (node : Node α) (slots : Slots (Node α)) (octet : UInt8) :
    Option (Node α) → Option (Node α)
  | none => { node with children := some (Slots.erase octet slots) }.cleaned
  | some child => some (node.withChild slots octet child)

/-- Takes the entry of a key out of the nodes on its path, and says what is left of the
    node. `rest` is the part of the key below the node.

    Three things are left out. The entry is not marked as removed, since nothing but a
    relocation in progress looks at the mark. The path below the node is not swept for a
    second copy of the entry, since only a relocation in progress leaves one.
    And the entry that was found is taken out without comparing its pointer with what the node
    holds by now, which is still that entry. -/
def erase? (key : Key) : Key → Node α → Option (Entry α × Option (Node α))
  | rest, node =>
    match node.entry.filter (·.key = key) with
    | some entry => some (entry, { node with entry := none }.cleaned)
    | none =>
      match rest, node.children with
      | octet :: rest, some slots =>
        match slots.lookup octet with
        | some child =>
          match child.erase? key rest with
          | some (entry, left) => some (entry, node.afterErase slots octet left)
          | none => none
        | none => none
      | _, _ => none

end Node

end DnsResolver.Trie
