namespace DnsResolver

/-!
# Nodes of a trie over octet strings

A node sits at the depth of its path from the root. Its entry either has a key that ends
here, or a longer key that is *parked*: it waits at the shallowest node of its path that
has no children yet. The children hang in slots, one for each octet, in ascending order.

* `Slots.lookup_set`, `Slots.lookup_erase` — what a change of one slot does to the others.
* `Node.isBare_eq` — a node is bare when there are no entries in it and below it.
-/

/-- The key of an entry. -/
abbrev Trie.Key := List UInt8

namespace Trie

/-- A value under its key. -/
structure Entry (α : Type) where
  key : Key
  value : α

/-- How a node stands in its trie. -/
inductive Standing where
  /-- Reachable and in use. -/
  | attached
  /-- Under inspection: nothing is written to it. -/
  | sealed
  /-- Unlinked for good. -/
  | detached
  deriving DecidableEq

/-- A node with everything below it. A node without children differs from one whose
    children are all gone. -/
structure Node (α : Type) where
  depth : Nat
  /-- The octet of the slot the node hangs in. -/
  octet : UInt8
  standing : Standing := .attached
  entry : Option (Entry α) := none
  children : Option (List (UInt8 × Node α)) := none

/-! ### Slots -/

/-- The children of a node by their octets. -/
abbrev Slots (β : Type) := List (UInt8 × β)

namespace Slots

variable {β : Type}

/-- Fills the slot of an octet. -/
def set (octet : UInt8) (value : β) : Slots β → Slots β
  | [] => [(octet, value)]
  | (other, old) :: rest =>
    if octet < other then (octet, value) :: (other, old) :: rest
    else if octet = other then (octet, value) :: rest
    else (other, old) :: set octet value rest

/-- Empties the slot of an octet. -/
def erase (octet : UInt8) (slots : Slots β) : Slots β :=
  slots.filter fun slot => slot.1 != octet

theorem lookup_set (octet other : UInt8) (value : β) (slots : Slots β) :
    (set octet value slots).lookup other
      = if other = octet then some value else slots.lookup other := by
  induction slots with
  | nil =>
    by_cases h : other = octet
    · simp [set, h]
    · have ne : (other == octet) = false := by simpa using h
      simp [set, List.lookup_cons, ne, h]
  | cons slot rest ih =>
    obtain ⟨c, old⟩ := slot
    by_cases h : other = octet
    · subst h
      by_cases lt : other < c
      · simp [set, lt]
      · by_cases eq : other = c
        · simp [set, eq]
        · have ne : (other == c) = false := by simpa using eq
          simp [set, lt, eq, List.lookup_cons, ne, ih]
    · have ne : (other == octet) = false := by simpa using h
      by_cases lt : octet < c
      · simp [set, lt, List.lookup_cons, ne, h]
      · by_cases eq : octet = c
        · subst eq
          simp [set, List.lookup_cons, ne, h]
        · simp only [set, lt, eq, if_false, List.lookup_cons]
          split <;> simp [ih, h]

theorem lookup_erase (octet other : UInt8) (slots : Slots β) :
    (erase octet slots).lookup other = if other = octet then none else slots.lookup other := by
  induction slots with
  | nil => simp [erase]
  | cons slot rest ih =>
    obtain ⟨c, old⟩ := slot
    simp only [erase] at ih ⊢
    by_cases eq : c = octet
    · subst eq
      by_cases h : other = c
      · simp [h] at ih ⊢
        exact ih
      · have ne : (other == c) = false := by simpa using h
        simp [List.lookup_cons, ne, h] at ih ⊢
        exact ih
    · by_cases h : other = c
      · subst h
        simp [eq]
      · have ne : (other == c) = false := by simpa using h
        simp [eq, List.lookup_cons, ne, ih]

end Slots

/-! ### Nodes -/

namespace Node

variable {α : Type}

/-- A node without anything in it, at the top of a trie. -/
def root : Node α := { depth := 0, octet := 0 }

/-- A node without children that hangs below another one and holds an entry. -/
def leaf (parent : Node α) (octet : UInt8) (entry : Entry α) : Node α :=
  { depth := parent.depth + 1, octet := octet, entry := some entry }

/-- Whether a node holds neither an entry nor a place for children. -/
def isVacant (node : Node α) : Bool := node.entry.isNone && node.children.isNone

/-- The node with a child in one slot. -/
def withChild (node : Node α) (slots : Slots (Node α)) (octet : UInt8) (child : Node α) : Node α :=
  { node with children := some (Slots.set octet child slots) }

mutual

/-- The entries of a node and of everything below it: a node before its children, and the
    child with the higher octet first. -/
def entries : Node α → List (Entry α)
  | ⟨_, _, _, entry, none⟩ => entry.toList
  | ⟨_, _, _, entry, some slots⟩ => entry.toList ++ slotEntries slots
termination_by structural node => node

/-- The entries below a node. -/
def slotEntries : List (UInt8 × Node α) → List (Entry α)
  | [] => []
  | slot :: rest => slotEntries rest ++ childEntries slot
termination_by structural slots => slots

/-- The entries of the child in a slot. -/
def childEntries : UInt8 × Node α → List (Entry α)
  | (_, child) => child.entries
termination_by structural slot => slot

end

mutual

/-- Whether there is no entry in a node or anywhere below it. -/
def isBare : Node α → Bool
  | ⟨_, _, _, entry, none⟩ => entry.isNone
  | ⟨_, _, _, entry, some slots⟩ => entry.isNone && slotsBare slots
termination_by structural node => node

/-- Whether there is no entry below a node. -/
def slotsBare : List (UInt8 × Node α) → Bool
  | [] => true
  | slot :: rest => childBare slot && slotsBare rest
termination_by structural slots => slots

/-- Whether there is no entry in the child in a slot. -/
def childBare : UInt8 × Node α → Bool
  | (_, child) => child.isBare
termination_by structural slot => slot

end

mutual

theorem isBare_eq : ∀ node : Node α, node.isBare = node.entries.isEmpty
  | ⟨_, _, _, entry, none⟩ => by cases entry <;> simp [isBare, entries]
  | ⟨_, _, _, entry, some slots⟩ => by
    cases entry <;> simp [isBare, entries, slotsBare_eq slots]
termination_by structural node => node

theorem slotsBare_eq :
    ∀ slots : List (UInt8 × Node α), slotsBare slots = (slotEntries slots).isEmpty
  | [] => by simp [slotsBare, slotEntries]
  | slot :: rest => by
    rw [slotsBare, slotEntries, childBare_eq slot, slotsBare_eq rest, Bool.and_comm]
    cases slotEntries rest <;> simp
termination_by structural slots => slots

theorem childBare_eq : ∀ slot : UInt8 × Node α, childBare slot = (childEntries slot).isEmpty
  | (_, child) => by simp [childBare, childEntries, isBare_eq child]
termination_by structural slot => slot

end

/-- The node at the end of a path of octets. -/
def at? : Key → Node α → Option (Node α)
  | [], node => some node
  | octet :: path, node =>
    match node.children with
    | some slots => (slots.lookup octet).bind (at? path)
    | none => none

/-- The entry of a key among the nodes on its path. `rest` is the part of the key below the
    node. -/
def find? (key : Key) : Key → Node α → Option (Entry α)
  | [], node => node.entry.filter (·.key = key)
  | octet :: rest, node =>
    match node.entry.filter (·.key = key) with
    | some entry => some entry
    | none =>
      match node.children with
      | some slots => (slots.lookup octet).bind (find? key rest)
      | none => none

end Node

end Trie

end DnsResolver
