import DnsResolver.Proofs.Trie.Shape

namespace DnsResolver.Trie

/-!
# Insertions end

An insertion goes round a loop: at each turn it stores its entry, goes down to a child, or makes room
at the node where it is and looks again.  On a trie that came about by operations it ends, and it ends
at the first attempt.

* `Node.Walk` — the turns of an insertion, without a bound on their number, as long as no write is
  lost and nothing is to be started again.
* `Node.Walk.place` — with at least as many moves as there are turns, an insertion does what its turns
  do.
* `Node.Valid.ends` — in a valid node every insertion has such turns, three at most at each depth.
* `insert_ends` — insertions into any trie that operations have built.
-/

variable {α : Type}

/-- How an insertion ends that decides about what it found, if nothing is lost. -/
def Outcome.of (found : Option (Entry α)) : Option (Entry α) → Outcome α
  | some entry => .stored found entry
  | none => .unchanged found

namespace Node

variable {path rest key reached : Key} {node child left : Node α} {slots : Slots (Node α)}
  {octet : UInt8} {entry present : Entry α} {found decision : Option (Entry α)} {turns moves : Nat}
  {choice : Option (Entry α) → Option (Entry α)}

/-- The node with the entry that was decided on, if there is one. -/
def decided (decision : Option (Entry α)) (node : Node α) : Node α :=
  { node with entry := decision.or node.entry }

/-- The node with a new child for the entry that was decided on, if there is one. -/
def branched (decision : Option (Entry α)) (slots : Slots (Node α)) (octet : UInt8)
    (node : Node α) : Node α :=
  match decision with
  | some entry => node.withChild slots octet (node.leaf octet entry)
  | none => node

/-- The turns of an insertion from a node on: it decides once, about what it found, at the node that
    `reached` leads to.  There is no case for a write into a node that is not in use, after which an
    insertion would have to start again; and when an entry that is moved down meets a child there, its
    own insertion has to store it. -/
inductive Walk : Key → Option (Entry α) → Option (Entry α) → Nat → Node α → Key → Node α → Prop where
  /-- The entry of the key is here. -/
  | finds {key : Key} {present : Entry α} {decision : Option (Entry α)} {node : Node α}
      (move : node.move key = .found present) (attached : node.standing = .attached) :
      Walk key (some present) decision 1 node [] (node.decided decision)
  /-- The entry of the key belongs here. -/
  | settles {key : Key} {decision : Option (Entry α)} {node : Node α}
      (move : node.move key = .settle) (attached : node.standing = .attached) :
      Walk key none decision 1 node [] (node.decided decision)
  /-- The entry of the key belongs into a child of its own. -/
  | branches {key : Key} {decision : Option (Entry α)} {node : Node α} {octet : UInt8}
      {slots : Slots (Node α)} (move : node.move key = .branch octet slots)
      (attached : node.standing = .attached) :
      Walk key none decision 1 node [] (node.branched decision slots octet)
  /-- The node gets a place for children, and is looked at again. -/
  | allocates {key reached : Key} {found decision : Option (Entry α)} {turns : Nat}
      {node left : Node α} (move : node.move key = .allocate)
      (walk : Walk key found decision turns { node with children := some (node.children.getD []) }
        reached left) : Walk key found decision (turns + 1) node reached left
  /-- A parked entry goes into a child of its own, and the node is looked at again. -/
  | relocates {key reached : Key} {found decision : Option (Entry α)} {turns : Nat}
      {node left : Node α} {parked : Entry α} {octet : UInt8} {slots : Slots (Node α)}
      (move : node.move key = .relocate parked octet slots) (room : slots.lookup octet = none)
      (walk : Walk key found decision turns
        { node.withChild slots octet (node.leaf octet parked) with entry := none } reached left) :
      Walk key found decision (turns + 1) node reached left
  /-- A parked entry is inserted below a child, and the node is looked at again. -/
  | relocatesBelow {key reached below : Key} {found decision old : Option (Entry α)}
      {turns inner : Nat} {node left child moved : Node α} {parked : Entry α} {octet : UInt8}
      {slots : Slots (Node α)} (move : node.move key = .relocate parked octet slots)
      (there : slots.lookup octet = some child)
      (insertion : Walk parked.key old (some parked) inner child below moved)
      (walk : Walk key found decision turns { node.withChild slots octet moved with entry := none }
        reached left) : Walk key found decision (inner + turns + 1) node reached left
  /-- The insertion goes on in a child. -/
  | descends {key reached : Key} {found decision : Option (Entry α)} {turns : Nat}
      {node child left : Node α} {octet : UInt8} {slots : Slots (Node α)}
      (move : node.move key = .descend octet child slots)
      (walk : Walk key found decision turns child reached left) :
      Walk key found decision (turns + 1) node (octet :: reached) (node.withChild slots octet left)

@[simp] theorem decided_none (node : Node α) : node.decided none = node := by
  cases node
  rfl

theorem kept_of_attached (h : node.standing = .attached) (found : Option (Entry α))
    (entry : Entry α) : node.kept found entry = .stored found entry :=
  if_pos h

/-- **Turns and moves.** An insertion that may make as many moves as there are turns does what the
    turns do, and asks for its decision about what they found only. -/
theorem Walk.place (h : Walk key found decision turns node reached left)
    (hchoice : choice found = decision) (hmoves : turns ≤ moves) :
    Node.place choice key moves node = (left, .of found decision) := by
  induction h generalizing choice moves with
  | @finds key present decision node move attached =>
    obtain ⟨moves, rfl⟩ := Nat.exists_eq_add_of_le' hmoves
    rw [Node.place, move]
    cases decision with
    | none => simp only [hchoice, decided_none, Outcome.of]
    | some entry =>
      simp only [hchoice, kept_of_attached attached]
      rfl
  | @settles key decision node move attached =>
    obtain ⟨moves, rfl⟩ := Nat.exists_eq_add_of_le' hmoves
    rw [Node.place, move]
    cases decision with
    | none => simp only [hchoice, decided_none, Outcome.of]
    | some entry =>
      simp only [hchoice, kept_of_attached attached]
      rfl
  | @branches key decision node octet slots move attached =>
    obtain ⟨moves, rfl⟩ := Nat.exists_eq_add_of_le' hmoves
    rw [Node.place, move]
    simp only [hchoice, kept_of_attached attached]
    cases decision <;> rfl
  | allocates move walk ih =>
    obtain ⟨moves, rfl⟩ := Nat.exists_eq_add_of_le' (Nat.le_of_add_left_le hmoves)
    rw [Node.place, move]
    exact ih hchoice (by omega)
  | relocates move room walk ih =>
    obtain ⟨moves, rfl⟩ := Nat.exists_eq_add_of_le' (Nat.le_of_add_left_le hmoves)
    rw [Node.place, move]
    simp only [room]
    exact ih hchoice (by omega)
  | @relocatesBelow key reached below found decision old turns inner node left child moved parked octet
      slots move there insertion walk ihInsertion ih =>
    obtain ⟨moves, rfl⟩ := Nat.exists_eq_add_of_le' (Nat.le_of_add_left_le hmoves)
    have hmoved : Node.place (fun _ => some parked) parked.key moves child
        = (moved, .of old (some parked)) := ihInsertion rfl (by omega)
    rw [Node.place, move]
    simp only [there, hmoved, Outcome.of]
    exact ih hchoice (by omega)
  | @descends key reached found decision turns node child left octet slots move walk ih =>
    obtain ⟨moves, rfl⟩ := Nat.exists_eq_add_of_le' (Nat.le_of_add_left_le hmoves)
    have hchild : Node.place choice key moves child = (left, .of found decision) :=
      ih hchoice (by omega)
    rw [Node.place, move]
    simp only [hchild]

/-! ### Insertions into valid nodes -/

/-- An insertion from a node on ends within a number of turns, on the path of its key. -/
def Ends (key path rest : Key) (decision : Option (Entry α)) (limit : Nat) (node : Node α) : Prop :=
  ∃ turns reached left, Walk key (node.find? key rest) decision turns node reached left
    ∧ turns ≤ limit ∧ reached <+: rest
    ∧ ∃ last, left.at? reached = some last ∧ last.depth = (path ++ reached).length

/-- The entry of a key is found where it is. -/
theorem find?_of_entry (hentry : node.entry = some entry) (hkey : entry.key = key) (rest : Key) :
    node.find? key rest = some entry := by
  have hhere : node.entry.filter (·.key = key) = some entry := by
    rw [hentry, Option.filter_some, if_pos (by simpa using hkey)]
  cases rest with
  | nil => exact hhere
  | cons octet rest => rw [find?, hhere]

theorem depth_decided (decision : Option (Entry α)) (node : Node α) :
    (node.decided decision).depth = node.depth := rfl

theorem depth_branched (decision : Option (Entry α)) (slots : Slots (Node α)) (octet : UInt8)
    (node : Node α) : (node.branched decision slots octet).depth = node.depth := by
  unfold branched
  split <;> rfl

/-- An insertion that ends at the node where it is. -/
private theorem ends_here {limit : Nat} (h : Valid path node)
    (hwalk : Walk key (node.find? key rest) decision 1 node [] left)
    (hdepth : left.depth = node.depth) : Ends key path rest decision (limit + 1) node := by
  refine ⟨1, [], left, hwalk, Nat.le_add_left 1 limit, List.nil_prefix, left, rfl, ?_⟩
  rw [hdepth, h.fits.depth, List.append_nil]

/-- An insertion that goes on in a child. -/
private theorem ends_below {more : Key} {limit : Nat} (h : Valid path node)
    (hkey : key = path ++ octet :: more) (hslots : node.children = some slots)
    (hlookup : slots.lookup octet = some child)
    (hends : Ends key (path ++ [octet]) more decision limit child) :
    Ends key path (octet :: more) decision (limit + 1) node := by
  obtain ⟨turns, reached, left, hwalk, hturns, hreached, last, hat, hdepth⟩ := hends
  have hmove : node.move key = .descend octet child slots := by
    rw [hkey, move_toward h hslots, toward, hlookup]
  refine ⟨turns + 1, octet :: reached, node.withChild slots octet left, ?_, by omega,
    List.cons_prefix_cons.mpr ⟨rfl, hreached⟩, last, ?_, ?_⟩
  · rw [hkey, find?_slot h hslots, hlookup, Option.bind_some, ← hkey]
    exact .descends hmove hwalk
  · rw [at?_cons, withChild, Option.bind_some, Slots.lookup_set, if_pos rfl, Option.bind_some, hat]
  · rw [hdepth]
    simp

/-- What an insertion meets at a valid node where no other entry is parked: its own entry, room for
    it, a child to go on in, or an empty slot. -/
theorem Valid.move_cases (h : Valid path node) (hkey : key = path ++ rest)
    (hready : ∀ entry, node.entry = some entry → node.children = none → entry.key = key) :
    (∃ present, node.move key = .found present ∧ node.find? key rest = some present)
      ∨ (node.move key = .settle ∧ node.find? key rest = none)
      ∨ (∃ octet more slots child, rest = octet :: more ∧ node.children = some slots
          ∧ slots.lookup octet = some child)
      ∨ ∃ octet slots, node.move key = .branch octet slots ∧ node.find? key rest = none := by
  by_cases hmine : ∃ entry, node.entry = some entry ∧ entry.key = key
  · obtain ⟨present, hentry, hpresent⟩ := hmine
    exact Or.inl ⟨present, move_found hentry hpresent, find?_of_entry hentry hpresent rest⟩
  by_cases hroom : ∀ slots, node.children = some slots → rest = []
  · -- A valid node with room has no entry but its own, and that one was the first case.
    have hentry : node.entry = none := by
      by_contra hsome
      obtain ⟨entry, hentry⟩ := Option.ne_none_iff_exists'.mp hsome
      refine hmine ⟨entry, hentry, ?_⟩
      rcases Option.eq_none_or_eq_some node.children with hslots | ⟨slots, hslots⟩
      · exact hready entry hentry hslots
      · rw [h.fits.unparked entry slots hentry hslots, hkey, hroom slots hslots, List.append_nil]
    refine Or.inr (Or.inl ⟨hkey ▸ move_settle hentry h.fits.depth hroom, ?_⟩)
    rcases Option.eq_none_or_eq_some node.children with hslots | ⟨slots, hslots⟩
    · rw [find?_leaf _ _ hslots, hentry, Option.filter_none]
    · rw [hroom slots hslots, find?_nil, hentry, Option.filter_none]
  · obtain ⟨slots, hslots, hrest⟩ : ∃ slots, node.children = some slots ∧ rest ≠ [] := by
      simpa using hroom
    obtain ⟨octet, more, rfl⟩ := List.exists_cons_of_ne_nil hrest
    refine Or.inr (Or.inr ?_)
    cases hlookup : slots.lookup octet with
    | some child => exact Or.inl ⟨octet, more, slots, child, rfl, hslots, hlookup⟩
    | none =>
      refine Or.inr ⟨octet, slots, ?_, ?_⟩
      · rw [hkey, move_toward h hslots, toward, hlookup]
      · rw [hkey, find?_slot h hslots, hlookup, Option.bind_none]

/-- An insertion at a node where no other entry is parked. -/
private theorem ends_level {limit : Nat} (h : Valid path node) (hkey : key = path ++ rest)
    (hready : ∀ entry, node.entry = some entry → node.children = none → entry.key = key)
    (hbelow : ∀ octet more child, rest = octet :: more → Valid (path ++ [octet]) child →
      Ends key (path ++ [octet]) more decision limit child) :
    Ends key path rest decision (limit + 1) node := by
  have hattached := h.fits.standing
  rcases h.move_cases hkey hready with ⟨present, hmove, hfind⟩ | ⟨hmove, hfind⟩
    | ⟨octet, more, slots, child, rfl, hslots, hlookup⟩ | ⟨octet, slots, hmove, hfind⟩
  · exact ends_here h (hfind ▸ .finds hmove hattached) (depth_decided decision node)
  · exact ends_here h (hfind ▸ .settles hmove hattached) (depth_decided decision node)
  · exact ends_below h hkey hslots hlookup (hbelow octet more child rfl (h.slot hslots hlookup))
  · exact ends_here h (hfind ▸ .branches hmove hattached) (depth_branched decision slots octet node)

/-- An insertion into a node that was opened goes on from there, after at most two turns. -/
private theorem ends_opened {limit : Nat} (h : Valid path node) (hkey : key = path ++ rest)
    (hentry : node.entry = some entry) (hnone : node.children = none) (hne : entry.key ≠ key)
    (hends : Ends key path rest decision limit (node.opened entry)) :
    Ends key path rest decision (limit + 2) node := by
  obtain ⟨turns, reached, left, hwalk, hturns, hreached⟩ := hends
  have hfind : (node.opened entry).find? key rest = node.find? key rest := by
    rw [hkey]
    exact h.find?_opened hentry hnone rest
  rw [hfind] at hwalk
  have hallocate : node.move key = .allocate := by
    simp only [move, hentry, hnone, if_neg hne]
  have hroom : ({ node with children := some (node.children.getD []) } : Node α)
      = { node with children := some [] } := by
    rw [hnone, Option.getD_none]
  rcases opened_cases h hentry with ⟨_, hopened⟩ | ⟨octet, more, _, hnext, hopened⟩
  · refine ⟨turns + 1, reached, left, .allocates hallocate ?_, by omega, hreached⟩
    rwa [hroom, ← hopened]
  -- The second turn finds the entry above a place for children, and relocates it.
  · have hrelocate : ({ node with children := some [] } : Node α).move key
        = .relocate entry octet [] := by
      simp only [move, hentry, if_neg hne, hnext]
    refine ⟨turns + 1 + 1, reached, left, .allocates hallocate ?_, by omega, hreached⟩
    rw [hroom]
    refine .relocates hrelocate rfl ?_
    rwa [hopened] at hwalk

/-- An insertion at any node, when the insertions below its children are known. -/
private theorem ends_of_below {limit : Nat} (h : Valid path node) (hkey : key = path ++ rest)
    (hbelow : ∀ octet more child, rest = octet :: more → Valid (path ++ [octet]) child →
      Ends key (path ++ [octet]) more decision limit child) :
    Ends key path rest decision (limit + 3) node := by
  by_cases hready : ∀ entry, node.entry = some entry → node.children = none → entry.key = key
  · obtain ⟨turns, reached, left, hwalk, hturns, hreached⟩ := ends_level h hkey hready hbelow
    exact ⟨turns, reached, left, hwalk, by omega, hreached⟩
  · obtain ⟨entry, hentry, hnone, hne⟩ :
        ∃ entry, node.entry = some entry ∧ node.children = none ∧ entry.key ≠ key := by
      simpa using hready
    -- Nothing is parked in an opened node, for it has a place for children.
    refine ends_opened h hkey hentry hnone hne (ends_level (h.opened hentry) hkey ?_ hbelow)
    intro other hother hchildren
    rcases opened_cases h hentry with ⟨_, hopened⟩ | ⟨_, _, _, _, hopened⟩ <;>
      simp [hopened] at hchildren

/-- **Insertions into a valid node.** With three turns at each depth of its key at most, an insertion
    ends, whatever it decides.  The induction is on the part of the key below the node: only a turn
    that goes down makes it shorter, and at a node at most two turns come before that. -/
theorem Valid.ends (h : Valid path node) (hkey : key = path ++ rest)
    (decision : Option (Entry α)) : Ends key path rest decision (3 * rest.length + 3) node := by
  induction rest generalizing path node with
  | nil => exact ends_of_below h hkey fun _ _ _ hrest => absurd hrest (by simp)
  | cons octet more ih =>
    refine ends_of_below h hkey fun first rest child hrest hchild => ?_
    obtain ⟨rfl, rfl⟩ : octet = first ∧ more = rest := by simpa using hrest
    exact ih hchild (by rw [hkey]; simp)

end Node

/-! ### Insertions into tries -/

/-- **Insertions end.** On a trie that came about by any operations, an insertion under any key ends
    after at most three turns at each depth of its key, whatever its choice makes of what is there.
    It never starts again, so that its choice is asked once, and it has stored what was chosen or
    left what was there; more moves would not change that.  The node at which it ends is on the path
    of the key. -/
theorem insert_ends [BEq α] (operations : List (Operation α)) (key : Key)
    (choice : Option (Entry α) → Option (Entry α)) :
    let root := (run Operation.onTrie operations Trie.empty).2.root
    let found := root.find? key key
    ∃ turns reached left, Node.Walk key found (choice found) turns root reached left
      ∧ turns ≤ Node.enoughMoves key
      ∧ root.insert choice key = (left, .of found (choice found))
      ∧ (∀ moves, turns ≤ moves →
          Node.place choice key moves root = (left, .of found (choice found)))
      ∧ reached <+: key
      ∧ ∃ last, left.at? reached = some last ∧ last.depth = reached.length
        ∧ last.depth ≤ key.length := by
  intro root found
  have hvalid : root.Valid [] := (Models.empty.run operations).2.valid
  obtain ⟨turns, reached, left, hwalk, hturns, hreached, last, hat, hdepth⟩ :=
    hvalid.ends (List.nil_append key).symm (choice found)
  have hplace : ∀ moves, turns ≤ moves →
      Node.place choice key moves root = (left, .of found (choice found)) :=
    fun moves hmoves => hwalk.place rfl hmoves
  have henough : turns ≤ Node.enoughMoves key := by
    unfold Node.enoughMoves
    omega
  refine ⟨turns, reached, left, hwalk, henough, ?_, hplace, hreached, last, hat, ?_, ?_⟩
  · rw [Node.insert, if_neg (by rw [hvalid.fits.standing]; decide)]
    exact hplace _ henough
  · rw [hdepth, List.nil_append]
  · rw [hdepth, List.nil_append]
    exact hreached.length_le

end DnsResolver.Trie
