import DnsResolver.Proofs.Trie.Valid

namespace DnsResolver.Trie.Node

/-!
# What an insertion does

An insertion into a valid node leaves a valid node, changes what is found under its own key
only, and ends with the outcome that its decision about the present entry asks for.

* `Valid.withEntry`, `Valid.withChild` — the two changes that an insertion makes to a node.
* `Valid.opened` — moving a parked entry out of the way changes no lookup.
* `Placed` — what an insertion has done when it ends; `place_spec` shows it by induction on
  the rest of the key, with three moves at each depth.
-/

variable {α : Type} {path rest key : Key} {node child : Node α} {slots : Slots (Node α)}
  {octet : UInt8} {entry : Entry α}

/-! ### A new entry in a node -/

theorem Valid.withEntry (h : Valid path node) (hkey : entry.key = path ++ rest)
    (hroom : ∀ slots, node.children = some slots → rest = []) :
    Valid path { node with entry := some entry } := by
  refine .intro { h.fits with under := ?_, unparked := ?_, occupied := ?_ } ?_
  · intro other hother
    obtain rfl : entry = other := Option.some.inj hother
    exact ⟨rest, hkey.symm⟩
  · intro other slots hother hslots
    obtain rfl : entry = other := Option.some.inj hother
    rw [hkey, hroom slots hslots, List.append_nil]
  · intro _ hnone
    exact absurd hnone (by simp)
  · intro slots octet child hslots hchild
    exact h.slot hslots hchild

/-- The new entry is found under its key, and what was found under other keys still is. -/
theorem Valid.find?_withEntry (h : Valid path node) (hkey : entry.key = path ++ rest)
    (hroom : ∀ slots, node.children = some slots → rest = [])
    (hold : ∀ old, node.entry = some old → old.key = path ++ rest) (other : Key) :
    find? (path ++ other) other { node with entry := some entry }
      = if other = rest then some entry else node.find? (path ++ other) other := by
  have hnew := h.withEntry hkey hroom
  have hfilter : (some entry).filter (fun e : Entry α => decide (e.key = path ++ other))
      = if other = rest then some entry else none := by
    rw [Option.filter_some, hkey]
    by_cases hother : other = rest
    · simp [hother]
    · simp [hother, Ne.symm hother]
  have hfilterOld : other ≠ rest →
      node.entry.filter (fun e : Entry α => decide (e.key = path ++ other)) = none := by
    intro hother
    cases hentry : node.entry with
    | none => rfl
    | some old => simp [hold old hentry, Ne.symm hother]
  -- Without children both lookups look at the entry only; with them, at the entry or below.
  rcases Option.eq_none_or_eq_some node.children with hslots | ⟨slots, hslots⟩
  · rw [find?_leaf _ _ hslots, find?_leaf _ _ (show Node.children { node with entry := _ } = none
      from hslots), hfilter]
    by_cases hother : other = rest
    · rw [if_pos hother, if_pos hother]
    · rw [if_neg hother, if_neg hother, hfilterOld hother]
  · obtain rfl := hroom slots hslots
    cases other with
    | nil => rw [find?_nil, hfilter, if_pos rfl, if_pos rfl]
    | cons octet other => rw [if_neg (by simp), find?_slot h hslots, find?_slot hnew hslots]

/-! ### A new child below a node -/

theorem Valid.withChild (h : Valid path node) (hslots : node.children = some slots)
    (hchild : Valid (path ++ [octet]) child) (hfull : child.isVacant = false) :
    Valid path (node.withChild slots octet child) := by
  -- Whatever hangs in a slot now is the new child or hung there before.
  have hlookup : ∀ other found, (Slots.set octet child slots).lookup other = some found →
      Valid (path ++ [other]) found ∧ found.isVacant = false := by
    intro other found hfound
    rw [Slots.lookup_set] at hfound
    by_cases hother : other = octet
    · rw [if_pos hother, Option.some.injEq] at hfound
      subst hother hfound
      exact ⟨hchild, hfull⟩
    · rw [if_neg hother] at hfound
      exact ⟨h.slot hslots hfound, h.fits.linked _ _ _ hslots hfound⟩
  refine .intro { h.fits with unparked := ?_, occupied := ?_, ordered := ?_, linked := ?_ } ?_
  · intro entry _ hentry _
    exact h.fits.unparked entry slots hentry hslots
  · intro hnil
    exact absurd (Option.some.inj hnil) (Slots.set_ne_nil _ _ _)
  · intro slots' hslots'
    obtain rfl := Option.some.inj hslots'
    exact (h.fits.ordered slots hslots).set octet child
  · intro slots' other found hslots' hfound
    obtain rfl := Option.some.inj hslots'
    exact (hlookup other found hfound).2
  · intro slots' other found hslots' hfound
    obtain rfl := Option.some.inj hslots'
    exact (hlookup other found hfound).1

/-- Keys that go on with the octet of the new child are looked up in it, all others as before. -/
theorem Valid.find?_withChild (h : Valid path node) (hslots : node.children = some slots)
    (hchild : Valid (path ++ [octet]) child) (hfull : child.isVacant = false) (other : Key) :
    (node.withChild slots octet child).find? (path ++ other) other
      = match other with
        | [] => node.find? (path ++ other) other
        | first :: more =>
          if first = octet then child.find? (path ++ other) more
          else node.find? (path ++ other) other := by
  cases other with
  | nil => rfl
  | cons first more =>
    have hset : (node.withChild slots octet child).children = some (Slots.set octet child slots) :=
      rfl
    rw [find?_slot (h.withChild hslots hchild hfull) hset, find?_slot h hslots, Slots.lookup_set]
    by_cases hfirst : first = octet
    · simp [hfirst]
    · simp [hfirst]

/-! ### Moving a parked entry out of the way -/

/-- A node that got a place for children, with its entry moved there if the key of the entry
    goes on. -/
def opened (node : Node α) (entry : Entry α) : Node α :=
  match entry.key[node.depth]? with
  | some octet =>
    { node with entry := none, children := some [(octet, node.leaf octet entry)] }
  | none => { node with children := some [] }

/-- The two ways to open a node: its entry stays because its key ends here, or the entry goes
    one octet down. -/
theorem opened_cases (h : Valid path node) (hentry : node.entry = some entry) :
    (entry.key = path ∧ node.opened entry = { node with children := some [] })
      ∨ ∃ octet more, entry.key = path ++ octet :: more
        ∧ entry.key[node.depth]? = some octet
        ∧ node.opened entry
          = { node with entry := none, children := some [(octet, node.leaf octet entry)] } := by
  obtain ⟨rest, hkey⟩ := h.fits.under entry hentry
  cases rest with
  | nil =>
    have hend : entry.key[node.depth]? = none := by
      rw [← hkey, h.fits.depth, List.append_nil, List.getElem?_eq_none (Nat.le_refl _)]
    exact Or.inl ⟨by rw [← hkey, List.append_nil], by rw [opened, hend]⟩
  | cons octet more =>
    have hnext : entry.key[node.depth]? = some octet := by
      rw [← hkey, h.fits.depth, List.getElem?_append_right (Nat.le_refl _)]
      simp
    exact Or.inr ⟨octet, more, hkey.symm, hnext, by rw [opened, hnext]⟩

theorem Valid.opened (h : Valid path node) (hentry : node.entry = some entry) :
    Valid path (node.opened entry) := by
  rcases opened_cases h hentry with ⟨hkey, hopened⟩ | ⟨octet, more, hkey, _, hopened⟩
  -- The entry stays, and nothing hangs in the new place for children yet.
  · rw [hopened]
    refine .intro { h.fits with
      unparked := ?_, occupied := ?_, ordered := ?_, linked := ?_ } ?_
    · intro other slots hother _
      obtain rfl : entry = other := Option.some.inj (hentry.symm.trans hother)
      exact hkey
    · exact fun _ => by simp [hentry]
    · intro slots hslots
      obtain rfl := Option.some.inj hslots
      exact Slots.ordered_nil
    all_goals
      intro slots octet child hslots hchild
      obtain rfl := Option.some.inj hslots
      exact absurd hchild (by simp)
  -- The entry went into a node of its own, which is the only child.
  · have hleaf : ∀ other child, [(octet, node.leaf octet entry)].lookup other = some child →
        other = octet ∧ child = node.leaf octet entry := by
      intro other child hchild
      have hmem := (Slots.Ordered.lookup_eq_some_iff (List.pairwise_singleton _ _)).mp hchild
      simpa using hmem
    rw [hopened]
    refine .intro { h.fits with
      under := ?_, unparked := ?_, occupied := ?_, ordered := ?_, linked := ?_ } ?_
    · exact fun _ hnone => absurd hnone (by simp)
    · exact fun _ _ hnone => absurd hnone (by simp)
    · exact fun hnil => absurd hnil (by simp)
    · intro slots hslots
      obtain rfl := Option.some.inj hslots
      exact List.pairwise_singleton _ _
    · intro slots other child hslots hchild
      obtain rfl := Option.some.inj hslots
      rw [(hleaf other child hchild).2, isVacant_leaf]
    · intro slots other child hslots hchild
      obtain rfl := Option.some.inj hslots
      obtain ⟨rfl, rfl⟩ := hleaf other child hchild
      exact valid_leaf h.fits.depth hkey

theorem Valid.find?_opened (h : Valid path node) (hentry : node.entry = some entry)
    (hnone : node.children = none) (other : Key) :
    (node.opened entry).find? (path ++ other) other = node.find? (path ++ other) other := by
  have hvalid := h.opened hentry
  rw [find?_leaf _ _ hnone, hentry, Option.filter_some]
  rcases opened_cases h hentry with ⟨hkey, hopened⟩ | ⟨octet, more, hkey, _, hopened⟩
  · rw [hopened] at hvalid ⊢
    cases other with
    | nil => rw [find?_nil, hentry, Option.filter_some]
    | cons first other =>
      rw [find?_slot hvalid rfl]
      simp [hkey]
  · rw [hopened] at hvalid ⊢
    cases other with
    | nil => simp [find?_nil, hkey]
    | cons first other =>
      rw [find?_slot hvalid rfl]
      -- Under another octet there is neither the entry nor any child.
      by_cases hfirst : first = octet
      · subst hfirst
        rw [show [(first, node.leaf first entry)].lookup first = some (node.leaf first entry) by simp,
          Option.bind_some, find?_leaf _ _ rfl]
        rfl
      · have hne : (first == octet) = false := by simpa using hfirst
        simp [List.lookup_cons, hne, hkey, Ne.symm hfirst]

/-! ### One level of an insertion -/

variable {choice : Option (Entry α) → Option (Entry α)} {moves : Nat}

/-- Another entry that is parked at a node is moved away in at most two moves. -/
theorem place_opened (h : Valid path node) (hentry : node.entry = some entry)
    (hnone : node.children = none) (hne : entry.key ≠ key) (hmoves : 2 ≤ moves) :
    ∃ left, moves ≤ left + 2 ∧ place choice key moves node = place choice key left (node.opened entry) := by
  obtain ⟨left, rfl⟩ : ∃ left, moves = left + 2 := ⟨moves - 2, by omega⟩
  have hallocate : node.move key = .allocate := by
    simp only [move, hentry, hnone, if_neg hne]
  have hfirst : place choice key (left + 2) node
      = place choice key (left + 1) { node with children := some [] } := by
    rw [place, hallocate]
    simp only [hnone, Option.getD_none]
  rcases opened_cases h hentry with ⟨_, hopened⟩ | ⟨octet, more, _, hnext, hopened⟩
  · exact ⟨left + 1, by omega, by rw [hfirst, hopened]⟩
  -- The second move finds the entry above a place for children, and relocates it.
  · have hrelocate : ({ node with children := some [] } : Node α).move key
        = .relocate entry octet [] := by
      simp only [move, hentry, if_neg hne, hnext]
    refine ⟨left, by omega, ?_⟩
    rw [hfirst, place, hrelocate, hopened]
    rfl

/-- The entry of the key is found where it is. -/
theorem move_found (hentry : node.entry = some entry) (hkey : entry.key = key) :
    node.move key = .found entry := by
  unfold move
  rw [hentry]
  cases node.children <;> simp [hkey]

/-- A key ends at a node, or the node has nothing below it: the entry belongs there. -/
theorem move_settle (hentry : node.entry = none) (hdepth : node.depth = path.length)
    (hroom : ∀ slots, node.children = some slots → rest = []) :
    node.move (path ++ rest) = .settle := by
  unfold move
  rcases Option.eq_none_or_eq_some node.children with hslots | ⟨slots, hslots⟩
  · rw [hentry, hslots]
  · rw [hentry, hslots, hroom slots hslots, hdepth, List.append_nil,
      List.getElem?_eq_none (Nat.le_refl _)]

/-- A longer key goes on among the children. -/
theorem move_toward (h : Valid path node) (hslots : node.children = some slots) :
    node.move (path ++ octet :: rest) = toward slots octet := by
  have hnext : (path ++ octet :: rest)[node.depth]? = some octet := by
    rw [h.fits.depth, List.getElem?_append_right (Nat.le_refl _)]
    simp
  unfold move
  rcases Option.eq_none_or_eq_some node.entry with hentry | ⟨entry, hentry⟩
  · simp only [hentry, hslots, hnext]
  -- An entry above children has the path as its key, so it does not stand in the way.
  · have hkey := h.fits.unparked entry slots hentry hslots
    have hend : path[node.depth]? = none := by
      rw [h.fits.depth, List.getElem?_eq_none (Nat.le_refl _)]
    simp only [hentry, hslots, hkey, hnext, hend]
    rw [if_neg (by simp)]

/-! ### Whole insertions -/

/-- What an insertion below a node has done when it ends: `rest` is the part of its key below
    the node, and `found` what was there. -/
structure Placed (choice : Option (Entry α) → Option (Entry α)) (path rest : Key) (node : Node α)
    (result : Node α × Outcome α) : Prop where
  valid : Valid path result.1
  full : node.isVacant = false → result.1.isVacant = false
  others : ∀ other, other ≠ rest →
    result.1.find? (path ++ other) other = node.find? (path ++ other) other
  here : result.1.find? (path ++ rest) rest
    = (choice (node.find? (path ++ rest) rest)).or (node.find? (path ++ rest) rest)
  outcome : result.2 = match choice (node.find? (path ++ rest) rest) with
    | some entry => .stored (node.find? (path ++ rest) rest) entry
    | none => .unchanged (node.find? (path ++ rest) rest)

/-- An insertion that decides to store nothing leaves everything as it is. -/
theorem Placed.unchanged {found : Option (Entry α)} (h : Valid path node)
    (hfound : node.find? (path ++ rest) rest = found) (hchoice : choice found = none) :
    Placed choice path rest node (node, .unchanged found) := by
  subst hfound
  exact ⟨h, id, fun _ _ => rfl, by rw [hchoice, Option.none_or], by rw [hchoice]⟩

/-- Storing an entry in a node in place of what was found there. -/
theorem Placed.stored {found : Option (Entry α)} (h : Valid path node)
    (hkey : entry.key = path ++ rest) (hroom : ∀ slots, node.children = some slots → rest = [])
    (hold : node.entry = found) (hsame : ∀ old, found = some old → old.key = path ++ rest)
    (hchoice : choice found = some entry) :
    Placed choice path rest node ({ node with entry := some entry }, node.kept found entry) := by
  have hfound : node.find? (path ++ rest) rest = found := by
    have hfilter : node.entry.filter (fun e : Entry α => decide (e.key = path ++ rest))
        = found := by
      rw [hold]
      cases found with
      | none => rfl
      | some old => rw [Option.filter_some, if_pos (by simp [hsame old rfl])]
    rcases Option.eq_none_or_eq_some node.children with hslots | ⟨slots, hslots⟩
    · rw [find?_leaf _ _ hslots, hfilter]
    · rw [hroom slots hslots] at hfilter ⊢
      rw [find?_nil, hfilter]
  have hfind := h.find?_withEntry hkey hroom (by rw [hold]; exact hsame)
  refine ⟨h.withEntry hkey hroom, fun _ => rfl, ?_, ?_, ?_⟩
  · intro other hother
    rw [hfind, if_neg hother]
  · rw [hfind, if_pos rfl, hfound, hchoice, Option.some_or]
  · rw [hfound, hchoice, kept, if_pos h.fits.standing]

/-- Storing an entry in a new node below a node. -/
theorem Placed.branched {more : Key} (h : Valid path node) (hslots : node.children = some slots)
    (hlookup : slots.lookup octet = none) (hkey : entry.key = path ++ octet :: more)
    (hchoice : choice none = some entry) :
    Placed choice path (octet :: more) node
      (node.withChild slots octet (node.leaf octet entry), node.kept none entry) := by
  have hleaf := valid_leaf h.fits.depth hkey
  have hfull := isVacant_leaf node octet entry
  have hfind := h.find?_withChild hslots hleaf hfull
  have hnone : ∀ other, node.find? (path ++ octet :: other) (octet :: other) = none := by
    intro other
    rw [find?_slot h hslots, hlookup, Option.bind_none]
  have hentry : ∀ other, (node.leaf octet entry).find? (path ++ octet :: other) other
      = if other = more then some entry else none := by
    intro other
    rw [find?_leaf _ _ rfl, leaf, Option.filter_some, hkey]
    by_cases hother : other = more
    · simp [hother]
    · simp [hother, Ne.symm hother]
  refine ⟨h.withChild hslots hleaf hfull, fun _ => by simp [isVacant, withChild], ?_, ?_, ?_⟩
  · intro other hother
    rw [hfind]
    cases other with
    | nil => rfl
    | cons first other =>
      by_cases hfirst : first = octet
      · subst hfirst
        simp only [if_true]
        rw [hentry, hnone, if_neg (by simpa using hother)]
      · simp only [if_neg hfirst]
  · rw [hfind, hnone, hchoice]
    simp only [if_true]
    rw [hentry, if_pos rfl, Option.some_or]
  · rw [hnone, hchoice, kept, if_pos h.fits.standing]

/-- An insertion below a child is one below its parent. -/
theorem Placed.descended {more : Key} {result : Node α × Outcome α} (h : Valid path node)
    (hslots : node.children = some slots) (hlookup : slots.lookup octet = some child)
    (hplaced : Placed choice (path ++ [octet]) more child result) :
    Placed choice path (octet :: more) node (node.withChild slots octet result.1, result.2) := by
  -- The child was not empty before, so it may hang in its slot afterwards.
  have hfull := hplaced.full (h.fits.linked _ _ _ hslots hlookup)
  have hfind := h.find?_withChild hslots hplaced.valid hfull
  have hbelow : ∀ other, node.find? (path ++ octet :: other) (octet :: other)
      = child.find? (path ++ octet :: other) other := by
    intro other
    rw [find?_slot h hslots, hlookup, Option.bind_some]
  have hpath : ∀ other, path ++ [octet] ++ other = path ++ octet :: other := by simp
  have hothers := hplaced.others
  have hhere := hplaced.here
  have houtcome := hplaced.outcome
  simp only [hpath] at hothers hhere houtcome
  refine ⟨h.withChild hslots hplaced.valid hfull, fun _ => by simp [isVacant, withChild], ?_, ?_, ?_⟩
  · intro other hother
    rw [hfind]
    cases other with
    | nil => rfl
    | cons first other =>
      by_cases hfirst : first = octet
      · subst hfirst
        simp only [if_true]
        rw [hothers other (by simpa using hother), hbelow]
      · simp only [if_neg hfirst]
  · rw [hfind, hbelow]
    simpa only [if_true] using hhere
  · rw [hbelow]
    exact houtcome

/-- An insertion into an opened node is one into the node. -/
theorem Placed.of_opened {result : Node α × Outcome α} (h : Valid path node)
    (hentry : node.entry = some entry) (hnone : node.children = none)
    (hplaced : Placed choice path rest (node.opened entry) result) :
    Placed choice path rest node result := by
  have hfind := h.find?_opened hentry hnone
  have hfull : (node.opened entry).isVacant = false := by
    rcases opened_cases h hentry with ⟨_, hopened⟩ | ⟨_, _, _, _, hopened⟩ <;>
      simp [hopened, isVacant]
  refine ⟨hplaced.valid, fun _ => hplaced.full hfull, ?_, ?_, ?_⟩
  · intro other hother
    rw [hplaced.others other hother, hfind]
  · rw [hplaced.here, hfind]
  · rw [hplaced.outcome, hfind]

/-- An entry of the key itself is in the node: the insertion decides about that entry. -/
private theorem place_at_found
    (hkeys : ∀ found entry, choice found = some entry → entry.key = path ++ rest)
    (h : Valid path node) {present : Entry α} (hentry : node.entry = some present)
    (hpresent : present.key = path ++ rest) :
    Placed choice path rest node (place choice (path ++ rest) (moves + 1) node) := by
  have hroom : ∀ slots, node.children = some slots → rest = [] := by
    intro slots hslots
    rw [h.fits.unparked present slots hentry hslots] at hpresent
    simpa using hpresent
  have hmem : present ∈ node.entries := by
    rcases Option.eq_none_or_eq_some node.children with hslots | ⟨slots, hslots⟩
    · simp [entries_leaf hslots, hentry]
    · simp [entries_slots hslots, hentry]
  -- A lookup finds whatever entry there is, so it finds this one.
  have hfound : node.find? (path ++ rest) rest = some present := by
    obtain ⟨rest', hrest', hfind⟩ := h.mem_entries_iff.mp hmem
    obtain rfl : rest = rest' := by simpa using hpresent.symm.trans hrest'
    rwa [hpresent] at hfind
  rw [place, move_found hentry hpresent]
  cases hchoice : choice (some present) with
  | none => simpa only [hchoice] using Placed.unchanged h hfound hchoice
  | some entry =>
    simpa only [hchoice] using
      Placed.stored h (hkeys _ _ hchoice) hroom hentry (by simpa using hpresent) hchoice

/-- The node has no entry and is where the key ends or may be parked. -/
private theorem place_at_settle
    (hkeys : ∀ found entry, choice found = some entry → entry.key = path ++ rest)
    (h : Valid path node) (hentry : node.entry = none)
    (hroom : ∀ slots, node.children = some slots → rest = []) :
    Placed choice path rest node (place choice (path ++ rest) (moves + 1) node) := by
  have hfound : node.find? (path ++ rest) rest = none := by
    rcases Option.eq_none_or_eq_some node.children with hslots | ⟨slots, hslots⟩
    · rw [find?_leaf _ _ hslots, hentry, Option.filter_none]
    · rw [hroom slots hslots, find?_nil, hentry, Option.filter_none]
  rw [place, move_settle hentry h.fits.depth hroom]
  cases hchoice : choice none with
  | none => simpa only [hchoice] using Placed.unchanged h hfound hchoice
  | some entry =>
    simpa only [hchoice] using
      Placed.stored h (hkeys _ _ hchoice) hroom hentry (by simp) hchoice

/-- The key goes on below a node with children: into the child of its next octet, or into a new
    one if there is none. -/
private theorem place_at_children {more : Key}
    (hkeys : ∀ found entry, choice found = some entry → entry.key = path ++ octet :: more)
    (hbelow : ∀ child, Valid (path ++ [octet]) child →
      Placed choice (path ++ [octet]) more child (place choice (path ++ octet :: more) moves child))
    (h : Valid path node) (hslots : node.children = some slots) :
    Placed choice path (octet :: more) node
      (place choice (path ++ octet :: more) (moves + 1) node) := by
  rw [place, move_toward h hslots, toward]
  cases hlookup : slots.lookup octet with
  | some child => exact (hbelow child (h.slot hslots hlookup)).descended h hslots hlookup
  | none =>
    have hfound : node.find? (path ++ octet :: more) (octet :: more) = none := by
      rw [find?_slot h hslots, hlookup, Option.bind_none]
    cases hchoice : choice none with
    | none => simpa only [hchoice] using Placed.unchanged h hfound hchoice
    | some entry =>
      simpa only [hchoice] using Placed.branched h hslots hlookup (hkeys _ _ hchoice) hchoice

/-- An insertion at a node where no other entry is parked. -/
private theorem place_level (hkeys : ∀ found entry, choice found = some entry → entry.key = key)
    (hbelow : ∀ octet more child, rest = octet :: more → Valid (path ++ [octet]) child →
      Placed choice (path ++ [octet]) more child (place choice key moves child))
    (h : Valid path node) (hkey : key = path ++ rest)
    (hready : ∀ entry, node.entry = some entry → node.children = none → entry.key = key) :
    Placed choice path rest node (place choice key (moves + 1) node) := by
  subst hkey
  by_cases hmine : ∃ entry, node.entry = some entry ∧ entry.key = path ++ rest
  · obtain ⟨present, hentry, hpresent⟩ := hmine
    exact place_at_found hkeys h hentry hpresent
  by_cases hroom : ∀ slots, node.children = some slots → rest = []
  -- A valid node with room has no entry but its own, and that one was the first case.
  · have hentry : node.entry = none := by
      by_contra hsome
      obtain ⟨entry, hentry⟩ := Option.ne_none_iff_exists'.mp hsome
      refine hmine ⟨entry, hentry, ?_⟩
      rcases Option.eq_none_or_eq_some node.children with hslots | ⟨slots, hslots⟩
      · exact hready entry hentry hslots
      · rw [h.fits.unparked entry slots hentry hslots, hroom slots hslots, List.append_nil]
    exact place_at_settle hkeys h hentry hroom
  · obtain ⟨slots, hslots, hrest⟩ : ∃ slots, node.children = some slots ∧ rest ≠ [] := by
      simpa using hroom
    obtain ⟨octet, more, rfl⟩ := List.exists_cons_of_ne_nil hrest
    exact place_at_children hkeys (fun child hchild => hbelow octet more child rfl hchild) h hslots

/-- An insertion at any node, when the insertions below its children are known. -/
private theorem place_of_below
    (hkeys : ∀ found entry, choice found = some entry → entry.key = key)
    (hbelow : ∀ octet more child moves, rest = octet :: more → 3 * more.length + 3 ≤ moves →
      Valid (path ++ [octet]) child →
      Placed choice (path ++ [octet]) more child (place choice key moves child))
    (h : Valid path node) (hkey : key = path ++ rest) (hmoves : 3 * rest.length + 3 ≤ moves) :
    Placed choice path rest node (place choice key moves node) := by
  have hlevel : ∀ (target : Node α) left, Valid path target → 3 * rest.length + 1 ≤ left →
      (∀ entry, target.entry = some entry → target.children = none → entry.key = key) →
      Placed choice path rest target (place choice key left target) := by
    intro target left htarget hleft hready
    obtain ⟨left, rfl⟩ : ∃ n, left = n + 1 := ⟨left - 1, by omega⟩
    refine place_level hkeys (fun octet more child hrest hchild => ?_) htarget hkey hready
    refine hbelow octet more child left hrest ?_ hchild
    rw [hrest, List.length_cons] at hleft
    omega
  -- Either nothing is parked in the way, or the node is opened first.
  by_cases hready : ∀ entry, node.entry = some entry → node.children = none → entry.key = key
  · exact hlevel node moves h (by omega) hready
  · obtain ⟨entry, hentry, hnone, hne⟩ :
        ∃ entry, node.entry = some entry ∧ node.children = none ∧ entry.key ≠ key := by
      simpa using hready
    obtain ⟨left, hleft, hplace⟩ : ∃ left, moves ≤ left + 2
        ∧ place choice key moves node = place choice key left (node.opened entry) :=
      place_opened h hentry hnone hne (by omega)
    -- Nothing is parked in an opened node, for it has a place for children.
    rw [hplace]
    refine (hlevel _ left (h.opened hentry) (by omega) ?_).of_opened h hentry hnone
    intro other hother hchildren
    rcases opened_cases h hentry with ⟨_, hopened⟩ | ⟨_, _, _, _, hopened⟩ <;>
      simp [hopened] at hchildren

/-- **Insertion.** With three moves for each depth of the key, an insertion below a valid node
    ends, and has done what its choice asks for.  The induction is on the part of the key below
    the node: at each depth a parked entry is moved away first if need be. -/
theorem place_spec (hkeys : ∀ found entry, choice found = some entry → entry.key = key)
    (h : Valid path node) (hkey : key = path ++ rest) (hmoves : 3 * rest.length + 3 ≤ moves) :
    Placed choice path rest node (place choice key moves node) := by
  induction rest generalizing path node moves with
  | nil => exact place_of_below hkeys (fun _ _ _ _ hrest => absurd hrest (by simp)) h hkey hmoves
  | cons octet more ih =>
    refine place_of_below hkeys (fun first rest child left hrest hleft hchild => ?_) h hkey hmoves
    obtain ⟨rfl, rfl⟩ : octet = first ∧ more = rest := by simpa using hrest
    exact ih hchild (by rw [hkey]; simp) hleft

end DnsResolver.Trie.Node
