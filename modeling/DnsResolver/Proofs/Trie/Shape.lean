import DnsResolver.Proofs.Trie.Map

namespace DnsResolver.Trie

/-!
# What a trie looks like after a run

The nodes of a trie on which operations were run, as one finds them by walking down from the
root, and what is left when the last key is gone.

* `Node.Valid.at?` — what is at the end of a path in a valid node is valid.
* `Node.Valid.at?_unique` — two nodes in a valid one do not hold the same key.
* `Shape`, `run_shape` — the shape of a trie, which every run of operations keeps.
-/

variable {α : Type}

namespace Node

variable {path rest below : Key} {node found held : Node α} {entry : Entry α}

/-! ### Walking down -/

theorem at?_cons (octet : UInt8) (rest : Key) (node : Node α) :
    node.at? (octet :: rest)
      = node.children.bind fun slots => (slots.lookup octet).bind (at? rest) := by
  rw [at?]
  cases node.children <;> rfl

theorem at?_append (path rest : Key) (node : Node α) :
    node.at? (path ++ rest) = (node.at? path).bind (at? rest) := by
  induction path generalizing node with
  | nil => rfl
  | cons octet path ih =>
    rw [List.cons_append, at?_cons, at?_cons]
    cases node.children with
    | none => rfl
    | some slots =>
      rw [Option.bind_some, Option.bind_some]
      cases slots.lookup octet with
      | none => rfl
      | some child => exact ih child

/-- The end of a path that leaves a node is in one of its slots, or below it. -/
theorem at?_cons_eq_some {octet : UInt8} (h : node.at? (octet :: rest) = some found) :
    ∃ slots child, node.children = some slots ∧ slots.lookup octet = some child
      ∧ child.at? rest = some found := by
  rw [at?_cons] at h
  obtain ⟨slots, hslots, hchild⟩ := Option.bind_eq_some_iff.mp h
  obtain ⟨child, hlookup, hfound⟩ := Option.bind_eq_some_iff.mp hchild
  exact ⟨slots, child, hslots, hlookup, hfound⟩

/-- What a lookup finds is held by a node on the way. -/
theorem at?_of_find? {key : Key} (h : node.find? key rest = some entry) :
    ∃ below held, node.at? below = some held ∧ held.entry = some entry := by
  induction rest generalizing node with
  | nil =>
    rw [find?_nil, Option.filter_eq_some_iff] at h
    exact ⟨[], node, rfl, h.1⟩
  | cons octet rest ih =>
    unfold find? at h
    split at h
    · next here hhere =>
      rw [Option.filter_eq_some_iff] at hhere
      exact ⟨[], node, rfl, hhere.1.trans h⟩
    · split at h
      · next slots hslots =>
        obtain ⟨child, hlookup, hchild⟩ := Option.bind_eq_some_iff.mp h
        obtain ⟨below, held, hat, hheld⟩ := ih hchild
        refine ⟨octet :: below, held, ?_, hheld⟩
        rw [at?_cons, hslots, Option.bind_some, hlookup, Option.bind_some, hat]
      · exact absurd h (by simp)

/-! ### Valid nodes -/

/-- What is at the end of a path in a valid node is valid there. -/
theorem Valid.at? (h : Valid path node) (hat : node.at? rest = some found) :
    Valid (path ++ rest) found := by
  induction rest generalizing path node with
  | nil =>
    obtain rfl : node = found := Option.some.inj hat
    rwa [List.append_nil]
  | cons octet rest ih =>
    obtain ⟨slots, child, hslots, hlookup, hfound⟩ := at?_cons_eq_some hat
    rw [List.append_cons]
    exact ih (h.slot hslots hlookup) hfound

/-- Below a valid node there are no empty ones. -/
theorem Valid.not_vacant (h : Valid path node) (hat : node.at? rest = some found)
    (hrest : rest ≠ []) : found.isVacant = false := by
  induction rest generalizing path node with
  | nil => exact absurd rfl hrest
  | cons octet rest ih =>
    obtain ⟨slots, child, hslots, hlookup, hfound⟩ := at?_cons_eq_some hat
    cases rest with
    | nil =>
      obtain rfl : child = found := Option.some.inj hfound
      exact h.fits.linked slots octet child hslots hlookup
    | cons => exact ih (h.slot hslots hlookup) hfound (List.cons_ne_nil _ _)

/-- A valid node that is not empty has a node with an entry in it or below it. -/
theorem Valid.exists_held (h : Valid path node) (hvacant : node.isVacant = false) :
    ∃ below held, node.at? below = some held ∧ held.entry ≠ none := by
  obtain ⟨entry, hentry⟩ := List.exists_mem_of_ne_nil _ (h.entries_ne_nil hvacant)
  obtain ⟨rest, _, hfind⟩ := h.mem_entries_iff.mp hentry
  obtain ⟨below, held, hat, hheld⟩ := at?_of_find? hfind
  exact ⟨below, held, hat, by rw [hheld]; exact Option.some_ne_none entry⟩

/-- The node at the end of a path keeps nodes below it from having its key. -/
private theorem Valid.at?_unique_below {path' : Key} {node' : Node α} {entry' : Entry α}
    (h : Valid [] node) (hfound : node.at? path = some found)
    (hfound' : node.at? path' = some node') (hentry : found.entry = some entry)
    (hentry' : node'.entry = some entry') (hkey : entry.key = entry'.key) (hpath : path <+: path') :
    path = path' := by
  obtain ⟨rest, rfl⟩ := hpath
  cases rest with
  | nil => exact (List.append_nil path).symm
  | cons octet rest =>
    have hvalid : Valid path found := h.at? hfound
    have hvalid' : Valid (path ++ octet :: rest) node' := h.at? hfound'
    rw [at?_append, hfound, Option.bind_some] at hfound'
    obtain ⟨slots, _, hslots, _⟩ := at?_cons_eq_some hfound'
    -- The upper node has children, so its key ends there; the lower one's is longer.
    have hunparked := hvalid.fits.unparked entry slots hentry hslots
    have hlength := (hvalid'.fits.under entry' hentry').length_le
    rw [← hkey, hunparked, List.length_append, List.length_cons] at hlength
    omega

/-- Two nodes in a valid one do not hold the same key. -/
theorem Valid.at?_unique {path' : Key} {node' : Node α} {entry' : Entry α} (h : Valid [] node)
    (hfound : node.at? path = some found) (hfound' : node.at? path' = some node')
    (hentry : found.entry = some entry) (hentry' : node'.entry = some entry')
    (hkey : entry.key = entry'.key) : path = path' := by
  -- Both paths are prefixes of the one key, so one of them goes on from the other.
  have hunder : path <+: entry'.key := hkey ▸ (h.at? hfound).fits.under entry hentry
  have hunder' : path' <+: entry'.key := (h.at? hfound').fits.under entry' hentry'
  rcases List.prefix_or_prefix_of_prefix hunder hunder' with hpath | hpath
  · exact h.at?_unique_below hfound hfound' hentry hentry' hkey hpath
  · exact (h.at?_unique_below hfound' hfound hentry' hentry hkey.symm hpath).symm

end Node

/-! ### Tries -/

/-- The shape of a trie. -/
structure Shape (trie : Trie α) : Prop where
  depth : ∀ path node, trie.root.at? path = some node → node.depth = path.length
  standing : ∀ path node, trie.root.at? path = some node → node.standing = .attached
  /-- A node below the root knows the slot it hangs in. -/
  octet : ∀ path octet node, trie.root.at? (path ++ [octet]) = some node → node.octet = octet
  under : ∀ path node entry, trie.root.at? path = some node → node.entry = some entry →
    path <+: entry.key
  /-- No key waits above a place for children for one that is further down. -/
  unparked : ∀ path node entry, trie.root.at? path = some node → node.entry = some entry →
    node.children ≠ none → entry.key.length ≤ path.length
  /-- There is an entry in every node below the root, or further down. -/
  linked : ∀ path node, trie.root.at? path = some node → path ≠ [] →
    ∃ below held, node.at? below = some held ∧ held.entry ≠ none
  /-- No key is there twice. -/
  unique : ∀ path path' node node' entry entry', trie.root.at? path = some node →
    trie.root.at? path' = some node' → node.entry = some entry → node'.entry = some entry' →
    entry.key = entry'.key → path = path'
  /-- Nothing is left of a trie without keys but its root. -/
  bare : (∀ key, trie.find? key = none) → trie.root.entry = none ∧ trie.root.children = none

/-- A trie with a valid root has the shape of one. -/
theorem Node.Valid.shape {trie : Trie α} (h : trie.root.Valid []) : Shape trie where
  depth path node hat := (h.at? hat).fits.depth
  standing path node hat := (h.at? hat).fits.standing
  octet path octet node hat := (h.at? hat).fits.octet octet (by simp)
  under path node entry hat hentry := (h.at? hat).fits.under entry hentry
  unparked path node entry hat hentry hchildren := by
    obtain ⟨slots, hslots⟩ := Option.ne_none_iff_exists'.mp hchildren
    have hkey : entry.key = path := (h.at? hat).fits.unparked entry slots hentry hslots
    exact Nat.le_of_eq (congrArg List.length hkey)
  linked path node hat hpath := (h.at? hat).exists_held (h.not_vacant hat hpath)
  unique path path' node node' entry entry' hat hat' hentry hentry' hkey :=
    h.at?_unique hat hat' hentry hentry' hkey
  bare hbare := by
    have hentries : trie.root.entries = [] := by
      refine List.eq_nil_iff_forall_not_mem.mpr fun entry hentry => ?_
      have hfind : trie.find? entry.key = some entry.value := (find?_eq_some_iff h).mpr hentry
      rw [hbare] at hfind
      exact absurd hfind (by simp)
    -- A root that is not empty would have an entry, and that would be found.
    have hvacant : trie.root.isVacant = true := by
      by_contra hvacant
      exact h.entries_ne_nil (by simpa using hvacant) hentries
    simpa [Node.isVacant] using hvacant

/-- **The shape of a trie.** A new trie has it, and whatever operations are run on it, it has
    it afterwards. -/
theorem run_shape [BEq α] (operations : List (Operation α)) :
    Shape (run Operation.onTrie operations Trie.empty).2 :=
  (Models.empty.run operations).2.valid.shape

end DnsResolver.Trie
