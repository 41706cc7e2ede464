import DnsResolver.Trie.Basic
import Mathlib.Data.List.Basic

namespace DnsResolver.Trie

/-!
# The shape of a trie

What a node looks like at the end of its path, when nobody is at work on it, and what its
lookups mean then.

* `Node.Fits` — the facts about one node: depth, octet and standing, and whose entry it may hold.
* `Node.Valid` — a node fits its path, and so does everything below it.
* `Node.find?_slot`, `Node.find?_leaf` — a lookup in a valid node looks at one place only.
* `Node.mem_entries_iff` — the entries of a valid node are those that lookups find.
-/

variable {α : Type}

/-! ### Slots in order -/

namespace Slots

variable {β : Type}

/-- The octets of the slots ascend. -/
def Ordered (slots : Slots β) : Prop := slots.Pairwise fun a b => a.1 < b.1

@[simp] theorem ordered_nil : Ordered ([] : Slots β) := List.Pairwise.nil

theorem mem_set {octet : UInt8} {value : β} {slots : Slots β} {slot : UInt8 × β}
    (h : slot ∈ set octet value slots) : slot = (octet, value) ∨ slot ∈ slots := by
  induction slots with
  | nil => simpa [set] using h
  | cons head rest ih =>
    obtain ⟨other, old⟩ := head
    unfold set at h
    split at h
    · simpa using h
    · split at h
      · rcases List.mem_cons.mp h with hslot | hslot
        · exact Or.inl hslot
        · exact Or.inr (List.mem_cons_of_mem _ hslot)
      · rcases List.mem_cons.mp h with hslot | hslot
        · exact Or.inr (by simp [hslot])
        · exact (ih hslot).imp_right (List.mem_cons_of_mem _)

theorem Ordered.set {slots : Slots β} (h : Ordered slots) (octet : UInt8) (value : β) :
    Ordered (Slots.set octet value slots) := by
  induction slots with
  | nil => exact List.pairwise_singleton _ _
  | cons head rest ih =>
    obtain ⟨other, old⟩ := head
    obtain ⟨hhead, hrest⟩ := List.pairwise_cons.mp h
    unfold Slots.set
    by_cases hlt : octet < other
    · rw [if_pos hlt]
      refine List.pairwise_cons.mpr ⟨fun slot hslot => ?_, h⟩
      rcases List.mem_cons.mp hslot with rfl | hslot
      · exact hlt
      · exact UInt8.lt_trans hlt (hhead slot hslot)
    · rw [if_neg hlt]
      -- The slot is replaced where it is, or goes in further down.
      by_cases heq : octet = other
      · rw [if_pos heq]
        subst heq
        exact List.pairwise_cons.mpr ⟨hhead, hrest⟩
      · rw [if_neg heq]
        refine List.pairwise_cons.mpr ⟨fun slot hslot => ?_, ih hrest⟩
        rcases mem_set hslot with rfl | hslot
        · exact UInt8.lt_of_le_of_ne (UInt8.not_lt.mp hlt) (Ne.symm heq)
        · exact hhead slot hslot

theorem Ordered.erase {slots : Slots β} (h : Ordered slots) (octet : UInt8) :
    Ordered (Slots.erase octet slots) :=
  List.Pairwise.filter _ h

/-- In slots that are in order, a lookup finds whatever is there. -/
theorem Ordered.lookup_eq_some_iff {slots : Slots β} (h : Ordered slots) {octet : UInt8} {value : β} :
    slots.lookup octet = some value ↔ (octet, value) ∈ slots := by
  induction slots with
  | nil => simp
  | cons head rest ih =>
    obtain ⟨other, old⟩ := head
    obtain ⟨hhead, hrest⟩ := List.pairwise_cons.mp h
    by_cases heq : octet = other
    · subst heq
      have hnot : (octet, value) ∉ rest := fun hmem => absurd (hhead _ hmem) (UInt8.lt_irrefl _)
      simp [hnot, eq_comm]
    · have hne : (octet == other) = false := by simpa using heq
      simp [List.lookup_cons, hne, heq, ih hrest]

theorem set_ne_nil (octet : UInt8) (value : β) (slots : Slots β) : set octet value slots ≠ [] := by
  cases slots with
  | nil => simp [set]
  | cons head rest =>
    unfold set
    split
    · simp
    · split <;> simp

end Slots

namespace Node

/-! ### Nodes at the end of their path -/

/-- How a node stands at the end of a path while nobody is at work on it. -/
structure Fits (path : Key) (node : Node α) : Prop where
  depth : node.depth = path.length
  standing : node.standing = .attached
  octet : ∀ octet, path.getLast? = some octet → node.octet = octet
  /-- The entry belongs under the path. -/
  under : ∀ entry, node.entry = some entry → path <+: entry.key
  /-- Nothing is parked above children. -/
  unparked : ∀ entry slots, node.entry = some entry → node.children = some slots → entry.key = path
  /-- A place for children without any of them is left only behind an entry. -/
  occupied : node.children = some [] → node.entry ≠ none
  ordered : ∀ slots, node.children = some slots → Slots.Ordered slots
  /-- No child is empty. -/
  linked : ∀ slots octet child, node.children = some slots → slots.lookup octet = some child →
    child.isVacant = false

/-- A node fits its path, and so does every node below it. -/
inductive Valid : Key → Node α → Prop where
  | intro {path : Key} {node : Node α} (fits : Fits path node)
      (below : ∀ slots octet child, node.children = some slots → slots.lookup octet = some child →
        Valid (path ++ [octet]) child) : Valid path node

namespace Valid

variable {path rest : Key} {node child : Node α} {slots : Slots (Node α)} {octet : UInt8}

theorem fits (h : Valid path node) : Fits path node := by
  cases h with
  | intro fits _ => exact fits

theorem slot (h : Valid path node) (hslots : node.children = some slots)
    (hchild : slots.lookup octet = some child) : Valid (path ++ [octet]) child := by
  cases h with
  | intro _ below => exact below slots octet child hslots hchild

end Valid

/-- The top of a trie without entries. -/
theorem valid_root : Valid [] (root : Node α) := by
  refine .intro ⟨rfl, rfl, ?_, ?_, ?_, ?_, ?_, ?_⟩ ?_ <;> simp [root]

/-- A new node for an entry, one octet below another node. -/
theorem valid_leaf {path rest : Key} {parent : Node α} {octet : UInt8} {entry : Entry α}
    (hparent : parent.depth = path.length) (hkey : entry.key = path ++ octet :: rest) :
    Valid (path ++ [octet]) (parent.leaf octet entry) := by
  refine .intro ⟨?_, rfl, ?_, ?_, ?_, ?_, ?_, ?_⟩ ?_ <;> simp [leaf, hparent, hkey]

@[simp] theorem isVacant_leaf (parent : Node α) (octet : UInt8) (entry : Entry α) :
    (parent.leaf octet entry).isVacant = false := rfl

/-! ### Lookups -/

section Lookup

variable {path rest key : Key} {node : Node α} {slots : Slots (Node α)} {octet : UInt8}

theorem find?_nil (key : Key) (node : Node α) : node.find? key [] = node.entry.filter (·.key = key) :=
  rfl

/-- Below a node that has no place for children there is nothing. -/
theorem find?_leaf (key rest : Key) (hnone : node.children = none) :
    node.find? key rest = node.entry.filter (·.key = key) := by
  cases rest with
  | nil => rfl
  | cons octet rest =>
    rw [find?, hnone]
    cases node.entry.filter (·.key = key) <;> rfl

/-- A node with a place for children leaves all longer keys to them. -/
theorem find?_slot (h : Valid path node) (hslots : node.children = some slots) (octet : UInt8)
    (rest : Key) :
    node.find? (path ++ octet :: rest) (octet :: rest)
      = (slots.lookup octet).bind (find? (path ++ octet :: rest) rest) := by
  have hnone : node.entry.filter (·.key = path ++ octet :: rest) = none := by
    cases hentry : node.entry with
    | none => rfl
    | some entry =>
      have hkey := h.fits.unparked entry slots hentry hslots
      simp [hkey]
  rw [find?, hnone, hslots]

/-- What a lookup finds has the key that was looked for. -/
theorem key_of_find? {entry : Entry α} (h : node.find? key rest = some entry) : entry.key = key := by
  induction rest generalizing node with
  | nil =>
    rw [find?_nil, Option.filter_eq_some_iff] at h
    simpa using h.2
  | cons octet rest ih =>
    unfold find? at h
    split at h
    · next found hfound =>
      rw [Option.filter_eq_some_iff] at hfound
      rw [← Option.some.inj h]
      simpa using hfound.2
    · split at h
      · obtain ⟨child, _, hchild⟩ := Option.bind_eq_some_iff.mp h
        exact ih hchild
      · exact absurd h (by simp)

end Lookup

/-! ### Entries -/

section Entries

variable {path : Key} {node : Node α}

theorem slotEntries_cons (slot : UInt8 × Node α) (rest : Slots (Node α)) :
    slotEntries (slot :: rest) = slotEntries rest ++ slot.2.entries := by
  obtain ⟨octet, child⟩ := slot
  rfl

theorem mem_slotEntries {entry : Entry α} {slots : Slots (Node α)} :
    entry ∈ slotEntries slots ↔ ∃ slot ∈ slots, entry ∈ slot.2.entries := by
  induction slots with
  | nil => simp [slotEntries]
  | cons slot rest ih => simp [slotEntries_cons, ih, or_comm]

theorem entries_leaf (hnone : node.children = none) : node.entries = node.entry.toList := by
  obtain ⟨depth, octet, standing, entry, children⟩ := node
  obtain rfl : children = none := hnone
  rfl

theorem entries_slots {slots : Slots (Node α)} (hslots : node.children = some slots) :
    node.entries = node.entry.toList ++ slotEntries slots := by
  obtain ⟨depth, octet, standing, entry, children⟩ := node
  obtain rfl : children = some slots := hslots
  rfl

/-- A valid node holds an entry exactly when a lookup below its path finds it. -/
theorem Valid.mem_entries_iff (h : Valid path node) {entry : Entry α} :
    entry ∈ node.entries
      ↔ ∃ rest, entry.key = path ++ rest ∧ node.find? entry.key rest = some entry := by
  induction h with
  | @intro path node fits below ih =>
    have hvalid : Valid path node := .intro fits below
    cases hslots : node.children with
    | none =>
      rw [entries_leaf hslots, Option.mem_toList]
      constructor
      · intro hentry
        obtain ⟨rest, hrest⟩ := fits.under entry hentry
        refine ⟨rest, hrest.symm, ?_⟩
        rw [find?_leaf _ _ hslots, hentry, Option.filter_some, if_pos (by simp)]
      · rintro ⟨rest, _, hfind⟩
        rw [find?_leaf _ _ hslots, Option.filter_eq_some_iff] at hfind
        exact hfind.1
    | some slots =>
      rw [entries_slots hslots, List.mem_append, Option.mem_toList, mem_slotEntries]
      constructor
      -- An entry above children has the path as its key; any other one is below a slot.
      · rintro (hentry | ⟨⟨octet, child⟩, hslot, hentry⟩)
        · have hkey := fits.unparked entry slots hentry hslots
          refine ⟨[], by rw [hkey, List.append_nil], ?_⟩
          rw [find?_nil, hentry, Option.filter_some, if_pos (by simp)]
        · have hlookup := (fits.ordered slots hslots).lookup_eq_some_iff.mpr hslot
          obtain ⟨rest, hkey, hfind⟩ := (ih slots octet child hslots hlookup).mp hentry
          refine ⟨octet :: rest, by rw [hkey]; simp, ?_⟩
          have hkey' : entry.key = path ++ octet :: rest := by rw [hkey]; simp
          rw [hkey', find?_slot hvalid hslots, hlookup, Option.bind_some, ← hkey']
          exact hfind
      · rintro ⟨rest, hkey, hfind⟩
        cases rest with
        | nil =>
          rw [find?_nil, Option.filter_eq_some_iff] at hfind
          exact Or.inl hfind.1
        | cons octet rest =>
          rw [hkey, find?_slot hvalid hslots, ← hkey] at hfind
          obtain ⟨child, hlookup, hchild⟩ := Option.bind_eq_some_iff.mp hfind
          have hslot := (fits.ordered slots hslots).lookup_eq_some_iff.mp hlookup
          refine Or.inr ⟨_, hslot, (ih slots octet child hslots hlookup).mpr ⟨rest, ?_, hchild⟩⟩
          rw [hkey]
          simp

/-- All keys in a valid node go on from its path. -/
theorem Valid.prefix_of_mem (h : Valid path node) {entry : Entry α} (hentry : entry ∈ node.entries) :
    path <+: entry.key := by
  obtain ⟨rest, hkey, _⟩ := h.mem_entries_iff.mp hentry
  exact ⟨rest, hkey.symm⟩

/-- Two slots of a node have no key in common. -/
private theorem slotEntries_nodup {slots : Slots (Node α)} (hordered : Slots.Ordered slots)
    (hvalid : ∀ slot ∈ slots, Valid (path ++ [slot.1]) slot.2)
    (hnodup : ∀ slot ∈ slots, (slot.2.entries.map (·.key)).Nodup) :
    ((slotEntries slots).map (·.key)).Nodup := by
  induction slots with
  | nil => simp [slotEntries]
  | cons slot rest ih =>
    obtain ⟨hhead, hrest⟩ := List.pairwise_cons.mp hordered
    rw [slotEntries_cons, List.map_append, List.nodup_append]
    refine ⟨?_, hnodup slot (by simp), ?_⟩
    · exact ih hrest (fun s hs => hvalid s (by simp [hs])) (fun s hs => hnodup s (by simp [hs]))
    · rintro key hkey _ hkey' rfl
      obtain ⟨entry, hentry, rfl⟩ := List.mem_map.mp hkey
      obtain ⟨entry', hentry', hsame⟩ := List.mem_map.mp hkey'
      obtain ⟨other, hother, hmem⟩ := mem_slotEntries.mp hentry
      obtain ⟨back, hback⟩ := (hvalid other (by simp [hother])).prefix_of_mem hmem
      obtain ⟨back', hback'⟩ := (hvalid slot (by simp)).prefix_of_mem hentry'
      -- Both octets stand behind the path in one key.
      have hoctets : slot.1 = other.1 := by
        have heq := hback'.trans (hsame.trans hback.symm)
        simp only [List.append_assoc, List.singleton_append, List.append_cancel_left_eq,
          List.cons.injEq] at heq
        exact heq.1
      have hlt := hhead other hother
      rw [hoctets] at hlt
      exact absurd hlt (UInt8.lt_irrefl _)

/-- No key is there twice. -/
theorem Valid.nodup_keys (h : Valid path node) : (node.entries.map (·.key)).Nodup := by
  induction h with
  | @intro path node fits below ih =>
    cases hslots : node.children with
    | none =>
      rw [entries_leaf hslots]
      cases node.entry <;> simp
    | some slots =>
      have hlookup : ∀ slot ∈ slots, slots.lookup slot.1 = some slot.2 := fun slot hslot =>
        (fits.ordered slots hslots).lookup_eq_some_iff.mpr hslot
      have hslotsNodup := slotEntries_nodup (fits.ordered slots hslots)
        (fun slot hslot => below slots _ _ hslots (hlookup slot hslot))
        (fun slot hslot => ih slots _ _ hslots (hlookup slot hslot))
      rw [entries_slots hslots]
      cases hentry : node.entry with
      | none => simpa using hslotsNodup
      | some entry =>
        rw [Option.toList_some, List.singleton_append, List.map_cons, List.nodup_cons]
        refine ⟨?_, hslotsNodup⟩
        -- The entry's key is the path, and the keys below a slot are longer.
        rw [fits.unparked entry slots hentry hslots]
        intro hmem
        obtain ⟨other, hother, hkey⟩ := List.mem_map.mp hmem
        obtain ⟨slot, hslot, hentry'⟩ := mem_slotEntries.mp hother
        have hprefix := (below slots _ _ hslots (hlookup slot hslot)).prefix_of_mem hentry'
        rw [hkey] at hprefix
        have hlength := hprefix.length_le
        simp only [List.length_append, List.length_singleton] at hlength
        omega

/-- A node that is not empty has an entry in it or below it. -/
theorem Valid.entries_ne_nil (h : Valid path node) (hvacant : node.isVacant = false) :
    node.entries ≠ [] := by
  induction h with
  | @intro path node fits below ih =>
    cases hslots : node.children with
    | none =>
      rw [entries_leaf hslots]
      cases hentry : node.entry with
      | none => simp [isVacant, hentry, hslots] at hvacant
      | some entry => simp
    | some slots =>
      rw [entries_slots hslots]
      cases hentry : node.entry with
      | some entry => simp
      | none =>
        cases slots with
        | nil => exact absurd hentry (fits.occupied hslots)
        | cons slot rest =>
          -- Without an entry of its own the node has a child, which is not empty either.
          have hlookup : (slot :: rest).lookup slot.1 = some slot.2 := List.lookup_cons_self
          have hchild := ih _ _ _ hslots hlookup (fits.linked _ _ _ hslots hlookup)
          obtain ⟨entry, hentry'⟩ := List.exists_mem_of_ne_nil _ hchild
          have hmem : entry ∈ slotEntries (slot :: rest) :=
            mem_slotEntries.mpr ⟨slot, by simp, hentry'⟩
          simp only [Option.toList_none, List.nil_append]
          exact List.ne_nil_of_mem hmem

end Entries

end Node

end DnsResolver.Trie
