import DnsResolver.Proofs.Trie.Shape

namespace DnsResolver.Trie

/-!
# Operations that are refused

An operation that says it changed nothing has not changed what is found.  Its walk may have changed
the nodes all the same: an entry in the way of the key goes down before the walk comes to a decision.

* `Node.InTheWay` — what makes a walk open a node before it goes on.
* `Node.Walked` — what a walk that stores nothing leaves of a node; `Node.place_refused` shows it by
  induction on the rest of the key.
* `Node.Walked.eq_iff` — nothing changed exactly if no entry was in the way.
* `run_refused` — refused operations, and what they leave of a trie.
-/

variable {α : Type}

namespace Slots

variable {β : Type} {slots : Slots β} {octet : UInt8} {value : β}

/-- In slots that are in order, a slot that is filled is filled where it is. -/
theorem Ordered.set_eq (h : Ordered slots) (hlookup : slots.lookup octet = some value) :
    ∃ front back, slots = front ++ (octet, value) :: back
      ∧ ∀ new, Slots.set octet new slots = front ++ (octet, new) :: back := by
  induction slots with
  | nil => exact absurd hlookup (by simp)
  | cons slot rest ih =>
    obtain ⟨other, old⟩ := slot
    obtain ⟨hhead, hrest⟩ : (∀ slot ∈ rest, other < slot.1) ∧ Ordered rest := List.pairwise_cons.mp h
    have hmem := h.lookup_eq_some_iff.mp hlookup
    rcases List.mem_cons.mp hmem with hslot | hslot
    · obtain ⟨rfl, rfl⟩ := Prod.mk.inj hslot
      refine ⟨[], rest, rfl, fun new => ?_⟩
      rw [Slots.set, if_neg (UInt8.lt_irrefl _), if_pos rfl, List.nil_append]
    · have hlt : other < octet := hhead _ hslot
      obtain ⟨front, back, hslots, hset⟩ := ih hrest (hrest.lookup_eq_some_iff.mpr hslot)
      refine ⟨(other, old) :: front, back, by rw [hslots, List.cons_append], fun new => ?_⟩
      rw [Slots.set, if_neg (UInt8.lt_asymm hlt), if_neg (UInt8.ne_of_lt hlt).symm, hset,
        List.cons_append]

end Slots

namespace Node

variable {path rest below key : Key} {node child found result : Node α} {slots : Slots (Node α)}
  {octet : UInt8} {entry : Entry α} {choice : Option (Entry α) → Option (Entry α)} {moves : Nat}

/-! ### Entries in the way -/

/-- The entry of another key is in the way of a key at a node that has no place for children. -/
def InTheWay (key : Key) (node : Node α) : Prop :=
  ∃ entry, node.entry = some entry ∧ entry.key ≠ key ∧ node.children = none

theorem not_inTheWay (hslots : node.children = some slots) : ¬ node.InTheWay key := by
  rintro ⟨entry, -, -, hnone⟩
  exact absurd (hnone.symm.trans hslots) (by simp)

theorem opened_children (node : Node α) (entry : Entry α) :
    ∃ slots, (node.opened entry).children = some slots := by
  unfold opened
  split
  · exact ⟨_, rfl⟩
  · exact ⟨_, rfl⟩

/-- Where an entry is in the way of a key, the key is not there. -/
theorem Valid.find?_of_inTheWay (h : Valid path node) (hbelow : below <+: rest)
    (hat : node.at? below = some found) (hway : found.InTheWay (path ++ rest)) :
    node.find? (path ++ rest) rest = none := by
  induction below generalizing path rest node with
  | nil =>
    obtain rfl : node = found := Option.some.inj hat
    obtain ⟨entry, hentry, hkey, hnone⟩ := hway
    rw [find?_leaf _ _ hnone, hentry, Option.filter_some, if_neg (by simpa using hkey)]
  | cons octet below ih =>
    obtain ⟨slots, child, hslots, hlookup, hfound⟩ := at?_cons_eq_some hat
    obtain ⟨more, rfl⟩ := hbelow
    have hkey : path ++ octet :: (below ++ more) = path ++ [octet] ++ (below ++ more) := by simp
    rw [List.cons_append, find?_slot h hslots, hlookup, Option.bind_some, hkey]
    refine ih (h.slot hslots hlookup) (List.prefix_append _ _) hfound ?_
    rwa [← hkey, ← List.cons_append]

/-! ### Walks that store nothing -/

/-- A walk for a key that stores nothing, from a node to what is left of the node.  `rest` is the part
    of the key below the node. -/
inductive Walked (key : Key) : Key → Key → Node α → Node α → Prop where
  /-- The walk ends here. -/
  | stays {path rest : Key} {node : Node α} (valid : Valid path node) (free : ¬ node.InTheWay key)
      (ends : ∀ octet more slots, rest = octet :: more → node.children = some slots →
        slots.lookup octet = none) : Walked key path rest node node
  /-- An entry that is in the way goes down first. -/
  | opens {path rest : Key} {node left : Node α} {entry : Entry α} (valid : Valid path node)
      (holds : node.entry = some entry) (other : entry.key ≠ key) (leaf : node.children = none)
      (walked : Walked key path rest (node.opened entry) left) : Walked key path rest node left
  /-- The walk goes on below. -/
  | descends {path rest : Key} {octet : UInt8} {node child left : Node α} {slots : Slots (Node α)}
      (valid : Valid path node) (holds : node.children = some slots)
      (there : slots.lookup octet = some child)
      (walked : Walked key (path ++ [octet]) rest child left) :
      Walked key path (octet :: rest) node (node.withChild slots octet left)

/-- A walk that stores nothing and has no slot to go on in: at the node is the entry of the key itself
    or none. -/
private theorem place_ends (h : Valid path node) (hfree : ¬ node.InTheWay (path ++ rest))
    (hroom : ∀ slots, node.children = some slots → rest = [])
    (hchoice : choice (node.find? (path ++ rest) rest) = none) :
    (place choice (path ++ rest) (moves + 1) node).1 = node := by
  have hfind : node.find? (path ++ rest) rest
      = node.entry.filter (fun e : Entry α => decide (e.key = path ++ rest)) := by
    rcases Option.eq_none_or_eq_some node.children with hslots | ⟨slots, hslots⟩
    · exact find?_leaf _ _ hslots
    · rw [hroom slots hslots]
      rfl
  rw [hfind] at hchoice
  cases hentry : node.entry with
  | none =>
    rw [hentry, Option.filter_none] at hchoice
    simp only [place, move_settle hentry h.fits.depth hroom, hchoice]
  | some entry =>
    have hkey : entry.key = path ++ rest := by
      by_contra hkey
      rcases Option.eq_none_or_eq_some node.children with hslots | ⟨slots, hslots⟩
      · exact hfree ⟨entry, hentry, hkey, hslots⟩
      · rw [hroom slots hslots, List.append_nil] at hkey
        exact hkey (h.fits.unparked entry slots hentry hslots)
    rw [hentry, Option.filter_some, if_pos (by simpa using hkey)] at hchoice
    simp only [place, move_found hentry hkey, hchoice]

/-- A walk that stores nothing, from a node with nothing in the way. -/
private theorem place_free (h : Valid path node) (hfree : ¬ node.InTheWay (path ++ rest))
    (hchoice : choice (node.find? (path ++ rest) rest) = none)
    (hbelow : ∀ octet more child, rest = octet :: more → Valid (path ++ [octet]) child →
      choice (child.find? (path ++ rest) more) = none →
      Walked (path ++ rest) (path ++ [octet]) more child (place choice (path ++ rest) moves child).1) :
    Walked (path ++ rest) path rest node (place choice (path ++ rest) (moves + 1) node).1 := by
  by_cases hroom : ∀ slots, node.children = some slots → rest = []
  · rw [place_ends h hfree hroom hchoice]
    refine .stays h hfree fun octet more slots hrest hslots => ?_
    exact absurd (hroom slots hslots) (by simp [hrest])
  · obtain ⟨slots, hslots, hrest⟩ : ∃ slots, node.children = some slots ∧ rest ≠ [] := by
      simpa using hroom
    obtain ⟨octet, more, rfl⟩ := List.exists_cons_of_ne_nil hrest
    rw [find?_slot h hslots] at hchoice
    rw [place, move_toward h hslots, toward]
    cases hlookup : slots.lookup octet with
    | none =>
      -- The slot is empty, and nothing is put into it.
      rw [hlookup, Option.bind_none] at hchoice
      simp only [hchoice]
      refine .stays h hfree fun first rest' slots' hcons hslots' => ?_
      obtain ⟨rfl, rfl⟩ := List.cons.inj hcons
      obtain rfl : slots = slots' := Option.some.inj (hslots.symm.trans hslots')
      exact hlookup
    | some child =>
      rw [hlookup, Option.bind_some] at hchoice
      have hchild := h.slot hslots hlookup
      exact .descends h hslots hlookup (hbelow octet more child rfl hchild hchoice)

/-- A walk that stores nothing, when the walks below the children of its node are known. -/
private theorem place_refused_of_below (h : Valid path node) (hkey : key = path ++ rest)
    (hmoves : 3 * rest.length + 3 ≤ moves) (hchoice : choice (node.find? key rest) = none)
    (hbelow : ∀ octet more child moves, rest = octet :: more → 3 * more.length + 3 ≤ moves →
      Valid (path ++ [octet]) child → choice (child.find? key more) = none →
      Walked key (path ++ [octet]) more child (place choice key moves child).1) :
    Walked key path rest node (place choice key moves node).1 := by
  subst hkey
  have hlevel : ∀ (target : Node α) left, Valid path target → 3 * rest.length + 1 ≤ left →
      ¬ target.InTheWay (path ++ rest) → choice (target.find? (path ++ rest) rest) = none →
      Walked (path ++ rest) path rest target (place choice (path ++ rest) left target).1 := by
    intro target left htarget hleft hfree hnone
    obtain ⟨left, rfl⟩ : ∃ n, left = n + 1 := ⟨left - 1, by omega⟩
    refine place_free htarget hfree hnone fun octet more child hrest hchild => ?_
    refine hbelow octet more child left hrest ?_ hchild
    rw [hrest, List.length_cons] at hleft
    omega
  by_cases hway : node.InTheWay (path ++ rest)
  · obtain ⟨entry, hentry, hne, hnone⟩ := hway
    obtain ⟨left, hleft, hplace⟩ : ∃ left, moves ≤ left + 2
        ∧ place choice (path ++ rest) moves node
          = place choice (path ++ rest) left (node.opened entry) :=
      place_opened h hentry hnone hne (by omega)
    obtain ⟨slots, hslots⟩ := opened_children node entry
    rw [← h.find?_opened hentry hnone] at hchoice
    rw [hplace]
    exact .opens h hentry hne hnone
      (hlevel _ left (h.opened hentry) (by omega) (not_inTheWay hslots) hchoice)
  · exact hlevel node moves h (by omega) hway hchoice

/-- **Refused walks.** With three moves for each depth of its key, a walk that chooses to store
    nothing ends, and has done no more than to open nodes. -/
theorem place_refused (h : Valid path node) (hkey : key = path ++ rest)
    (hmoves : 3 * rest.length + 3 ≤ moves) (hchoice : choice (node.find? key rest) = none) :
    Walked key path rest node (place choice key moves node).1 := by
  induction rest generalizing path node moves with
  | nil =>
    refine place_refused_of_below h hkey hmoves hchoice ?_
    exact fun _ _ _ _ hrest => absurd hrest (by simp)
  | cons octet more ih =>
    refine place_refused_of_below h hkey hmoves hchoice ?_
    intro first rest child left hrest hleft hchild hnone
    obtain ⟨rfl, rfl⟩ := List.cons.inj hrest
    exact ih hchild (by rw [hkey]; simp) hleft hnone

/-! ### What is left -/

/-- A node is as it was exactly if the child that is put into a slot hung there. -/
theorem withChild_eq_iff (h : Valid path node) (hslots : node.children = some slots)
    (hlookup : slots.lookup octet = some child) :
    node.withChild slots octet found = node ↔ found = child := by
  constructor
  · intro hnode
    have hset : Slots.set octet found slots = slots := by
      have hchildren := congrArg Node.children hnode
      rw [hslots] at hchildren
      exact Option.some.inj hchildren
    have hfound := Slots.lookup_set octet octet found slots
    rw [hset, hlookup, if_pos rfl] at hfound
    exact (Option.some.inj hfound).symm
  · rintro rfl
    obtain ⟨front, back, hfront, hset⟩ := (h.fits.ordered slots hslots).set_eq hlookup
    rw [withChild, hset, ← hfront, ← hslots]
    cases node
    rfl

/-- Nodes that agree in everything but what is below them. -/
structure Alike (node other : Node α) : Prop where
  depth : node.depth = other.depth
  octet : node.octet = other.octet
  standing : node.standing = other.standing
  entry : node.entry = other.entry
  /-- Both of them have a place for children, or neither. -/
  children : node.children = none ↔ other.children = none

theorem Alike.refl (node : Node α) : Alike node node := ⟨rfl, rfl, rfl, rfl, Iff.rfl⟩

namespace Walked

/-- A place for children stays one. -/
theorem children (h : Walked key path rest node result) :
    node.children ≠ none → result.children ≠ none := by
  induction h with
  | stays => exact id
  | opens _ _ _ hnone => exact fun hsome => absurd hnone hsome
  | descends => exact fun _ => Option.some_ne_none _

/-- **Nothing changed.** The node is as it was exactly if on the path of the key there is no entry in
    its way. -/
theorem eq_iff (h : Walked key path rest node result) :
    result = node
      ↔ ∀ below found, below <+: rest → node.at? below = some found → ¬ found.InTheWay key := by
  induction h with
  | @stays path rest node valid hfree hends =>
    refine ⟨fun _ below found hbelow hat => ?_, fun _ => rfl⟩
    cases below with
    | nil =>
      obtain rfl : node = found := Option.some.inj hat
      exact hfree
    | cons octet below =>
      -- The walk would have gone on in the slot that the path goes through.
      obtain ⟨slots, child, hslots, hlookup, -⟩ := at?_cons_eq_some hat
      obtain ⟨more, rfl⟩ := hbelow
      exact absurd (hends octet _ slots rfl hslots) (by simp [hlookup])
  | @opens path rest node left entry valid hentry hkey hnone walked ih =>
    obtain ⟨slots, hslots⟩ := opened_children node entry
    have hleft := walked.children (by simp [hslots])
    constructor
    · rintro rfl
      exact absurd hnone hleft
    · intro hfree
      exact absurd ⟨entry, hentry, hkey, hnone⟩ (hfree [] node List.nil_prefix rfl)
  | @descends path rest octet node child left slots valid hslots hlookup walked ih =>
    rw [withChild_eq_iff valid hslots hlookup, ih]
    constructor
    · intro hfree below found hbelow hat
      cases below with
      | nil =>
        obtain rfl : node = found := Option.some.inj hat
        exact not_inTheWay hslots
      | cons first below =>
        obtain ⟨rfl, hrest⟩ := List.cons_prefix_cons.mp hbelow
        rw [at?_cons, hslots, Option.bind_some, hlookup, Option.bind_some] at hat
        exact hfree below found hrest hat
    · intro hfree below found hbelow hat
      refine hfree (octet :: below) found (List.cons_prefix_cons.mpr ⟨rfl, hbelow⟩) ?_
      rw [at?_cons, hslots, Option.bind_some, hlookup, Option.bind_some, hat]

/-- **Other nodes.** A node with no entry in the way keeps its entry, and whether it has a place for
    children. -/
theorem kept (h : Walked key path rest node result) :
    ∀ below found, node.at? below = some found → ¬ (below <+: rest ∧ found.InTheWay key) →
      ∃ kept, result.at? below = some kept ∧ Alike kept found := by
  induction h with
  | stays => exact fun below found hat _ => ⟨found, hat, .refl found⟩
  | @opens path rest node left entry valid hentry hkey hnone walked ih =>
    intro below found hat hfree
    cases below with
    | nil =>
      obtain rfl : node = found := Option.some.inj hat
      exact absurd ⟨List.nil_prefix, entry, hentry, hkey, hnone⟩ hfree
    | cons octet below =>
      obtain ⟨slots, -, hslots, -⟩ := at?_cons_eq_some hat
      exact absurd (hnone.symm.trans hslots) (by simp)
  | @descends path rest octet node child left slots valid hslots hlookup walked ih =>
    intro below found hat hfree
    cases below with
    | nil =>
      obtain rfl : node = found := Option.some.inj hat
      exact ⟨_, rfl, rfl, rfl, rfl, rfl, by simp [withChild, hslots]⟩
    | cons first below =>
      rw [at?_cons, hslots, Option.bind_some] at hat
      rw [at?_cons, withChild, Option.bind_some, Slots.lookup_set]
      by_cases hfirst : first = octet
      · subst hfirst
        rw [hlookup, Option.bind_some] at hat
        rw [if_pos rfl, Option.bind_some]
        refine ih below found hat fun hway => hfree ⟨?_, hway.2⟩
        exact List.cons_prefix_cons.mpr ⟨rfl, hway.1⟩
      · rw [if_neg hfirst]
        exact ⟨found, hat, .refl found⟩

/-- **New nodes.** Nodes are added only below one with an entry in the way. -/
theorem added (h : Walked key path rest node result) :
    ∀ below left, result.at? below = some left →
      (∃ found, node.at? below = some found)
        ∨ ∃ front found, front <+: below ∧ front <+: rest ∧ node.at? front = some found
          ∧ found.InTheWay key := by
  induction h with
  | stays => exact fun below left hat => Or.inl ⟨left, hat⟩
  | @opens path rest node left entry valid hentry hkey hnone walked ih =>
    intro below _ _
    exact Or.inr ⟨[], node, List.nil_prefix, List.nil_prefix, rfl, entry, hentry, hkey, hnone⟩
  | @descends path rest octet node child left slots valid hslots hlookup walked ih =>
    intro below kept hat
    cases below with
    | nil => exact Or.inl ⟨node, rfl⟩
    | cons first below =>
      rw [at?_cons, withChild, Option.bind_some, Slots.lookup_set] at hat
      by_cases hfirst : first = octet
      · subst hfirst
        -- What is found below the child is found below its node.
        have hdown : ∀ path : Key, node.at? (first :: path) = child.at? path := by
          intro path
          rw [at?_cons, hslots, Option.bind_some, hlookup, Option.bind_some]
        rw [if_pos rfl, Option.bind_some] at hat
        rcases ih below kept hat with ⟨found, hfound⟩ | ⟨front, found, hbelow, hrest, hfound, hway⟩
        · exact Or.inl ⟨found, (hdown below).trans hfound⟩
        · refine Or.inr ⟨first :: front, found, ?_, ?_, (hdown front).trans hfound, hway⟩
          · exact List.cons_prefix_cons.mpr ⟨rfl, hbelow⟩
          · exact List.cons_prefix_cons.mpr ⟨rfl, hrest⟩
      · rw [if_neg hfirst] at hat
        refine Or.inl ⟨kept, ?_⟩
        rw [at?_cons, hslots, Option.bind_some, hat]

end Walked

theorem entries_opened (h : Valid path node) (hentry : node.entry = some entry)
    (hnone : node.children = none) : (node.opened entry).entries = node.entries := by
  rw [entries_leaf hnone, hentry, Option.toList_some]
  rcases opened_cases h hentry with ⟨-, hopened⟩ | ⟨octet, more, -, -, hopened⟩
  · rw [hopened, entries_slots rfl, hentry]
    rfl
  · rw [hopened, entries_slots rfl, slotEntries_cons, entries_leaf rfl]
    rfl

theorem slotEntries_append (front back : Slots (Node α)) :
    slotEntries (front ++ back) = slotEntries back ++ slotEntries front := by
  induction front with
  | nil => exact (List.append_nil _).symm
  | cons slot front ih =>
    rw [List.cons_append, slotEntries_cons, slotEntries_cons, ih, List.append_assoc]

/-- All entries are still there, in the same order. -/
theorem Walked.entries (h : Walked key path rest node result) : result.entries = node.entries := by
  induction h with
  | stays => rfl
  | opens valid hentry _ hnone _ ih => rw [ih, entries_opened valid hentry hnone]
  | @descends path rest octet node child left slots valid hslots hlookup walked ih =>
    obtain ⟨front, back, hfront, hset⟩ := (valid.fits.ordered slots hslots).set_eq hlookup
    have hslotEntries : slotEntries (Slots.set octet left slots) = slotEntries slots := by
      rw [hset, hfront, slotEntries_append, slotEntries_append, slotEntries_cons, slotEntries_cons, ih]
    rw [entries_slots hslots, ← hslotEntries]
    exact entries_slots rfl

end Node

/-! ### Refused operations -/

/-- An operation that says it changed nothing. -/
inductive Refused : Operation α → Answer α → Prop where
  | tryAdd (key : Key) (value : α) : Refused (.tryAdd key value) (.flag false)
  | add (key : Key) (value : α) (error : Error) : Refused (.add key value) (.added (.error error))
  | tryUpdate (key : Key) (value expected : α) : Refused (.tryUpdate key value expected) (.flag false)
  | erase (key : Key) : Refused (.erase key) (.found none)
  | eraseWhere (selects : Key → α → Bool) : Refused (.eraseWhere selects) (.count 0)

section

variable {trie : Trie α} {key : Key} {choose : Option α → Option α}

/-- An insertion that stores nothing has walked to the place of its key. -/
theorem upsert_refused (h : trie.root.Valid []) (hchoose : choose (trie.find? key) = none) :
    Node.Walked key [] key trie.root (trie.upsert key choose).1.root := by
  simp only [upsert, Node.insert, h.fits.standing, reduceCtorEq, if_false]
  refine Node.place_refused h (List.nil_append key).symm (by unfold Node.enoughMoves; omega) ?_
  have hfound : (trie.root.find? key key).map (·.value) = trie.find? key := rfl
  simp only [hfound, hchoose, Option.map_none]

/-- Where an entry is in the way of a key, the key is not in the trie. -/
theorem find?_of_inTheWay {path : Key} {node : Node α} (h : trie.root.Valid []) (hpath : path <+: key)
    (hat : trie.root.at? path = some node) (hway : node.InTheWay key) : trie.find? key = none := by
  have hnone := h.find?_of_inTheWay hpath hat hway
  rw [List.nil_append] at hnone
  rw [find?, hnone, Option.map_none]

/-- An insertion that stores nothing over a key that is there leaves the trie as it is. -/
theorem upsert_refused_present (h : trie.root.Valid []) (hchoose : choose (trie.find? key) = none)
    (hthere : trie.find? key ≠ none) : (trie.upsert key choose).1 = trie := by
  have hroot : (trie.upsert key choose).1.root = trie.root := by
    refine (upsert_refused h hchoose).eq_iff.mpr fun below found hbelow hat hway => ?_
    exact hthere (find?_of_inTheWay h hbelow hat hway)
  exact congrArg Trie.mk hroot

/-- An insertion stores something, or leaves what a walk for its key leaves. -/
private theorem upsert_cases (h : trie.root.Valid []) (key : Key) (choose : Option α → Option α) :
    (∃ left previous current, trie.upsert key choose = (left, .stored previous current))
      ∨ choose (trie.find? key) = none
        ∧ ∃ left present, trie.upsert key choose = (left, .unchanged present) := by
  obtain ⟨-, -, present, -, houtcome⟩ := upsert_spec h key choose
  cases hchoose : choose (trie.find? key) with
  | some value =>
    rw [hchoose] at houtcome
    exact Or.inl ⟨_, _, _, Prod.ext rfl houtcome⟩
  | none =>
    rw [hchoose] at houtcome
    exact Or.inr ⟨rfl, _, _, Prod.ext rfl houtcome⟩

theorem tryAdd_refused (h : trie.root.Valid []) (value : α)
    (hanswer : (trie.tryAdd key value).1 = false) : (trie.tryAdd key value).2 = trie := by
  let choose (present : Option α) : Option α := if present.isSome then none else some value
  rcases upsert_cases h key choose with
    ⟨left, previous, current, hupsert⟩ | ⟨hchoose, left, present, hupsert⟩
  · rw [tryAdd, hupsert] at hanswer
    exact absurd hanswer (by simp)
  · -- It was refused over the value that is there.
    have hthere : trie.find? key ≠ none := by
      intro hnone
      rw [hnone] at hchoose
      exact absurd hchoose (by simp [choose])
    have hleft := upsert_refused_present h hchoose hthere
    rw [hupsert] at hleft
    rw [tryAdd, hupsert]
    exact hleft

theorem add_refused (h : trie.root.Valid []) {value : α} {error : Error}
    (hanswer : (trie.add key value).1 = .error error) : (trie.add key value).2 = trie := by
  rcases htry : trie.tryAdd key value with ⟨_ | _, left⟩
  · have hleft := tryAdd_refused h value (by rw [htry])
    rw [htry] at hleft
    rw [add, htry]
    exact hleft
  · rw [add, htry] at hanswer
    exact absurd hanswer (by simp)

theorem tryUpdate_refused [BEq α] (h : trie.root.Valid []) {value expected : α}
    (hanswer : (trie.tryUpdate key value expected).1 = false) :
    Node.Walked key [] key trie.root (trie.tryUpdate key value expected).2.root := by
  let choose (present : Option α) : Option α :=
    present.bind fun old => if old == expected then some value else none
  rcases upsert_cases h key choose with
    ⟨left, previous, current, hupsert⟩ | ⟨hchoose, left, present, hupsert⟩
  · rw [tryUpdate, hupsert] at hanswer
    exact absurd hanswer (by simp)
  · have hleft := upsert_refused h hchoose
    rw [hupsert] at hleft
    rw [tryUpdate, hupsert]
    exact hleft

theorem erase_refused (hanswer : (trie.erase key).1 = none) : (trie.erase key).2 = trie := by
  rcases herase : trie.root.erase? key key with _ | ⟨entry, _ | root⟩
  · simp only [erase, herase]
  · simp only [erase, herase, reduceCtorEq] at hanswer
  · simp only [erase, herase, reduceCtorEq] at hanswer

/-- Without a count nothing was selected. -/
theorem eraseWhere_refused (h : trie.root.Valid []) {selects : Key → α → Bool}
    (hanswer : (trie.eraseWhere selects).1 = 0) : (trie.eraseWhere selects).2 = trie := by
  obtain ⟨-, -, hcount⟩ := eraseWhere_spec h selects
  have hnone : trie.entries.filter (fun entry => selects entry.key entry.value) = [] :=
    List.length_eq_zero_iff.mp (hcount.symm.trans hanswer)
  rw [eraseWhere, hnone]
  rfl

end

/-- An operation is to update a key that is not there, and at the end of a path an entry is in the
    way of it. -/
def Operation.Obstructed (trie : Trie α) (path : Key) : Operation α → Prop
  | tryUpdate key _ _ =>
    trie.find? key = none ∧ path <+: key ∧ ∃ node, trie.root.at? path = some node ∧ node.InTheWay key
  | _ => False

/-- A refused operation left the trie itself and had nothing in its way, or it is an update that has
    walked to the place of its key. -/
private theorem refused_cases [BEq α] {trie : Trie α} {operation : Operation α}
    (h : trie.root.Valid []) (hrefused : Refused operation (operation.onTrie trie).1) :
    ((operation.onTrie trie).2 = trie ∧ ∀ path, ¬ operation.Obstructed trie path)
      ∨ ∃ key value expected, operation = .tryUpdate key value expected
        ∧ Node.Walked key [] key trie.root (operation.onTrie trie).2.root := by
  generalize hanswer : (operation.onTrie trie).1 = answer at hrefused
  cases hrefused with
  | tryAdd key value =>
    exact Or.inl ⟨tryAdd_refused h value (by simpa [Operation.onTrie] using hanswer), fun _ => id⟩
  | add key value error =>
    exact Or.inl ⟨add_refused h (by simpa [Operation.onTrie] using hanswer), fun _ => id⟩
  | erase key => exact Or.inl ⟨erase_refused (by simpa [Operation.onTrie] using hanswer), fun _ => id⟩
  | eraseWhere selects =>
    exact Or.inl ⟨eraseWhere_refused h (by simpa [Operation.onTrie] using hanswer), fun _ => id⟩
  | tryUpdate key value expected =>
    refine Or.inr ⟨key, value, expected, rfl, tryUpdate_refused h ?_⟩
    simpa [Operation.onTrie] using hanswer

/-- **Refused operations.** On a trie that came about by any operations, an operation that says it
    changed nothing leaves all entries, in their order.  It leaves the trie exactly as it was, node
    for node, unless it is an update of a key that is not there and has an entry in its way.  Such an
    update leaves every other node with its entry, and with or without its place for children, as it
    was, and adds nodes only below the one with the entry. -/
theorem run_refused [BEq α] (operations : List (Operation α)) (operation : Operation α)
    {trie : Trie α} (hrun : (run Operation.onTrie operations Trie.empty).2 = trie)
    (hrefused : Refused operation (operation.onTrie trie).1) :
    (operation.onTrie trie).2.entries = trie.entries
      ∧ ((operation.onTrie trie).2 = trie ↔ ∀ path, ¬ operation.Obstructed trie path)
      ∧ (∀ path node, trie.root.at? path = some node → ¬ operation.Obstructed trie path →
          ∃ kept, (operation.onTrie trie).2.root.at? path = some kept ∧ kept.Alike node)
      ∧ ∀ path left, (operation.onTrie trie).2.root.at? path = some left →
          (∃ node, trie.root.at? path = some node)
            ∨ ∃ front, front <+: path ∧ operation.Obstructed trie front := by
  have hvalid : trie.root.Valid [] := hrun ▸ (Models.empty.run operations).2.valid
  rcases refused_cases hvalid hrefused with ⟨hleft, hfree⟩ | ⟨key, value, expected, rfl, hwalked⟩
  · rw [hleft]
    refine ⟨rfl, iff_of_true rfl hfree, ?_, ?_⟩
    · exact fun path node hat _ => ⟨node, hat, .refl node⟩
    · exact fun path left hat => Or.inl ⟨left, hat⟩
  · have hroot : ∀ left : Trie α, left = trie ↔ left.root = trie.root := fun left =>
      ⟨congrArg Trie.root, fun hroot => congrArg Trie.mk hroot⟩
    have hobstructed : ∀ path node, path <+: key → trie.root.at? path = some node →
        node.InTheWay key → (Operation.tryUpdate key value expected).Obstructed trie path :=
      fun path node hpath hat hway =>
        ⟨find?_of_inTheWay hvalid hpath hat hway, hpath, node, hat, hway⟩
    refine ⟨hwalked.entries, ?_, ?_, ?_⟩
    · rw [hroot, hwalked.eq_iff]
      constructor
      · rintro hfree path ⟨-, hpath, node, hat, hway⟩
        exact hfree path node hpath hat hway
      · intro hfree path node hpath hat hway
        exact hfree path (hobstructed path node hpath hat hway)
    · intro path node hat hfree
      apply hwalked.kept path node hat
      rintro ⟨hpath, hway⟩
      exact hfree (hobstructed path node hpath hat hway)
    · intro path left hat
      rcases hwalked.added path left hat with hold | ⟨front, node, hbelow, hrest, hfound, hway⟩
      · exact Or.inl hold
      · exact Or.inr ⟨front, hbelow, hobstructed front node hrest hfound hway⟩

/-- Two keys in a trie, one of which waits for others above its end. -/
def waitingOperations : List (Operation Nat) := [.add [1, 2] 0, .add [2] 1]

def waitingTrie : Trie Nat := (run Operation.onTrie waitingOperations Trie.empty).2

/-- An update of a key that is not there opens the node in which the other one waits. -/
theorem tryUpdate_opens :
    Refused (.tryUpdate [1, 3] 5 0) ((Operation.tryUpdate [1, 3] 5 0).onTrie waitingTrie).1
      ∧ waitingTrie.root.at? [1, 2] = none
      ∧ ((waitingTrie.tryUpdate [1, 3] 5 0).2.root.at? [1, 2]).bind (·.entry) = some ⟨[1, 2], 0⟩
      ∧ ((Operation.tryUpdate [1, 3] 5 0).onTrie waitingTrie).2 ≠ waitingTrie := by
  have hbefore : waitingTrie.root.at? [1, 2] = none := rfl
  have hafter : ((waitingTrie.tryUpdate [1, 3] 5 0).2.root.at? [1, 2]).bind (·.entry)
      = some ⟨[1, 2], 0⟩ := rfl
  refine ⟨.tryUpdate [1, 3] 5 0, hbefore, hafter, fun hsame => ?_⟩
  have hroot : (waitingTrie.tryUpdate [1, 3] 5 0).2 = waitingTrie := hsame
  rw [hroot, hbefore] at hafter
  exact absurd hafter (by simp)

/-- An addition over a key that is there, and an update that has nothing in its way. -/
theorem run_refused_waiting :
    (waitingTrie.tryAdd [1, 2] 7).2 = waitingTrie
      ∧ (waitingTrie.tryUpdate [3] 5 0).2 = waitingTrie
      ∧ (waitingTrie.tryUpdate [1, 3] 5 0).2.entries = waitingTrie.entries
      ∧ (waitingTrie.tryUpdate [1, 3] 5 0).2 ≠ waitingTrie := by
  obtain ⟨-, hadd, -⟩ := run_refused waitingOperations (.tryAdd [1, 2] 7) rfl
    (.tryAdd [1, 2] 7)
  obtain ⟨-, hupdate, -⟩ := run_refused waitingOperations (.tryUpdate [3] 5 0) rfl
    (.tryUpdate [3] 5 0)
  obtain ⟨hentries, hopened, -⟩ := run_refused waitingOperations (.tryUpdate [1, 3] 5 0) rfl
    (.tryUpdate [1, 3] 5 0)
  refine ⟨hadd.mpr fun _ => id, hupdate.mpr ?_, hentries, fun hsame => ?_⟩
  · rintro path ⟨-, hpath, node, hat, -, -, -, hnone⟩
    cases path with
    | nil =>
      obtain rfl : waitingTrie.root = node := Option.some.inj hat
      have hslots : waitingTrie.root.children.isSome = true := rfl
      rw [hnone] at hslots
      exact absurd hslots (by simp)
    | cons first path =>
      obtain ⟨rfl, -⟩ := List.cons_prefix_cons.mp hpath
      have habsent : waitingTrie.root.at? (3 :: path) = none := rfl
      exact absurd (habsent.symm.trans hat) (by simp)
  · exact hopened.mp hsame [1] ⟨rfl, by decide, _, rfl, _, rfl, by decide, rfl⟩

end DnsResolver.Trie
