import DnsResolver.Proofs.Trie.Insert

namespace DnsResolver.Trie.Node

/-!
# What an erasure does

An erasure below a valid node leaves a valid node that is not empty, or nothing at all, and
takes away what is found under its key and nothing else.

* `cleaned_eq` — what an inspection keeps of a node.
* `Remains` — what an erasure has left; `erase?_spec` shows it by induction on the rest of
  the key, from the bottom up.
-/

variable {α : Type} {path rest key : Key} {node child : Node α} {slots : Slots (Node α)}
  {octet : UInt8} {entry : Entry α}

/-! ### Inspecting a node -/

/-- An inspection unlinks a node with neither an entry nor children, and drops a place for
    children that holds none. -/
theorem cleaned_eq (node : Node α) (hstanding : node.standing = .attached) :
    node.cleaned
      = match node.children with
        | some (slot :: slots) => some { node with children := some (slot :: slots) }
        | _ => if node.entry = none then none else some { node with children := none } := by
  obtain ⟨depth, octet, standing, entry, children⟩ := node
  obtain rfl : standing = .attached := hstanding
  cases entry <;> rcases children with _ | _ | ⟨slot, slots⟩ <;> rfl

/-! ### What is left of a node -/

/-- What an erasure has left of a node when it ends: `rest` is the part of its key below the
    node. -/
structure Remains (path rest : Key) (node : Node α) (left : Option (Node α)) : Prop where
  valid : ∀ kept, left = some kept → Valid path kept
  full : ∀ kept, left = some kept → kept.isVacant = false
  found : ∀ other, left.bind (find? (path ++ other) other)
    = if other = rest then none else node.find? (path ++ other) other

/-- A node is left, and nothing but the erased key is missing below it. -/
theorem Remains.of_some {kept : Node α} (hvalid : Valid path kept) (hfull : kept.isVacant = false)
    (hfound : ∀ other, kept.find? (path ++ other) other
      = if other = rest then none else node.find? (path ++ other) other) :
    Remains path rest node (some kept) := by
  refine ⟨?_, ?_, hfound⟩
  · rintro other hother
    obtain rfl := Option.some.inj hother
    exact hvalid
  · rintro other hother
    obtain rfl := Option.some.inj hother
    exact hfull

/-- Nothing is left, because nothing but the erased key was below the node. -/
theorem Remains.of_none
    (hnone : ∀ other, other ≠ rest → node.find? (path ++ other) other = none) :
    Remains path rest node none := by
  refine ⟨by simp, by simp, fun other => ?_⟩
  by_cases hrest : other = rest
  · rw [if_pos hrest, Option.bind_none]
  · rw [if_neg hrest, hnone other hrest, Option.bind_none]

/-! ### Taking the entry out of a node -/

/-- An entry is not needed where children hang. -/
theorem Valid.withoutEntry {slot : UInt8 × Node α} (h : Valid path node)
    (hslots : node.children = some (slot :: slots)) :
    Valid path ({ node with entry := none, children := some (slot :: slots) } : Node α) := by
  refine .intro { h.fits with
    under := ?_, unparked := ?_, occupied := ?_, ordered := ?_, linked := ?_ } ?_
  · exact fun _ hnone => absurd hnone (by simp)
  · exact fun _ _ hnone => absurd hnone (by simp)
  · exact fun hnil => absurd hnil (by simp)
  · exact fun slots' hslots' => h.fits.ordered slots' (hslots.trans hslots')
  · exact fun slots' octet child hslots' => h.fits.linked slots' octet child (hslots.trans hslots')
  · exact fun slots' octet child hslots' hchild => h.slot (hslots.trans hslots') hchild

theorem Remains.of_entry (h : Valid path node) (hentry : node.entry = some entry)
    (hkey : entry.key = path ++ rest) :
    Remains path rest node ({ node with entry := none } : Node α).cleaned := by
  rw [cleaned_eq { node with entry := none } h.fits.standing]
  have hother : ∀ other, other ≠ rest →
      node.entry.filter (fun e : Entry α => decide (e.key = path ++ other)) = none := by
    intro other hother
    rw [hentry, Option.filter_some, if_neg (by simpa [hkey] using Ne.symm hother)]
  -- The entry was all there was, unless children hang below it.
  rcases hslots : node.children with _ | _ | ⟨slot, slots⟩
  · refine Remains.of_none fun other hrest => ?_
    rw [find?_leaf _ _ hslots, hother other hrest]
  · refine Remains.of_none fun other hrest => ?_
    cases other with
    | nil => rw [find?_nil, hother [] hrest]
    | cons octet other => rw [find?_slot h hslots, List.lookup_nil, Option.bind_none]
  · obtain rfl : rest = [] := by
      rw [h.fits.unparked entry _ hentry hslots] at hkey
      simpa using hkey
    have hvalid := h.withoutEntry hslots
    refine Remains.of_some hvalid (by simp [isVacant]) fun other => ?_
    cases other with
    | nil => simp [find?_nil]
    | cons octet other =>
      rw [if_neg (List.cons_ne_nil _ _), find?_slot hvalid rfl, find?_slot h hslots]

/-! ### Unlinking a child -/

/-- An entry that stood above children stays when the place for them goes. -/
theorem Valid.withoutChildren (h : Valid path node) (hentry : node.entry = some entry) :
    Valid path ({ node with entry := some entry, children := none } : Node α) := by
  refine .intro { h.fits with
    under := ?_, unparked := ?_, occupied := ?_, ordered := ?_, linked := ?_ } ?_
  · exact fun other hother => h.fits.under other (hentry.trans hother)
  · exact fun _ _ _ hnone => absurd hnone (by simp)
  · exact fun hnone => absurd hnone (by simp)
  · exact fun _ hnone => absurd hnone (by simp)
  · exact fun _ _ _ hnone => absurd hnone (by simp)
  · exact fun _ _ _ hnone => absurd hnone (by simp)

/-- The other children stay where they are. -/
theorem Valid.withoutChild {slot : UInt8 × Node α} {kept : Slots (Node α)} (h : Valid path node)
    (hslots : node.children = some slots) (herase : Slots.erase octet slots = slot :: kept) :
    Valid path ({ node with children := some (slot :: kept) } : Node α) := by
  have hinside : ∀ other child, (slot :: kept).lookup other = some child →
      slots.lookup other = some child := by
    intro other child hchild
    rw [← herase, Slots.lookup_erase] at hchild
    by_cases hother : other = octet
    · rw [if_pos hother] at hchild
      exact absurd hchild (by simp)
    · rwa [if_neg hother] at hchild
  refine .intro { h.fits with unparked := ?_, occupied := ?_, ordered := ?_, linked := ?_ } ?_
  · exact fun entry _ hentry _ => h.fits.unparked entry slots hentry hslots
  · exact fun hnil => absurd hnil (by simp)
  · intro slots' hslots'
    rw [← Option.some.inj hslots', ← herase]
    exact (h.fits.ordered slots hslots).erase octet
  · intro slots' other child hslots' hchild
    obtain rfl := Option.some.inj hslots'
    exact h.fits.linked slots other child hslots (hinside other child hchild)
  · intro slots' other child hslots' hchild
    obtain rfl := Option.some.inj hslots'
    exact h.slot hslots (hinside other child hchild)

/-- The erased child was the last one: the place for children goes, and the node with it if it
    has no entry. -/
private theorem Remains.of_last {more : Key} (h : Valid path node)
    (hslots : node.children = some slots)
    (hnone : ∀ first other, first :: other ≠ octet :: more →
      node.find? (path ++ first :: other) (first :: other) = none) :
    Remains path (octet :: more) node
      (if node.entry = none then none else some { node with children := none }) := by
  rcases Option.eq_none_or_eq_some node.entry with hentry | ⟨entry, hentry⟩
  · rw [if_pos hentry]
    refine Remains.of_none fun other hother => ?_
    cases other with
    | nil => rw [find?_nil, hentry, Option.filter_none]
    | cons first other => exact hnone first other hother
  · have hkey := h.fits.unparked entry slots hentry hslots
    simp only [hentry, reduceCtorEq, if_false]
    refine Remains.of_some (h.withoutChildren hentry) (by simp [isVacant]) fun other => ?_
    rw [find?_leaf _ _ rfl]
    cases other with
    | nil => simp [find?_nil, hentry]
    | cons first other =>
      rw [Option.filter_some, if_neg (by simp [hkey])]
      by_cases hother : first :: other = octet :: more
      · rw [if_pos hother]
      · rw [if_neg hother, hnone first other hother]

/-- A node below which nothing is left of a child. -/
theorem Remains.of_unlinked {more : Key} (h : Valid path node) (hslots : node.children = some slots)
    (hgone : ∀ other, other ≠ more →
      node.find? (path ++ octet :: other) (octet :: other) = none) :
    Remains path (octet :: more) node (node.afterErase slots octet none) := by
  rw [afterErase, cleaned_eq { node with children := _ } h.fits.standing]
  have hlookup := fun other => Slots.lookup_erase octet other slots
  rcases herase : Slots.erase octet slots with _ | ⟨slot, kept⟩
  · refine Remains.of_last h hslots fun first other hne => ?_
    by_cases hfirst : first = octet
    · subst hfirst
      exact hgone other (by simpa using hne)
    · have hslot := hlookup first
      rw [herase, if_neg hfirst, List.lookup_nil] at hslot
      rw [find?_slot h hslots, ← hslot, Option.bind_none]
  · have hvalid := h.withoutChild hslots herase
    refine Remains.of_some hvalid (by simp [isVacant]) fun other => ?_
    cases other with
    | nil => rfl
    | cons first other =>
      rw [find?_slot hvalid rfl, ← herase, hlookup]
      -- Under the octet of the child nothing is left; under the others nothing changed.
      by_cases hfirst : first = octet
      · subst hfirst
        rw [if_pos rfl, Option.bind_none]
        by_cases hother : other = more
        · rw [hother, if_pos rfl]
        · rw [if_neg (by simpa using hother), hgone other hother]
      · rw [if_neg hfirst, if_neg (by simp [hfirst]), find?_slot h hslots]

/-- A node below which a child stays. -/
theorem Remains.of_child {more : Key} {kept : Node α} (h : Valid path node)
    (hslots : node.children = some slots) (hlookup : slots.lookup octet = some child)
    (hremains : Remains (path ++ [octet]) more child (some kept)) :
    Remains path (octet :: more) node (node.afterErase slots octet (some kept)) := by
  have hvalid := hremains.valid kept rfl
  have hfull := hremains.full kept rfl
  have hfound := hremains.found
  refine Remains.of_some (h.withChild hslots hvalid hfull) (by simp [isVacant, withChild])
    fun other => ?_
  rw [h.find?_withChild hslots hvalid hfull]
  cases other with
  | nil => rfl
  | cons first other =>
    by_cases hfirst : first = octet
    · subst hfirst
      have hchild := hfound other
      simp only [Option.bind_some, List.append_assoc, List.singleton_append] at hchild
      simp only [if_true, List.cons.injEq, true_and]
      rw [hchild, find?_slot h hslots, hlookup, Option.bind_some]
    · simp only [if_neg hfirst]
      rw [if_neg (by simp [hfirst])]

/-! ### Whole erasures -/

/-- An entry in the node itself is the one that is erased. -/
private theorem erase?_here (hentry : node.entry.filter (·.key = key) = some entry) :
    node.erase? key rest = some (entry, ({ node with entry := none } : Node α).cleaned) := by
  rw [erase?.eq_def]
  simp only [hentry]

/-- Without an entry of its own a node leaves the erasure to a child. -/
private theorem erase?_below (hentry : node.entry.filter (·.key = key) = none) :
    node.erase? key rest
      = match rest, node.children with
        | octet :: rest, some slots =>
          (slots.lookup octet).bind fun child =>
            (child.erase? key rest).map fun found =>
              (found.1, node.afterErase slots octet found.2)
        | _, _ => none := by
  rw [erase?.eq_def]
  simp only [hentry]
  rcases rest with _ | ⟨octet, rest⟩
  · rfl
  · rcases node.children with _ | slots
    · rfl
    · simp only
      rcases slots.lookup octet with _ | child
      · rfl
      · simp only [Option.bind_some]
        rcases child.erase? key rest with _ | ⟨found, left⟩ <;> rfl

/-- What an erasure below a node does, by its answer. -/
def Erased (path rest : Key) (node : Node α) : Option (Entry α × Option (Node α)) → Prop
  | none => node.find? (path ++ rest) rest = none
  | some (entry, left) =>
    node.find? (path ++ rest) rest = some entry ∧ Remains path rest node left

/-- **Erasure.** An erasure fails exactly when its key is not there; otherwise it hands out the
    entry, and what it leaves has everything else. -/
theorem erase?_spec (h : Valid path node) :
    Erased path rest node (node.erase? (path ++ rest) rest) := by
  induction rest generalizing path node with
  | nil =>
    cases hentry : node.entry.filter (fun e : Entry α => decide (e.key = path ++ [])) with
    | some entry =>
      obtain ⟨hmine, hkey⟩ := Option.filter_eq_some_iff.mp hentry
      rw [erase?_here hentry]
      exact ⟨hentry, Remains.of_entry h hmine (by simpa using hkey)⟩
    | none =>
      rw [erase?_below hentry]
      exact hentry
  | cons octet more ih =>
    cases hentry : node.entry.filter (fun e : Entry α => decide (e.key = path ++ octet :: more)) with
    | some entry =>
      obtain ⟨hmine, hkey⟩ := Option.filter_eq_some_iff.mp hentry
      rw [erase?_here hentry]
      exact ⟨by rw [find?, hentry], Remains.of_entry h hmine (by simpa using hkey)⟩
    | none =>
      rw [erase?_below hentry]
      rcases hslots : node.children with _ | slots
      · exact (find?_leaf _ _ hslots).trans hentry
      have hbelow := find?_slot h hslots octet
      simp only
      cases hlookup : slots.lookup octet with
      | none =>
        show node.find? (path ++ octet :: more) (octet :: more) = none
        rw [hbelow, hlookup, Option.bind_none]
      | some child =>
        -- The child's own path is one octet longer, and the key goes on behind it.
        have hkey : path ++ [octet] ++ more = path ++ octet :: more := by simp
        have hfind : node.find? (path ++ octet :: more) (octet :: more)
            = child.find? (path ++ [octet] ++ more) more := by
          rw [hbelow, hlookup, Option.bind_some, hkey]
        have hchild := ih (h.slot hslots hlookup)
        rw [Option.bind_some, ← hkey]
        cases herase : child.erase? (path ++ [octet] ++ more) more with
        | none =>
          rw [herase] at hchild
          exact hfind.trans hchild
        | some found =>
          obtain ⟨entry, left⟩ := found
          rw [herase] at hchild
          obtain ⟨hfound, hremains⟩ := hchild
          refine ⟨hfind.trans hfound, ?_⟩
          cases left with
          | some kept => exact Remains.of_child h hslots hlookup hremains
          | none =>
            -- Nothing is left of the child, so it had no other key.
            refine Remains.of_unlinked h hslots fun other hother => ?_
            have hgone := hremains.found other
            rw [Option.bind_none, if_neg hother] at hgone
            rw [hbelow, hlookup, Option.bind_some]
            simpa using hgone.symm

end DnsResolver.Trie.Node
