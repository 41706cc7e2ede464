import DnsResolver.Proofs.Trie.Erase

namespace DnsResolver.Trie

/-!
# Changing a trie

What the operations that change a trie leave of what is found in it.

* `upsert_spec` — an insertion changes what is found under its key, and nothing else.
* `erase_spec`, `eraseWhere_spec`, `clear_spec` — an erasure takes away what it is to take away.
-/

variable {α : Type}

variable {trie : Trie α} {key : Key} {value : α}

/-- What is found under a key is an entry of the trie. -/
theorem find?_eq_some_iff (h : trie.root.Valid []) :
    trie.find? key = some value ↔ ⟨key, value⟩ ∈ trie.entries := by
  rw [find?, Option.map_eq_some_iff, entries, h.mem_entries_iff]
  constructor
  · rintro ⟨entry, hentry, hvalue⟩
    have hkey := Node.key_of_find? hentry
    subst hkey hvalue
    exact ⟨entry.key, rfl, hentry⟩
  · rintro ⟨rest, hkey, hentry⟩
    obtain rfl : key = rest := hkey
    exact ⟨_, hentry, rfl⟩

/-! ### One key -/

/-- An insertion puts under its key what its choice makes of the value there, changes no other
    key, and tells which of both it did. -/
theorem upsert_spec (h : trie.root.Valid []) (key : Key) (choose : Option α → Option α) :
    (trie.upsert key choose).1.root.Valid []
      ∧ (∀ other, (trie.upsert key choose).1.find? other
          = if other = key then (choose (trie.find? key)).or (trie.find? key) else trie.find? other)
      ∧ ∃ present : Option (Entry α), present.map (·.value) = trie.find? key
        ∧ (trie.upsert key choose).2
          = match choose (trie.find? key) with
            | some value => .stored present ⟨key, value⟩
            | none => .unchanged present := by
  let choice (present : Option (Entry α)) : Option (Entry α) :=
    (choose (present.map (·.value))).map fun value => ⟨key, value⟩
  have hchoice : ∀ found entry, choice found = some entry → entry.key = key := by
    intro found entry hentry
    obtain ⟨value, _, rfl⟩ := Option.map_eq_some_iff.mp hentry
    rfl
  have hplaced : Node.Placed choice [] key trie.root
      (Node.place choice key (Node.enoughMoves key) trie.root) := by
    refine Node.place_spec hchoice h (List.nil_append key).symm ?_
    unfold Node.enoughMoves
    omega
  have hupsert : trie.upsert key choose
      = (⟨(Node.place choice key (Node.enoughMoves key) trie.root).1⟩,
        (Node.place choice key (Node.enoughMoves key) trie.root).2) := by
    simp only [upsert, Node.insert, h.fits.standing, reduceCtorEq, if_false, choice]
  have hfound : (trie.root.find? key key).map (·.value) = trie.find? key := rfl
  rw [hupsert]
  -- The choice sees entries; below, everything is about their values.
  refine ⟨hplaced.valid, fun other => ?_, trie.root.find? key key, hfound, ?_⟩
  · by_cases hother : other = key
    · subst hother
      have hhere := congrArg (Option.map (·.value)) hplaced.here
      simp only [List.nil_append, choice, hfound] at hhere
      rw [if_pos rfl, find?, hhere]
      cases choose (trie.find? other) <;> simp [hfound]
    · rw [if_neg hother, find?, find?]
      exact congrArg (Option.map (·.value)) (hplaced.others other hother)
  · have houtcome := hplaced.outcome
    simp only [List.nil_append, choice, hfound] at houtcome
    rw [houtcome]
    cases choose (trie.find? key) <;> rfl

/-- A trie that was cleared has the shape of one, and nothing in it. -/
theorem clear_spec (h : trie.root.Valid []) :
    trie.clear.root.Valid [] ∧ ∀ other, trie.clear.find? other = none := by
  refine ⟨?_, fun other => ?_⟩
  · have hroot := h.fits
    refine .intro { hroot with
      under := ?_, unparked := ?_, occupied := ?_, ordered := ?_, linked := ?_ } ?_ <;> simp [clear]
  · rw [find?, clear, Node.find?_leaf _ _ rfl, Option.filter_none, Option.map_none]

/-- An erasure hands out what is found under its key and takes it away. -/
theorem erase_spec (h : trie.root.Valid []) (key : Key) :
    (trie.erase key).2.root.Valid [] ∧ (trie.erase key).1 = trie.find? key
      ∧ ∀ other, (trie.erase key).2.find? other = if other = key then none else trie.find? other := by
  have hspec : Node.Erased [] key trie.root (trie.root.erase? key key) := Node.erase?_spec h
  unfold erase
  cases herase : trie.root.erase? key key with
  | none =>
    rw [herase] at hspec
    have hnone : trie.find? key = none := by
      rw [find?, show trie.root.find? key key = none from hspec, Option.map_none]
    refine ⟨h, hnone.symm, fun other => ?_⟩
    by_cases hother : other = key
    · rw [if_pos hother, hother, hnone]
    · rw [if_neg hother]
  | some found =>
    obtain ⟨entry, left⟩ := found
    rw [herase] at hspec
    obtain ⟨hfound, hremains⟩ := hspec
    have hvalue : trie.find? key = some entry.value := by
      rw [find?, show trie.root.find? key key = some entry from hfound, Option.map_some]
    have hothers := fun other => congrArg (Option.map (·.value)) (hremains.found other)
    simp only [List.nil_append] at hothers
    cases left with
    | some kept =>
      refine ⟨hremains.valid kept rfl, hvalue.symm, fun other => ?_⟩
      have hother := hothers other
      rw [Option.bind_some] at hother
      rw [find?, hother, find?]
      split <;> rfl
    | none =>
      -- Nothing is left of the root, so it is cleared: that was the last key.
      obtain ⟨hvalid, hcleared⟩ := clear_spec h
      refine ⟨hvalid, hvalue.symm, fun other => ?_⟩
      show trie.clear.find? other = _
      have hother := hothers other
      rw [Option.bind_none, Option.map_none] at hother
      rw [hcleared]
      by_cases hsame : other = key
      · rw [if_pos hsame]
      · rw [if_neg hsame] at hother ⊢
        exact hother

/-! ### Erasing several entries -/

/-- Several erasures take the keys they are given away, and no others. -/
theorem eraseAll_spec (h : trie.root.Valid []) (keys : List Key) :
    (trie.eraseAll keys).2.root.Valid []
      ∧ ∀ other, (trie.eraseAll keys).2.find? other
          = if other ∈ keys then none else trie.find? other := by
  induction keys generalizing trie with
  | nil => exact ⟨h, fun other => by simp [eraseAll]⟩
  | cons key keys ih =>
    obtain ⟨hvalid, _, hfind⟩ := erase_spec h key
    -- Whether or not the key is there, the others are erased from what its erasure leaves.
    have hleft : (trie.eraseAll (key :: keys)).2 = ((trie.erase key).2.eraseAll keys).2 := by
      rw [eraseAll]
      rcases trie.erase key with ⟨_ | value, left⟩ <;> rfl
    obtain ⟨hvalid', hfind'⟩ := ih hvalid
    rw [hleft]
    refine ⟨hvalid', fun other => ?_⟩
    rw [hfind', hfind]
    by_cases hkey : other = key <;> simp [hkey]

/-- Keys that are there, and come once each, are all counted. -/
theorem eraseAll_count (h : trie.root.Valid []) {keys : List Key} (hnodup : keys.Nodup)
    (hthere : ∀ key ∈ keys, trie.find? key ≠ none) : (trie.eraseAll keys).1 = keys.length := by
  induction keys generalizing trie with
  | nil => rfl
  | cons key keys ih =>
    obtain ⟨hvalid, hanswer, hfind⟩ := erase_spec h key
    obtain ⟨hfresh, hnodup⟩ := List.nodup_cons.mp hnodup
    have hrest : ((trie.erase key).2.eraseAll keys).1 = keys.length := by
      refine ih hvalid hnodup fun other hother => ?_
      have hne : other ≠ key := fun heq => hfresh (heq ▸ hother)
      rw [hfind, if_neg hne]
      exact hthere other (List.mem_cons_of_mem _ hother)
    have hsome := hthere key List.mem_cons_self
    rw [← hanswer] at hsome
    rw [eraseAll]
    rcases herase : trie.erase key with ⟨_ | value, left⟩
    · rw [herase] at hsome
      exact absurd rfl hsome
    · rw [herase] at hrest
      simp only [List.length_cons, ← hrest]

/-- An erasure of what a predicate selects takes that away, and counts it. -/
theorem eraseWhere_spec (h : trie.root.Valid []) (selects : Key → α → Bool) :
    (trie.eraseWhere selects).2.root.Valid []
      ∧ (∀ other, (trie.eraseWhere selects).2.find? other
          = (trie.find? other).filter fun value => !selects other value)
      ∧ (trie.eraseWhere selects).1
          = (trie.entries.filter fun entry => selects entry.key entry.value).length := by
  let selected := trie.entries.filter fun entry => selects entry.key entry.value
  -- The selection is made once, on the trie as it is before the first erasure.
  have hmem : ∀ key, key ∈ selected.map (·.key)
      ↔ ∃ value, trie.find? key = some value ∧ selects key value = true := by
    intro key
    simp only [selected, List.mem_map, List.mem_filter]
    constructor
    · rintro ⟨entry, ⟨hentry, hselects⟩, rfl⟩
      exact ⟨entry.value, (find?_eq_some_iff h).mpr hentry, hselects⟩
    · rintro ⟨value, hfind, hselects⟩
      exact ⟨⟨key, value⟩, ⟨(find?_eq_some_iff h).mp hfind, hselects⟩, rfl⟩
  obtain ⟨hvalid, hfind⟩ := eraseAll_spec h (selected.map (·.key))
  refine ⟨hvalid, fun other => ?_, ?_⟩
  · refine (hfind other).trans ?_
    by_cases hother : other ∈ selected.map (·.key)
    · obtain ⟨value, hvalue, hselects⟩ := (hmem other).mp hother
      rw [if_pos hother, hvalue, Option.filter_some, hselects]
      rfl
    · rw [if_neg hother]
      cases hvalue : trie.find? other with
      | none => rfl
      | some value =>
        have hselects : selects other value = false := by
          by_contra hselects
          exact hother ((hmem other).mpr ⟨value, hvalue, by simpa using hselects⟩)
        rw [Option.filter_some, hselects]
        rfl
  · -- No key is selected twice, so every erasure finds its entry.
    have hnodup : (selected.map (·.key)).Nodup :=
      h.nodup_keys.sublist (List.filter_sublist.map _)
    refine (eraseAll_count h hnodup fun key hkey => ?_).trans (List.length_map _)
    obtain ⟨value, hvalue, _⟩ := (hmem key).mp hkey
    rw [hvalue]
    exact Option.some_ne_none value

end DnsResolver.Trie
