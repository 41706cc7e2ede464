import DnsResolver.Proofs.Client.Following

namespace DnsResolver

/-!
# Whose records are collected

Records are collected while the name that is followed still moves.  So a record belongs to the name
that the path had come to where the record stands, and this need not be the name at its end: what
stands in front of a CNAME record that is followed is kept.

* `Followed.path_append`, `Followed.collected_append` — an answer is followed part by part.
* `Followed.AliasesFirst` — that nothing is collected in front of a CNAME record that is followed.
* `Followed.ofAnswer_owners` — the records are those of the final name exactly if the aliases come
  first.
* `Followed.ofAnswer_exclusive` — they are if no name has both an alias and a record of the type.
-/

namespace Followed

variable {type : RecordType} {name domain : Name} {record : Record} {rest answer : List Record}
  {followed : Followed}

/-! ### Answers in parts -/

theorem path_append (front back : List Record) :
    path type name (front ++ back)
      = path type name front ++ path type (goal type name front) back := by
  induction front generalizing name with
  | nil => rfl
  | cons record rest ih =>
    cases halias : record.alias? type name with
    | none =>
      rw [List.cons_append, path_of_none halias, path_of_none halias, goal_of_none halias, ih]
    | some next =>
      rw [List.cons_append, path_of_alias halias, path_of_alias halias, goal_of_alias halias, ih,
        List.cons_append]

theorem goal_append (front back : List Record) :
    goal type name (front ++ back) = goal type (goal type name front) back := by
  induction front generalizing name with
  | nil => rfl
  | cons record rest ih =>
    cases halias : record.alias? type name with
    | none => rw [List.cons_append, goal_of_none halias, goal_of_none halias, ih]
    | some next => rw [List.cons_append, goal_of_alias halias, goal_of_alias halias, ih]

theorem collected_append (front back : List Record) :
    collected type name (front ++ back)
      = collected type name front ++ collected type (goal type name front) back := by
  induction front generalizing name with
  | nil => rfl
  | cons record rest ih =>
    cases halias : record.alias? type name with
    | none =>
      rw [List.cons_append, collected_of_none halias, collected_of_none halias,
        goal_of_none halias, ih]
      split <;> rfl
    | some next =>
      rw [List.cons_append, collected_of_alias halias, collected_of_alias halias,
        goal_of_alias halias, ih]

theorem goal_of_path_nil (h : path type name answer = []) : goal type name answer = name := by
  rw [goal, h, List.getLastD_nil]

/-- A path that goes on does so at the first record that is an alias of its name. -/
theorem exists_alias_of_path (h : path type name answer ≠ []) :
    ∃ front link back, answer = front ++ link :: back
      ∧ path type name front = [] ∧ link.alias? type name ≠ none := by
  induction answer generalizing name with
  | nil => exact absurd rfl h
  | cons record rest ih =>
    cases halias : record.alias? type name with
    | some next => exact ⟨[], record, rest, rfl, rfl, by simp [halias]⟩
    | none =>
      obtain ⟨front, link, back, rfl, hfront, hlink⟩ := ih (path_of_none halias ▸ h)
      exact ⟨record :: front, link, back, rfl, (path_of_none halias).trans hfront, hlink⟩

/-- The owner of a collected record is one of the names on the path. -/
theorem fold_mem_of_mem_collected (h : record ∈ collected type name answer) :
    record.name.fold ∈ (name :: path type name answer).map Name.fold := by
  obtain ⟨_, front, back, rfl, howner⟩ := exists_of_mem_collected h
  rw [(Name.sameAs_iff _ _).mp howner, path_append]
  exact List.mem_map_of_mem (List.mem_append_left _ (goal_mem type name front))

/-! ### Answers whose aliases come first -/

/-- That nothing is collected from an answer in front of a CNAME record that is followed. -/
def AliasesFirst (type : RecordType) (name : Name) (answer : List Record) : Prop :=
  ∀ front link back, answer = front ++ link :: back →
    link.alias? type (goal type name front) ≠ none → collected type name front = []

theorem aliasesFirst_of_alias {next : Name} (halias : record.alias? type name = some next)
    (h : AliasesFirst type name (record :: rest)) : AliasesFirst type next rest := by
  rintro front link back rfl hlink
  have hfront := h (record :: front) link back rfl ((goal_of_alias halias).symm ▸ hlink)
  rwa [collected_of_alias halias] at hfront

theorem aliasesFirst_of_none (halias : record.alias? type name = none)
    (h : AliasesFirst type name (record :: rest)) : AliasesFirst type name rest := by
  rintro front link back rfl hlink
  have hfront := h (record :: front) link back rfl ((goal_of_none halias).symm ▸ hlink)
  rw [collected_of_none halias] at hfront
  split at hfront
  · exact absurd hfront (List.cons_ne_nil _ _)
  · exact hfront

/-- Behind a record that is kept the path goes no further. -/
theorem path_nil_of_kept (halias : record.alias? type name = none)
    (hkept : record.name.sameAs name = true ∧ record.type = type)
    (h : AliasesFirst type name (record :: rest)) : path type name rest = [] := by
  by_contra hpath
  obtain ⟨front, link, back, rfl, hfront, hlink⟩ := exists_alias_of_path hpath
  have hnone := h (record :: front) link back rfl
    (by rwa [goal_of_none halias, goal_of_path_nil hfront])
  rw [collected_of_none halias, if_pos hkept] at hnone
  exact List.cons_ne_nil _ _ hnone

/-- Where the aliases come first, all that is collected is owned by the name at the end. -/
theorem sameAs_goal (h : AliasesFirst type name answer)
    (hmem : record ∈ collected type name answer) :
    record.name.sameAs (goal type name answer) = true := by
  induction answer generalizing name with
  | nil => exact absurd hmem List.not_mem_nil
  | cons first rest ih =>
    cases halias : first.alias? type name with
    | some next =>
      rw [goal_of_alias halias]
      exact ih (aliasesFirst_of_alias halias h) (collected_of_alias halias ▸ hmem)
    | none =>
      rw [goal_of_none halias]
      rw [collected_of_none halias] at hmem
      split at hmem
      · next hkept =>
        rcases List.mem_cons.mp hmem with rfl | hrest
        · rw [goal_of_path_nil (path_nil_of_kept halias hkept h)]
          exact hkept.1
        · exact ih (aliasesFirst_of_none halias h) hrest
      · exact ih (aliasesFirst_of_none halias h) hmem

/-- What is collected in front of a CNAME record that is followed is not owned by the name at the
    end, as no name comes twice. -/
theorem not_sameAs_goal {front back : List Record} {link : Record}
    (hnodup : ((name :: path type name (front ++ link :: back)).map Name.fold).Nodup)
    (hlink : link.alias? type (goal type name front) ≠ none)
    (hmem : record ∈ collected type name front) :
    record.name.sameAs (goal type name (front ++ link :: back)) = false := by
  obtain ⟨next, hnext⟩ := Option.ne_none_iff_exists'.mp hlink
  rw [path_append, path_of_alias hnext, ← List.cons_append, List.map_append] at hnodup
  rw [goal_append, goal_of_alias hnext]
  refine Bool.eq_false_iff.mpr fun hsame => ?_
  -- The owner would stand on the path both before and after the link.
  have hbefore := fold_mem_of_mem_collected hmem
  have hafter := List.mem_map_of_mem (f := Name.fold) (goal_mem type next back)
  rw [← (Name.sameAs_iff _ _).mp hsame] at hafter
  exact List.disjoint_of_nodup_append hnodup hbefore hafter

/-! ### The records of the final name -/

/-- An answer is followed to its end exactly if no name on its path comes twice. -/
theorem ofAnswer_eq_ok_iff :
    ofAnswer answer domain type = .ok followed
      ↔ ((domain :: path type domain answer).map Name.fold).Nodup
        ∧ followed = ⟨collected type domain answer, goal type domain answer⟩ := by
  rw [ofAnswer_eq_path]
  split
  · next hnodup => simp only [Except.ok.injEq, hnodup, true_and, eq_comm]
  · next hnodup => simp only [reduceCtorEq, hnodup, false_and]

/-- **Whose records are returned.** Whenever an answer is followed to an end, each record that is
    returned has the type that is looked for and is owned by the name that had been reached where it
    stands.  All of them are owned by the name at the end exactly if nothing is collected in front
    of a CNAME record that is followed. -/
theorem ofAnswer_owners (h : ofAnswer answer domain type = .ok followed) :
    (∀ record ∈ followed.records, record.type = type
        ∧ ∃ front back, answer = front ++ record :: back
          ∧ record.name.sameAs (goal type domain front) = true)
      ∧ ((∀ record ∈ followed.records, record.name.sameAs followed.target = true)
          ↔ AliasesFirst type domain answer) := by
  obtain ⟨hnodup, rfl⟩ := ofAnswer_eq_ok_iff.mp h
  refine ⟨fun record hmem => exists_of_mem_collected hmem, ?_, ?_⟩
  · rintro howned front link back rfl hlink
    refine List.eq_nil_iff_forall_not_mem.mpr fun record hmem => ?_
    have hkept : record ∈ collected type domain (front ++ link :: back) :=
      collected_append front (link :: back) ▸ List.mem_append_left _ hmem
    have hother := not_sameAs_goal hnodup hlink hmem
    exact Bool.false_ne_true (hother.symm.trans (howned record hkept))
  · exact fun hfirst record hmem => sameAs_goal hfirst hmem

namespace Stale

/-- The name that is asked for. -/
def asked : Name := ⟨['w']⟩

/-- The name that it is an alias of. -/
def behind : Name := ⟨['c']⟩

/-- The record that says so. -/
def link : Record := ⟨asked, .cname, .internet, 60, none, .cname behind⟩

/-- An address of a name. -/
def address (owner : Name) : Record := ⟨owner, .a, .internet, 60, none, .a ⟨192, 0, 2, 7⟩⟩

end Stale

open Stale in
/-- The address behind an alias is one of the final name, and stands behind the alias. -/
theorem ofAnswer_owners_ordered :
    ofAnswer [link, address behind] asked .a = .ok ⟨[address behind], behind⟩
      ∧ AliasesFirst .a asked [link, address behind] := by
  have hfollowed : ofAnswer [link, address behind] asked .a = .ok ⟨[address behind], behind⟩ := by
    cbv
  exact ⟨hfollowed, (ofAnswer_owners hfollowed).2.mp (by decide)⟩

open Stale in
/-- An address in front of the alias of its owner is returned beside the address of the final
    name. -/
theorem ofAnswer_owners_stale :
    ¬ ∀ (answer : List Record) (domain : Name) (type : RecordType) (followed : Followed),
        ofAnswer answer domain type = .ok followed → ∀ record ∈ followed.records,
          record.type = type ∧ record.name.sameAs followed.target = true := by
  intro h
  have hfollowed : ofAnswer [address asked, link, address behind] asked .a
      = .ok ⟨[address asked, address behind], behind⟩ := by cbv
  have howner := (h _ _ _ _ hfollowed (address asked) List.mem_cons_self).2
  exact absurd howner (by decide)

/-! ### Answers in which an alias stands alone -/

/-- That no name has both an alias and a record of the type that is looked for. -/
def Exclusive (type : RecordType) (answer : List Record) : Prop :=
  ∀ link ∈ answer, ∀ owner, link.alias? type owner ≠ none →
    ∀ record ∈ answer, record.type = type → record.name.sameAs owner = false

theorem Exclusive.tail (h : Exclusive type (record :: rest)) : Exclusive type rest :=
  fun link hlink owner halias kept hkept =>
    h link (List.mem_cons_of_mem _ hlink) owner halias kept (List.mem_cons_of_mem _ hkept)

/-- A name that owns a record of the type leads nowhere. -/
theorem Exclusive.path_nil (h : Exclusive type (record :: rest))
    (hkept : record.name.sameAs name = true ∧ record.type = type) : path type name rest = [] := by
  by_contra hpath
  obtain ⟨front, link, back, rfl, _, hlink⟩ := exists_alias_of_path hpath
  have hother := h link (by simp) name hlink record List.mem_cons_self hkept.2
  exact Bool.false_ne_true (hother.symm.trans hkept.1)

theorem aliasesFirst_of_exclusive (h : Exclusive type answer) : AliasesFirst type name answer := by
  induction answer generalizing name with
  | nil => exact fun front link back hsplit => absurd hsplit (by simp)
  | cons record rest ih =>
    intro front link back hsplit hlink
    cases front with
    | nil => rfl
    | cons first front =>
      obtain ⟨rfl, hrest⟩ := List.cons.inj hsplit
      cases halias : record.alias? type name with
      | some next =>
        rw [collected_of_alias halias]
        exact ih h.tail front link back hrest (goal_of_alias halias ▸ hlink)
      | none =>
        have hfront : collected type name front = [] :=
          ih h.tail front link back hrest (goal_of_none halias ▸ hlink)
        rw [collected_of_none halias, hfront]
        refine if_neg fun hkept => ?_
        obtain ⟨next, hnext⟩ := Option.ne_none_iff_exists'.mp (goal_of_none halias ▸ hlink)
        have hpath := h.path_nil hkept
        rw [hrest, List.append_eq, path_append, path_of_alias hnext] at hpath
        exact absurd hpath (by simp)

/-- **An alias stands alone.** If no name has both an alias and a record of the type that is looked
    for, as the names of a sound zone, then all that is returned is owned by the final name. -/
theorem ofAnswer_exclusive (hexclusive : Exclusive type answer)
    (h : ofAnswer answer domain type = .ok followed) :
    ∀ record ∈ followed.records, record.type = type ∧ record.name.sameAs followed.target = true := by
  obtain ⟨-, rfl⟩ := ofAnswer_eq_ok_iff.mp h
  exact fun record hmem => ⟨(exists_of_mem_collected hmem).1,
    sameAs_goal (aliasesFirst_of_exclusive hexclusive) hmem⟩

end Followed

end DnsResolver
