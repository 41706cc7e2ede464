import DnsResolver.Client.Lookup
import DnsResolver.Proofs.Name.Folded
import Mathlib

namespace DnsResolver

/-!
# Following the aliases in an answer

An answer is read once from front to back, and each CNAME record of the name that has been reached
leads on to another name.  The names on this path and the records that are found along it are
described here on their own, as if nothing stopped a path that comes back; following an answer does
just that as long as the names are pairwise different.

* `Followed.path`, `Followed.collected` — the names and the records that an answer leads to.
* `Followed.exists_of_mem_collected` — a collected record is owned by the name it was met at.
* `Followed.ofAnswer_eq` — an answer is followed to its end exactly if no name comes twice.
* `Linked` — names that CNAME records lead to, each owned by the name before.
* `Followed.linked_goal`, `Followed.linked_collected` — an answer holds the links to where it leads.
-/

/-! ### Where an answer leads -/

/-- The name that a record leads to from a name, on the way to records of a type.  CNAME records
    that are looked for themselves lead nowhere. -/
def Record.alias? (type : RecordType) (name : Name) (record : Record) : Option Name :=
  match record.data with
  | .cname next => if type ≠ .cname ∧ record.name.sameAs name then some next.dropDots else none
  | _ => none

theorem Record.alias?_eq_some {type : RecordType} {name next : Name} {record : Record}
    (h : record.alias? type name = some next) :
    record.name.sameAs name = true
      ∧ ∃ target, record.data = .cname target ∧ target.dropDots = next := by
  unfold alias? at h
  split at h
  · next target hdata =>
    split at h
    · next howner => exact ⟨howner.2, target, hdata, Option.some.inj h⟩
    · exact absurd h (by simp)
  · exact absurd h (by simp)

namespace Followed

variable (type : RecordType)

/-- The names that an answer leads to from a name, one after the other. -/
def path : Name → List Record → List Name
  | _, [] => []
  | name, record :: rest =>
    match record.alias? type name with
    | some next => next :: path next rest
    | none => path name rest

/-- The records of a type that are found along the path from a name through an answer. -/
def collected : Name → List Record → List Record
  | _, [] => []
  | name, record :: rest =>
    match record.alias? type name with
    | some next => collected next rest
    | none =>
      if record.name.sameAs name = true ∧ record.type = type then record :: collected name rest
      else collected name rest

/-- The name at the end of the path from a name through an answer. -/
def goal (name : Name) (answer : List Record) : Name := (path type name answer).getLastD name

variable {type} {name target : Name} {record : Record} {rest answer : List Record}

theorem path_of_alias {next : Name} (h : record.alias? type name = some next) :
    path type name (record :: rest) = next :: path type next rest := by
  simp only [path, h]

theorem path_of_none (h : record.alias? type name = none) :
    path type name (record :: rest) = path type name rest := by
  simp only [path, h]

theorem collected_of_alias {next : Name} (h : record.alias? type name = some next) :
    collected type name (record :: rest) = collected type next rest := by
  simp only [collected, h]

theorem collected_of_none (h : record.alias? type name = none) :
    collected type name (record :: rest)
      = if record.name.sameAs name = true ∧ record.type = type then
          record :: collected type name rest
        else collected type name rest := by
  simp only [collected, h]

theorem goal_of_alias {next : Name} (h : record.alias? type name = some next) :
    goal type name (record :: rest) = goal type next rest := by
  rw [goal, path_of_alias h, List.getLastD_cons, goal]

theorem goal_of_none (h : record.alias? type name = none) :
    goal type name (record :: rest) = goal type name rest := by
  rw [goal, path_of_none h, goal]

theorem goal_mem (type : RecordType) (name : Name) (answer : List Record) :
    goal type name answer ∈ name :: path type name answer :=
  List.getLastD_mem_cons

/-- The names on a path have no trailing dots. -/
theorem dropDots_of_mem_path (h : target ∈ path type name answer) : target.dropDots = target := by
  induction answer generalizing name with
  | nil => exact absurd h List.not_mem_nil
  | cons record rest ih =>
    cases halias : record.alias? type name with
    | none => exact ih (path_of_none halias ▸ h)
    | some next =>
      rw [path_of_alias halias] at h
      rcases List.mem_cons.mp h with rfl | hrest
      · obtain ⟨_, _, _, rfl⟩ := Record.alias?_eq_some halias
        exact Name.dropDots_dropDots _
      · exact ih hrest

theorem dropDots_goal (h : name.dropDots = name) :
    (goal type name answer).dropDots = goal type name answer := by
  rcases List.mem_cons.mp (goal_mem type name answer) with hlast | hlast
  · rw [hlast, h]
  · exact dropDots_of_mem_path hlast

/-- A collected record has the type that is looked for, and its owner is the name that the path has
    come to where the record stands. -/
theorem exists_of_mem_collected (h : record ∈ collected type name answer) :
    record.type = type
      ∧ ∃ front back, answer = front ++ record :: back
        ∧ record.name.sameAs (goal type name front) = true := by
  induction answer generalizing name with
  | nil => exact absurd h List.not_mem_nil
  | cons first rest ih =>
    cases halias : first.alias? type name with
    | some next =>
      obtain ⟨htype, front, back, rfl, howner⟩ := ih (collected_of_alias halias ▸ h)
      exact ⟨htype, first :: front, back, rfl, (goal_of_alias halias).symm ▸ howner⟩
    | none =>
      have hlater : record ∈ collected type name rest → record.type = type
          ∧ ∃ front back, first :: rest = front ++ record :: back
            ∧ record.name.sameAs (goal type name front) = true := by
        intro hrest
        obtain ⟨htype, front, back, rfl, howner⟩ := ih hrest
        exact ⟨htype, first :: front, back, rfl, (goal_of_none halias).symm ▸ howner⟩
      rw [collected_of_none halias] at h
      split at h
      · next hkept =>
        rcases List.mem_cons.mp h with rfl | hrest
        · exact ⟨hkept.2, [], rest, rfl, hkept.1⟩
        · exact hlater hrest
      · exact hlater h

/-! ### Following is going along the path -/

/-- One record moves the name on, or is collected, or is passed over. -/
theorem go_cons (passed : List Name) (found : List Record) :
    go type name passed found (record :: rest)
      = match record.alias? type name with
        | some next =>
          if passed.contains next.fold then .error (.hopCountExceeded maxHops)
          else go type next (next.fold :: passed) found rest
        | none =>
          go type name passed
            (if record.name.sameAs name = true ∧ record.type = type then record :: found else found)
            rest := by
  rw [go]
  by_cases howner : record.name.sameAs name = true
  · rw [if_pos howner]
    unfold Record.alias?
    cases record.data with
    | cname next =>
      by_cases hcname : type = .cname
      · simp [hcname, howner]
      · simp [hcname, howner]
    | _ => simp [howner]
  · rw [if_neg howner]
    unfold Record.alias?
    cases record.data <;> simp [howner]

/-- An answer is followed along its path, unless the path comes to a name that was passed. -/
theorem go_eq (passed : List Name) (found : List Record) (hpassed : passed.Nodup) :
    go type name passed found answer
      = if (passed ++ (path type name answer).map Name.fold).Nodup then
          .ok ⟨found.reverse ++ collected type name answer, goal type name answer⟩
        else .error (.hopCountExceeded maxHops) := by
  induction answer generalizing name passed found with
  | nil => simp [go, path, collected, goal, hpassed]
  | cons record rest ih =>
    rw [go_cons]
    cases halias : record.alias? type name with
    | none =>
      rw [path_of_none halias, goal_of_none halias, collected_of_none halias]
      dsimp only
      rw [ih passed _ hpassed]
      by_cases hkept : record.name.sameAs name = true ∧ record.type = type
      · simp [if_pos hkept]
      · simp only [if_neg hkept]
    | some next =>
      rw [path_of_alias halias, goal_of_alias halias, collected_of_alias halias, List.map_cons]
      simp only [List.nodup_middle]
      by_cases hnext : next.fold ∈ passed
      · -- The path comes back here, whatever follows.
        rw [if_pos (List.contains_iff_mem.mpr hnext), if_neg]
        exact fun h => (List.nodup_cons.mp h).1 (List.mem_append_left _ hnext)
      · rw [if_neg (fun h => hnext (List.contains_iff_mem.mp h)), ih _ _ (hpassed.cons hnext),
          List.cons_append]

/-- An answer is followed to the end of its path unless the path comes back, up to case. -/
theorem ofAnswer_eq_path (answer : List Record) (name : Name) (type : RecordType) :
    ofAnswer answer name type
      = if ((name :: path type name answer).map Name.fold).Nodup then
          .ok ⟨collected type name answer, goal type name answer⟩
        else .error (.hopCountExceeded maxHops) :=
  go_eq [name.fold] [] (List.nodup_singleton _)

/-- **Following an answer.** From a name without trailing dots an answer is followed to the end of
    its path, with the records that are found along it.  Only a path that comes back to a name it
    has passed is an error. -/
theorem ofAnswer_eq (answer : List Record) (type : RecordType) (hname : name.dropDots = name) :
    ofAnswer answer name type
      = if ((name :: path type name answer).map Name.canonical).Nodup then
          .ok ⟨collected type name answer, goal type name answer⟩
        else .error (.hopCountExceeded maxHops) := by
  have hnames : (name :: path type name answer).map Name.canonical
      = (name :: path type name answer).map Name.fold :=
    List.map_congr_left fun target htarget => Name.canonical_of_dropDots <| by
      rcases List.mem_cons.mp htarget with rfl | hpath
      · exact hname
      · exact dropDots_of_mem_path hpath
  rw [hnames]
  exact ofAnswer_eq_path answer name type

end Followed

/-! ### Links between names -/

/-- That CNAME records lead from a name to another one: each is owned by the name that the one
    before points to, up to case and trailing dots. -/
inductive Linked : Name → List Record → Name → Prop
  | here {name owner} (howner : owner.canonical = name.canonical) : Linked name [] owner
  | link {name record target links owner}
      (howner : record.name.canonical = name.canonical)
      (hdata : record.data = .cname target)
      (hrest : Linked target links owner) : Linked name (record :: links) owner

namespace Linked

theorem append {name next owner : Name} {links more : List Record} (h : Linked name links next)
    (hmore : Linked next more owner) : Linked name (links ++ more) owner := by
  induction h with
  | here hsame =>
    cases hmore with
    | here howner => exact .here (howner.trans hsame)
    | link howner hdata hrest => exact .link (howner.trans hsame) hdata hrest
  | link howner hdata _ ih => exact .link howner hdata (ih hmore)

/-- Links from a name with its trailing dots are links from the name without them. -/
theorem of_dropDots {name owner : Name} {links : List Record} (h : Linked name.dropDots links owner) :
    Linked name links owner :=
  append (.here (Name.canonical_dropDots name)) h

/-- What an alias leads to is what its links lead to. -/
theorem of_alias {type : RecordType} {name next owner : Name} {record : Record}
    {links : List Record} (halias : record.alias? type name = some next)
    (h : Linked next links owner) : Linked name (record :: links) owner := by
  obtain ⟨howner, target, hdata, rfl⟩ := Record.alias?_eq_some halias
  exact .link (Name.canonical_eq_of_sameAs howner) hdata h.of_dropDots

end Linked

namespace Followed

variable {type : RecordType} {name : Name} {record : Record} {answer : List Record}

/-- The end of a path is linked to its beginning by records of the answer, in their order. -/
theorem linked_goal (type : RecordType) (name : Name) (answer : List Record) :
    ∃ links, links.Sublist answer ∧ Linked name links (goal type name answer) := by
  induction answer generalizing name with
  | nil => exact ⟨[], List.Sublist.refl _, .here rfl⟩
  | cons record rest ih =>
    cases halias : record.alias? type name with
    | none =>
      obtain ⟨links, hsub, hlinked⟩ := ih name
      rw [goal_of_none halias]
      exact ⟨links, hsub.cons record, hlinked⟩
    | some next =>
      obtain ⟨links, hsub, hlinked⟩ := ih next
      rw [goal_of_alias halias]
      exact ⟨record :: links, hsub.cons_cons record, hlinked.of_alias halias⟩

/-- A record that is found is one of the answer, of the type that is looked for, and its owner is
    linked to the beginning of the path by records that come before it. -/
theorem linked_collected (h : record ∈ collected type name answer) :
    record.type = type ∧ record ∈ answer
      ∧ ∃ links, (links ++ [record]).Sublist answer ∧ Linked name links record.name := by
  obtain ⟨htype, front, back, rfl, howner⟩ := exists_of_mem_collected h
  obtain ⟨links, hlinks, hlinked⟩ := linked_goal type name front
  have howned := hlinked.append (.here (Name.canonical_eq_of_sameAs howner))
  rw [List.append_nil] at howned
  exact ⟨htype, List.mem_append_right _ List.mem_cons_self, links,
    hlinks.append ((List.nil_sublist back).cons_cons record), howned⟩

end Followed

end DnsResolver
