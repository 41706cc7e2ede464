import DnsResolver.Proofs.Trie.Changes
import Mathlib.Data.List.Nodup
import Std.Data.ExtTreeMap.Lemmas

namespace DnsResolver.Trie

/-!
# A trie is a finite map

Every operation on a trie answers as it would on a plain finite map from keys to values, and
leaves what it would leave there.

* `Operation.onTrie`, `Operation.onTable` — the operations, on a trie and on a plain table.
* `Models` — a valid trie and a table that has the same value under every key.
* `Models.step` — an operation gives the same answer on both, and keeps them alike.
* `run_answers` — so does every run of operations.
-/

variable {α : Type}

/-- A plain finite map. -/
abbrev Table (α : Type) := Std.ExtTreeMap Key α

theorem Table.getElem?_insert (table : Table α) (key other : Key) (value : α) :
    (table.insert key value)[other]? = if other = key then some value else table[other]? := by
  rw [Std.ExtTreeMap.getElem?_insert]
  exact if_congr (Std.LawfulEqCmp.compare_eq_iff_eq.trans eq_comm) rfl rfl

theorem Table.getElem?_erase (table : Table α) (key other : Key) :
    (table.erase key)[other]? = if other = key then none else table[other]? := by
  rw [Std.ExtTreeMap.getElem?_erase]
  exact if_congr (Std.LawfulEqCmp.compare_eq_iff_eq.trans eq_comm) rfl rfl

/-! ### Operations -/

/-- The operations on a finite map. What is stored may be computed from the key and from the
    value that is there. -/
inductive Operation (α : Type) where
  | tryAdd (key : Key) (value : α)
  | add (key : Key) (value : α)
  | set (key : Key) (value : α)
  | find (key : Key)
  | get (key : Key)
  | contains (key : Key)
  | addOrUpdate (key : Key) (fresh : Key → α) (change : Key → α → α)
  | getOrAdd (key : Key) (fresh : Key → α)
  | erase (key : Key)
  | tryUpdate (key : Key) (value expected : α)
  | eraseWhere (selects : Key → α → Bool)
  | isEmpty
  | clear

/-- What an operation answers. -/
inductive Answer (α : Type) where
  | done
  | flag (holds : Bool)
  | added (outcome : Except Error Unit)
  | found (value : Option α)
  | got (value : Except Error α)
  | kept (value : α)
  | count (number : Nat)

namespace Operation

/-- The key an operation is about, unless it is about all of them. -/
def key? : Operation α → Option Key
  | tryAdd key _ | add key _ | set key _ | find key | get key | contains key
  | addOrUpdate key _ _ | getOrAdd key _ | erase key | tryUpdate key _ _ => some key
  | eraseWhere _ | isEmpty | clear => none

/-- An operation on a trie. -/
def onTrie [BEq α] (trie : Trie α) : Operation α → Answer α × Trie α
  | tryAdd key value => let (added, trie) := trie.tryAdd key value; (.flag added, trie)
  | add key value => let (outcome, trie) := trie.add key value; (.added outcome, trie)
  | set key value => let (previous, trie) := trie.set key value; (.found previous, trie)
  | find key => (.found (trie.find? key), trie)
  | get key => (.got (trie.get key), trie)
  | contains key => (.flag (trie.contains key), trie)
  | addOrUpdate key fresh change =>
    let (value, trie) := trie.addOrUpdate key (fresh key) (change key)
    (.kept value, trie)
  | getOrAdd key fresh => let (value, trie) := trie.getOrAdd key (fresh key); (.kept value, trie)
  | erase key => let (value, trie) := trie.erase key; (.found value, trie)
  | tryUpdate key value expected =>
    let (updated, trie) := trie.tryUpdate key value expected
    (.flag updated, trie)
  | eraseWhere selects => let (number, trie) := trie.eraseWhere selects; (.count number, trie)
  | isEmpty => (.flag trie.isEmpty, trie)
  | clear => (.done, trie.clear)

/-- An operation on a plain finite map. -/
def onTable [BEq α] (table : Table α) : Operation α → Answer α × Table α
  | tryAdd key value =>
    if key ∈ table then (.flag false, table) else (.flag true, table.insert key value)
  | add key value =>
    if key ∈ table then (.added (.error .keyAlreadyExists), table)
    else (.added (.ok ()), table.insert key value)
  | set key value => (.found table[key]?, table.insert key value)
  | find key => (.found table[key]?, table)
  | get key =>
    match table[key]? with
    | some value => (.got (.ok value), table)
    | none => (.got (.error .keyNotFound), table)
  | contains key => (.flag (table.contains key), table)
  | addOrUpdate key fresh change =>
    match table[key]? with
    | some old => (.kept (change key old), table.insert key (change key old))
    | none => (.kept (fresh key), table.insert key (fresh key))
  | getOrAdd key fresh =>
    match table[key]? with
    | some value => (.kept value, table)
    | none => (.kept (fresh key), table.insert key (fresh key))
  | erase key => (.found table[key]?, table.erase key)
  | tryUpdate key value expected =>
    match table[key]? with
    | some old =>
      if old == expected then (.flag true, table.insert key value) else (.flag false, table)
    | none => (.flag false, table)
  | eraseWhere selects =>
    (.count (table.filter selects).size, table.filter fun key value => !selects key value)
  | isEmpty => (.flag table.isEmpty, table)
  | clear => (.done, ∅)

end Operation

/-- Runs operations one after the other and collects their answers. -/
def run {State : Type} (step : State → Operation α → Answer α × State) :
    List (Operation α) → State → List (Answer α) × State
  | [], state => ([], state)
  | operation :: operations, state =>
    let (answer, state) := step state operation
    let (answers, state) := run step operations state
    (answer :: answers, state)

/-! ### Tries and tables that are alike -/

/-- A trie with the shape of one, and a table that has the same value under every key. -/
structure Models (trie : Trie α) (table : Table α) : Prop where
  valid : trie.root.Valid []
  find : ∀ key, trie.find? key = table[key]?

namespace Models

variable {trie : Trie α} {table : Table α}

/-- Nothing is in a new trie. -/
theorem empty : Models (Trie.empty : Trie α) ∅ where
  valid := Node.valid_root
  find key := by
    rw [Std.ExtTreeMap.getElem?_empty, find?, Trie.empty, Node.find?_leaf _ _ rfl]
    rfl

/-- The entries of the trie are the entries of the table, in an order of their own. -/
theorem entries_perm (h : Models trie table) :
    (trie.entries.map fun entry => (entry.key, entry.value)).Perm table.toList := by
  have hkeys : (trie.entries.map fun entry => (entry.key, entry.value)).Nodup := by
    refine List.Nodup.of_map Prod.fst ?_
    rw [List.map_map]
    exact h.valid.nodup_keys
  have htable : table.toList.Nodup := by
    refine Std.ExtTreeMap.distinct_keys_toList.imp fun hne heq => hne ?_
    rw [heq]
    exact Std.ReflCmp.compare_self
  -- Neither list has anything twice, so it is enough that they have the same members.
  refine (List.perm_ext_iff_of_nodup hkeys htable).mpr fun ⟨key, value⟩ => ?_
  rw [Std.ExtTreeMap.mem_toList_iff_getElem?_eq_some, ← h.find, find?_eq_some_iff h.valid,
    List.mem_map]
  constructor
  · rintro ⟨entry, hentry, heq⟩
    obtain ⟨rfl, rfl⟩ := Prod.mk.inj heq
    exact hentry
  · exact fun hentry => ⟨_, hentry, rfl⟩

/-- An insertion into the trie is an insertion into the table. -/
theorem upsert (h : Models trie table) (key : Key) (choose : Option α → Option α) :
    ∃ left present, present.map (·.value) = table[key]?
      ∧ trie.upsert key choose
        = (left, match choose table[key]? with
            | some value => .stored present ⟨key, value⟩
            | none => .unchanged present)
      ∧ Models left
          (match choose table[key]? with
            | some value => table.insert key value
            | none => table) := by
  obtain ⟨hvalid, hfind, present, hpresent, houtcome⟩ := upsert_spec h.valid key choose
  rw [h.find] at hpresent houtcome
  refine ⟨(trie.upsert key choose).1, present, hpresent, Prod.ext rfl houtcome, hvalid, fun other => ?_⟩
  rw [hfind, h.find, h.find]
  cases choose table[key]? with
  | none =>
    by_cases hother : other = key
    · rw [if_pos hother, hother, Option.none_or]
    · rw [if_neg hother]
  | some value =>
    show _ = (table.insert key value)[other]?
    rw [Table.getElem?_insert, Option.some_or]

/-- An erasure from the trie is an erasure from the table. -/
theorem erase (h : Models trie table) (key : Key) :
    (trie.erase key).1 = table[key]? ∧ Models (trie.erase key).2 (table.erase key) := by
  obtain ⟨hvalid, hanswer, hfind⟩ := erase_spec h.valid key
  refine ⟨hanswer.trans (h.find key), hvalid, fun other => ?_⟩
  rw [hfind, h.find, Table.getElem?_erase]

/-- An erasure by a predicate filters the table. -/
theorem eraseWhere (h : Models trie table) (selects : Key → α → Bool) :
    (trie.eraseWhere selects).1 = (table.filter selects).size
      ∧ Models (trie.eraseWhere selects).2 (table.filter fun key value => !selects key value) := by
  obtain ⟨hvalid, hfind, hcount⟩ := eraseWhere_spec h.valid selects
  refine ⟨?_, hvalid, fun other => ?_⟩
  -- The table is counted by its list, which is a permutation of the entries.
  · have hselected := (h.entries_perm.filter fun slot => selects slot.1 slot.2).length_eq
    rw [List.filter_map, List.length_map] at hselected
    rw [hcount, ← Std.ExtTreeMap.length_toList, Std.ExtTreeMap.toList_filter, ← hselected]
    rfl
  · rw [hfind, h.find, Std.ExtTreeMap.getElem?_filter']

theorem isEmpty (h : Models trie table) : trie.isEmpty = table.isEmpty := by
  rw [isEmpty_eq, ← Std.ExtTreeMap.isEmpty_toList, ← h.entries_perm.isEmpty_eq, List.isEmpty_map]

theorem clear (h : Models trie table) : Models trie.clear (∅ : Table α) := by
  obtain ⟨hvalid, hfind⟩ := clear_spec h.valid
  exact ⟨hvalid, fun key => by rw [hfind, Std.ExtTreeMap.getElem?_empty]⟩

/-- **A step.** An operation gives the same answer on a trie and a table that are alike, and
    leaves them alike. -/
theorem step [BEq α] (h : Models trie table) (operation : Operation α) :
    (operation.onTrie trie).1 = (operation.onTable table).1
      ∧ Models (operation.onTrie trie).2 (operation.onTable table).2 := by
  have hmem : ∀ key, key ∈ table ↔ (table[key]?).isSome = true := fun key =>
    Std.ExtTreeMap.mem_iff_isSome_getElem?
  -- All storing operations are insertions with a choice; each case evaluates its own.
  cases operation with
  | tryAdd key value =>
    obtain ⟨left, present, hpresent, hupsert, hleft⟩ :=
      h.upsert key fun present => if present.isSome then none else some value
    simp only [Operation.onTrie, Operation.onTable, tryAdd, hupsert, hmem]
    cases hlookup : table[key]? <;> simp_all
  | add key value =>
    obtain ⟨left, present, hpresent, hupsert, hleft⟩ :=
      h.upsert key fun present => if present.isSome then none else some value
    simp only [Operation.onTrie, Operation.onTable, add, tryAdd, hupsert, hmem]
    cases hlookup : table[key]? <;> simp_all
  | set key value =>
    obtain ⟨left, present, hpresent, hupsert, hleft⟩ := h.upsert key fun _ => some value
    simp only [Operation.onTrie, Operation.onTable, set, hupsert, hpresent]
    exact ⟨trivial, hleft⟩
  | find key => exact ⟨congrArg Answer.found (h.find key), h⟩
  | get key =>
    simp only [Operation.onTrie, Operation.onTable, get, h.find]
    cases table[key]? <;> exact ⟨rfl, h⟩
  | contains key =>
    simp only [Operation.onTrie, Operation.onTable, contains, h.find,
      Std.ExtTreeMap.contains_eq_isSome_getElem?]
    exact ⟨trivial, h⟩
  | addOrUpdate key fresh change =>
    obtain ⟨left, present, hpresent, hupsert, hleft⟩ :=
      h.upsert key fun present => some ((present.map (change key)).getD (fresh key))
    simp only [Operation.onTrie, Operation.onTable, addOrUpdate, hupsert]
    cases hlookup : table[key]? <;> simp_all
  | getOrAdd key fresh =>
    obtain ⟨left, present, hpresent, hupsert, hleft⟩ :=
      h.upsert key fun present => if present.isSome then none else some (fresh key)
    simp only [Operation.onTrie, Operation.onTable, getOrAdd, h.find, hupsert]
    cases hlookup : table[key]? <;> simp_all
  | erase key =>
    obtain ⟨hanswer, hleft⟩ := h.erase key
    exact ⟨congrArg Answer.found hanswer, hleft⟩
  | tryUpdate key value expected =>
    obtain ⟨left, present, hpresent, hupsert, hleft⟩ := h.upsert key fun present =>
      present.bind fun old => if old == expected then some value else none
    simp only [Operation.onTrie, Operation.onTable, tryUpdate, hupsert]
    cases hlookup : table[key]? with
    | none => simp_all
    | some old => cases hsame : old == expected <;> simp_all
  | eraseWhere selects =>
    obtain ⟨hanswer, hleft⟩ := h.eraseWhere selects
    exact ⟨congrArg Answer.count hanswer, hleft⟩
  | isEmpty => exact ⟨congrArg Answer.flag h.isEmpty, h⟩
  | clear => exact ⟨rfl, h.clear⟩

/-- Whole runs give the same answers on a trie and a table that are alike. -/
theorem run [BEq α] (h : Models trie table) (operations : List (Operation α)) :
    (run Operation.onTrie operations trie).1 = (run Operation.onTable operations table).1
      ∧ Models (run Operation.onTrie operations trie).2
          (run Operation.onTable operations table).2 := by
  induction operations generalizing trie table with
  | nil => exact ⟨rfl, h⟩
  | cons operation operations ih =>
    obtain ⟨hanswer, hleft⟩ := h.step operation
    obtain ⟨hanswers, hleft'⟩ := ih hleft
    exact ⟨List.cons_eq_cons.mpr ⟨hanswer, hanswers⟩, hleft'⟩

end Models

/-! ### Runs from nothing -/

/-- On a plain table, an operation about one key leaves what is under the others. -/
theorem Operation.onTable_other [BEq α] (table : Table α) {operation : Operation α} {key other : Key}
    (hkey : operation.key? = some key) (hother : other ≠ key) :
    (operation.onTable table).2[other]? = table[other]? := by
  have hinsert : ∀ value, (table.insert key value)[other]? = table[other]? := fun value => by
    rw [Table.getElem?_insert, if_neg hother]
  have herase : (table.erase key)[other]? = table[other]? := by
    rw [Table.getElem?_erase, if_neg hother]
  cases operation <;> simp only [key?, Option.some.injEq, reduceCtorEq] at hkey <;> subst hkey
    <;> unfold onTable <;> grind

/-- **A trie is a finite map.** Whatever operations are run on a new trie, it gives the answers
    of a plain table on which the same operations are run, and holds in the end what that
    holds. An operation about one key leaves what is stored under every other key. -/
theorem run_answers [BEq α] (operations : List (Operation α)) :
    (run Operation.onTrie operations Trie.empty).1 = (run Operation.onTable operations ∅).1
      ∧ (∀ key, (run Operation.onTrie operations Trie.empty).2.find? key
          = (run Operation.onTable operations (∅ : Table α)).2[key]?)
      ∧ ∀ operation key other, Operation.key? operation = some key → other ≠ key →
        (operation.onTrie (run Operation.onTrie operations Trie.empty).2).2.find? other
          = (run Operation.onTrie operations Trie.empty).2.find? other := by
  obtain ⟨hanswers, hleft⟩ := Models.empty.run operations
  refine ⟨hanswers, hleft.find, fun operation key other hkey hother => ?_⟩
  rw [(hleft.step operation).2.find, hleft.find]
  exact operation.onTable_other _ hkey hother

end DnsResolver.Trie
