import DnsResolver.Proofs.Toml.Values
import DnsResolver.Toml.Document
import Mathlib.Data.List.Nodup

namespace DnsResolver.Toml

/-!
# Documents that are read back

A document of headers and settings in the simplest form, each on a line of its own and maybe with
empty lines between them, is read as it was written, and builds one table for each header.

* `Written` — the texts of such a document.
* `Written.read` — a line is read whatever follows it.
* `statements?_of_written` — a whole document is read.
* `ofStatements?_sections` — the table that it builds.
-/

open Text (Stops stops_cons ne_of_apply notMem_of_apply)

variable {cs key text rest : List Char} {c : Char} {limit size nesting : Nat} {value : Value}

/-! ### Bare keys -/

/-- A key without quotes. -/
def IsBare (key : Key) : Prop := key ≠ [] ∧ key.all isBareKey = true

instance (key : Key) : Decidable (IsBare key) :=
  inferInstanceAs (Decidable (key ≠ [] ∧ key.all isBareKey = true))

theorem IsBare.eq_cons (h : IsBare key) : ∃ c tail, key = c :: tail ∧ isBareKey c = true := by
  obtain ⟨c, tail, rfl⟩ := List.exists_cons_of_ne_nil h.1
  exact ⟨c, tail, rfl, List.all_eq_true.mp h.2 c List.mem_cons_self⟩

theorem isBlank_of_isBareKey (h : isBareKey c = true) : isBlank c = false := by
  rw [isBlank, Bool.or_eq_false_iff, decide_eq_false_iff_not, decide_eq_false_iff_not]
  exact ⟨ne_of_apply h (by decide), ne_of_apply h (by decide)⟩

theorem IsBare.stops_append (h : IsBare key) : Stops isBlank (key ++ rest) := by
  obtain ⟨c, tail, rfl, hc⟩ := h.eq_cons
  exact stops_cons.mpr (isBlank_of_isBareKey hc)

theorem readKey_append (h : IsBare key) (hrest : Stops isBareKey rest) :
    readKey (key ++ rest) = some (key, rest) := by
  have hall : ∀ c ∈ key, isBareKey c = true := List.all_eq_true.mp h.2
  obtain ⟨c, tail, rfl, hc⟩ := h.eq_cons
  have hbasic : c ≠ '"' := ne_of_apply hc (by decide)
  have hliteral : c ≠ '\'' := ne_of_apply hc (by decide)
  unfold readKey
  split
  · next heq => exact absurd (List.cons.inj heq).1 hbasic
  · next heq => exact absurd (List.cons.inj heq).1 hliteral
  · rw [Text.takeWhile_append hall hrest, Text.dropWhile_append hall hrest]
    rfl

/-- A character that ends a path. -/
def endsPath (c : Char) : Bool := !isBareKey c && !isBlank c && c != '.'

/-- A bare key is a path, which blanks may follow. -/
theorem readKeys_append (blanks : List Char) (h : IsBare key)
    (hblanks : ∀ c ∈ blanks, isBlank c = true) (hc : endsPath c = true) :
    readKeys (limit + 1) (key ++ (blanks ++ c :: rest)) = some ([key], c :: rest) := by
  simp only [endsPath, Bool.and_eq_true, Bool.not_eq_true', bne_iff_ne] at hc
  obtain ⟨⟨hbare, hblank⟩, hdot⟩ := hc
  have hstops : Stops isBareKey (blanks ++ c :: rest) := by
    cases blanks with
    | nil => exact stops_cons.mpr hbare
    | cons d blanks =>
      refine stops_cons.mpr (Bool.eq_false_iff.mpr fun hkey => ?_)
      simp [isBlank_of_isBareKey hkey] at hblanks
  have hskip : skipBlanks (blanks ++ c :: rest) = c :: rest :=
    Text.dropWhile_append hblanks (stops_cons.mpr hblank)
  simp [readKeys, readKey_append h hstops, hskip, hdot]

/-! ### Statements -/

theorem stripFront?_cons : Text.stripFront? [c] (c :: rest) = some rest := by
  simp [Text.stripFront?]

theorem readHeader_append (h : IsBare key) :
    readHeader [']'] (key ++ ']' :: rest) = some (([], key), rest) := by
  have hskip : skipBlanks (key ++ ']' :: rest) = key ++ ']' :: rest :=
    Text.dropWhile_of_stops h.stops_append
  have hpath : readPath (key ++ ']' :: rest) = some ([key], ']' :: rest) :=
    readKeys_append [] h (by simp) (by decide)
  simp [readHeader, hskip, hpath, splitLast?, stripFront?_cons]

/-- A header is read up to its closing bracket. -/
theorem readStatement_header (h : IsBare key) :
    readStatement size ('[' :: (key ++ ']' :: rest)) = some (.header [] key, rest) := by
  obtain ⟨c, tail, hkey, hc⟩ := h.eq_cons
  have hbracket : c ≠ '[' := ne_of_apply hc (by decide)
  unfold readStatement
  split
  · next heq =>
    rw [hkey] at heq
    exact absurd (List.cons.inj (List.cons.inj heq).2).1 hbracket
  · next heq =>
    rw [← (List.cons.inj heq).2, readHeader_append h]
    rfl
  · next hfalse => exact absurd rfl (hfalse _)

theorem readPair_append (h : IsBare key) (hvalue : value.Spells nesting text)
    (hnesting : nesting ≤ maxDepth) (hsize : text.length ≤ size) (hrest : Ends rest) :
    readPair (some ∘ skipBlanks) (readValue size) (key ++ ' ' :: '=' :: ' ' :: (text ++ rest))
      = some (([key], value), rest) := by
  have hpath : readPath (key ++ ' ' :: '=' :: ' ' :: (text ++ rest))
      = some ([key], '=' :: ' ' :: (text ++ rest)) :=
    readKeys_append [' '] h (by simp [isBlank]) (by decide)
  have hsign : skipBlanks ('=' :: ' ' :: (text ++ rest)) = '=' :: ' ' :: (text ++ rest) := rfl
  have hspace : skipBlanks (' ' :: (text ++ rest)) = text ++ rest := by
    obtain ⟨c, tail, rfl, hc⟩ := head_of_opensValue hvalue.opens
    exact skipBlanks_of_opensValue hc
  have hread : readValue size (text ++ rest) = some (value, rest) :=
    hvalue.read hnesting hsize hrest
  simp [readPair, hpath, hsign, stripFront?_cons, hspace, hread]

/-- A setting is read up to the end of its value. -/
theorem readStatement_entry (h : IsBare key) (hvalue : value.Spells nesting text)
    (hnesting : nesting ≤ maxDepth) (hsize : text.length ≤ size) (hrest : Ends rest) :
    readStatement size (key ++ ' ' :: '=' :: ' ' :: (text ++ rest))
      = some (.entry [key] value, rest) := by
  obtain ⟨c, tail, hkey, hc⟩ := h.eq_cons
  have hbracket : c ≠ '[' := ne_of_apply hc (by decide)
  unfold readStatement
  split
  · next heq =>
    rw [hkey] at heq
    exact absurd (List.cons.inj heq).1 hbracket
  · next heq =>
    rw [hkey] at heq
    exact absurd (List.cons.inj heq).1 hbracket
  · rw [readPair_append h hvalue hnesting hsize hrest]
    rfl

/-- A statement that ends its line is the first of those that are read. -/
theorem readStatements_cons {statement : Statement} (hc : c ∉ skipped)
    (hread : readStatement size (c :: cs) = some (statement, '\n' :: rest)) :
    readStatements size (limit + 1) (c :: cs)
      = (readStatements size limit rest).map (statement :: ·) := by
  have hend : endLine false ('\n' :: rest) = some rest := by simp [endLine]
  simp only [readStatements, skipLines_cons hc, Option.bind_eq_bind, Option.bind_some, hread, hend]
  cases readStatements size limit rest <;> rfl

/-! ### Documents -/

/-- Statements as they are written in the simplest form. -/
inductive Written : List Statement → List Char → Prop
  | blank : Written [] ['\n']
  | header {key : Key} : IsBare key → Written [.header [] key] ('[' :: key ++ [']', '\n'])
  | entry {key : Key} {value : Value} {nesting : Nat} {text : List Char} :
      IsBare key → value.Spells nesting text → nesting ≤ maxDepth →
      Written [.entry [key] value] (key ++ [' ', '=', ' '] ++ text ++ ['\n'])
  | append {front back : List Statement} {cs ds : List Char} :
      Written front cs → Written back ds → Written (front ++ back) (cs ++ ds)

variable {statements : List Statement}

/-- Every statement takes up some of the text. -/
theorem Written.length_le (h : Written statements cs) : statements.length ≤ cs.length := by
  induction h with
  | blank => simp
  | header => simp
  | entry =>
    simp only [List.length_append, List.length_cons, List.length_nil]
    omega
  | append _ _ ihfront ihback =>
    rw [List.length_append, List.length_append]
    exact Nat.add_le_add ihfront ihback

/-- What is written is read, whatever follows it. -/
theorem Written.read (h : Written statements cs) (hsize : cs.length ≤ size) :
    readStatements size (statements.length + limit) (cs ++ rest)
      = (readStatements size limit rest).map (statements ++ ·) := by
  induction h generalizing limit rest with
  | blank =>
    show readStatements size (0 + limit) ('\n' :: rest) = _
    rw [Nat.zero_add]
    cases limit with
    | zero => rfl
    | succ limit => simp [readStatements, skipLines]
  | @header key h =>
    rw [List.length_singleton, Nat.add_comm]
    have hbracket : '[' ∉ skipped := by decide
    have hline : readStatement size ('[' :: (key ++ ']' :: '\n' :: rest))
        = some (.header [] key, '\n' :: rest) := readStatement_header h
    have hcons : readStatements size (limit + 1) _ = _ := readStatements_cons hbracket hline
    simpa using hcons
  | @entry key value nesting text h hvalue hnesting =>
    have hends : Ends ('\n' :: rest) := ends_cons (by decide)
    have hlong : text.length ≤ size := by
      simp only [List.length_append] at hsize
      omega
    have hline := readStatement_entry h hvalue hnesting hlong hends
    obtain ⟨c, tail, rfl, hc⟩ := h.eq_cons
    have hcons : readStatements size (limit + 1) _ = _ :=
      readStatements_cons (notMem_of_apply hc (by decide)) hline
    rw [List.length_singleton, Nat.add_comm]
    simpa using hcons
  | @append front back cs ds _ _ ihfront ihback =>
    rw [List.length_append] at hsize
    rw [List.length_append, Nat.add_assoc, List.append_assoc, ihfront (by omega),
      ihback (by omega)]
    simp only [Option.map_map, Function.comp_def, List.append_assoc]

/-- A whole text is read. -/
theorem statements?_of_written (h : Written statements cs) (hmark : cs.head? ≠ some '\uFEFF') :
    statements? cs = some statements := by
  have hlimit : cs.length + 1 = statements.length + (cs.length - statements.length + 1) := by
    have hshort := h.length_le
    omega
  have hread : readStatements cs.length (statements.length + (cs.length - statements.length + 1))
      (cs ++ []) = _ := h.read (Nat.le_refl _)
  rw [List.append_nil, ← hlimit] at hread
  rw [statements?, if_neg hmark, hread]
  simp [readStatements, skipLines]

/-! ### Tables -/

/-- A header and the settings below it. -/
def sectionOf (name : Key) (entries : Table) : List Statement :=
  .header [] name :: entries.map fun (key, value) => .entry [key] value

/-- Headers with the settings below them. -/
def sections (parts : List (Key × Table)) : List Statement :=
  parts.flatMap fun (name, entries) => sectionOf name entries

/-- A table of tables. -/
def tables (parts : List (Key × Table)) : Table :=
  parts.map fun (name, entries) => (name, .table .header entries)

namespace Table

variable {table entries done : Table} {name : Key} {old : Value}

/-- The keys of a table. -/
def keys (table : Table) : List Key := table.map Prod.fst

theorem get?_eq_none (h : key ∉ table.keys) : get? table key = none := by
  rw [get?, List.lookup_eq_none_iff]
  intro entry hentry
  rw [bne_iff_ne]
  rintro rfl
  exact h (List.mem_map_of_mem hentry)

theorem get?_append (h : key ∉ table.keys) :
    get? (table ++ (key, value) :: entries) key = some value := by
  rw [get?, List.lookup_append, ← get?, get?_eq_none h]
  simp

/-- Entries with other keys stay as they are. -/
theorem put_append (h : key ∉ table.keys) :
    put key value (table ++ entries) = table ++ put key value entries := by
  induction table with
  | nil => rfl
  | cons entry table ih =>
    obtain ⟨k, v⟩ := entry
    simp only [keys, List.map_cons, List.mem_cons, not_or] at h
    rw [List.cons_append, put, if_neg fun heq => h.1 heq.symm, ih h.2]
    rfl

/-- A new key is put at the end. -/
theorem put_new (h : key ∉ table.keys) : put key value table = table ++ [(key, value)] := by
  have hput : put key value (table ++ []) = table ++ [(key, value)] := put_append h
  rwa [List.append_nil] at hput

theorem openTable?_new (h : name ∉ table.keys) :
    openTable? name table = some (table ++ [(name, .table .header [])]) := by
  rw [openTable?, get?_eq_none h, put_new h]

theorem assign?_new (h : key ∉ table.keys) :
    assign? value [key] table = some (table ++ [(key, value)]) := by
  simp [assign?, get?_eq_none h, put_new h]

/-- What a header has opened last is changed in its place. -/
theorem changeAt?_last {change : Table → Option Table} (hname : name ∉ table.keys)
    (hchange : change entries = some done) :
    changeAt? change [name] (table ++ [(name, .table .header entries)])
      = some (table ++ [(name, .table .header done)]) := by
  have hput : put name (.table .header done) (table ++ [(name, .table .header entries)])
      = table ++ [(name, .table .header done)] := by
    rw [put_append hname, put, if_pos rfl]
  simp [changeAt?, get?_append hname, hchange, hput]

end Table

namespace Document

variable {table done entries : Table} {name : Key}

/-- The settings below a header go into its table. -/
theorem add?_entries (hname : name ∉ table.keys)
    (hkeys : (Table.keys (done ++ entries)).Nodup) :
    (entries.map fun (key, value) => Statement.entry [key] value).foldlM add?
        ⟨table ++ [(name, .table .header done)], [name]⟩
      = some ⟨table ++ [(name, .table .header (done ++ entries))], [name]⟩ := by
  induction entries generalizing done with
  | nil => simp
  | cons entry entries ih =>
    obtain ⟨key, value⟩ := entry
    have hnew : key ∉ done.keys := by
      rw [Table.keys, List.map_append, List.map_cons] at hkeys
      exact fun hmem => List.disjoint_of_nodup_append hkeys hmem List.mem_cons_self
    have hstep : add? ⟨table ++ [(name, .table .header done)], [name]⟩ (.entry [key] value)
        = some ⟨table ++ [(name, .table .header (done ++ [(key, value)]))], [name]⟩ := by
      rw [add?, Table.changeAt?_last hname (Table.assign?_new hnew)]
      rfl
    have hsplit : done ++ (key, value) :: entries = done ++ [(key, value)] ++ entries := by simp
    rw [hsplit] at hkeys ⊢
    rw [List.map_cons, List.foldlM_cons, hstep]
    exact ih hkeys

/-- A header with its settings adds one table. -/
theorem add?_section {path : List Key} (hname : name ∉ table.keys)
    (hkeys : (Table.keys entries).Nodup) :
    (sectionOf name entries).foldlM add? ⟨table, path⟩
      = some ⟨table ++ [(name, .table .header entries)], [name]⟩ := by
  have hopen : add? ⟨table, path⟩ (.header [] name)
      = some ⟨table ++ [(name, .table .header [])], [name]⟩ := by
    rw [add?, Table.changeAt?, Table.openTable?_new hname]
    rfl
  rw [sectionOf, List.foldlM_cons, hopen]
  exact add?_entries hname hkeys

/-- Headers with their settings add one table each. -/
theorem add?_sections {parts : List (Key × Table)} {path : List Key}
    (hnames : (table.keys ++ parts.map Prod.fst).Nodup)
    (hkeys : ∀ part ∈ parts, (Table.keys part.2).Nodup) :
    ∃ last, (sections parts).foldlM add? ⟨table, path⟩ = some ⟨table ++ tables parts, last⟩ := by
  induction parts generalizing table path with
  | nil => exact ⟨path, by simp [sections, tables]⟩
  | cons part parts ih =>
    obtain ⟨name, entries⟩ := part
    have hname : name ∉ table.keys := fun hmem =>
      List.disjoint_of_nodup_append hnames hmem List.mem_cons_self
    have hrest : (Table.keys (table ++ [(name, .table .header entries)])
        ++ parts.map Prod.fst).Nodup := by
      simpa [Table.keys] using hnames
    obtain ⟨last, hlast⟩ := ih hrest fun part hpart => hkeys part (List.mem_cons_of_mem _ hpart)
    refine ⟨last, ?_⟩
    rw [sections, List.flatMap_cons, ← sections, List.foldlM_append,
      add?_section hname (hkeys _ List.mem_cons_self)]
    exact hlast.trans (by simp [tables])

end Document

/-- **Documents.** Headers with their settings build a table of tables. -/
theorem ofStatements?_sections {parts : List (Key × Table)} (hnames : (parts.map Prod.fst).Nodup)
    (hkeys : ∀ part ∈ parts, (Table.keys part.2).Nodup) :
    Table.ofStatements? (sections parts) = some (tables parts) := by
  have hall : (Table.keys [] ++ parts.map Prod.fst).Nodup := hnames
  obtain ⟨last, hlast⟩ : ∃ last, (sections parts).foldlM Document.add? {} = some ⟨_, last⟩ :=
    Document.add?_sections hall hkeys
  rw [Table.ofStatements?, hlast]
  rfl

end DnsResolver.Toml
