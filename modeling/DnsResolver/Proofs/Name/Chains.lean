import DnsResolver.Proofs.Message.Layout

namespace DnsResolver

open Writer (Extends)

/-!
# How far pointers lead

A name that is written ends in a pointer to one that was written before, which may end in a pointer
itself.  Such a chain has no more pointers than the name has labels, for a label stands in front of
every pointer that one leads to; nor more than there are names in front of it.  A reader that follows
at most `maxJumps` pointers loses a name only if it goes beyond both.

* `Writer.Chained` — the remembered names, with a bound on the pointers that each of them needs.
* `Writer.spelling_chained` — labels on the wire need one pointer more than the names they point to.
* `Name.Row`, `Name.row_of_written` — names that were written one after the other.
* `Name.many_of_written` — reading them.
* `Name.tower_jumps` — towers of names need as many pointers as the bounds allow.
-/

/-- Fewer than `bound` pointers lead from a remembered name to the end of it, and fewer than it has
    labels. -/
def WrittenName.Chained (known : Known) (bound : Nat) (name : WrittenName) : Prop :=
  ∃ jumps labels stop, jumps < name.labels.length ∧ jumps < bound
    ∧ Name.Spelled known jumps name.offset labels stop
    ∧ labels.map Text.fold = name.labels.map Text.fold

theorem WrittenName.Chained.mono {a b : Known} {bound bound' : Nat} {name : WrittenName}
    (h : name.Chained a bound) (hab : Known.Within a b) (hbound : bound ≤ bound') :
    name.Chained b bound' := by
  obtain ⟨jumps, labels, stop, hlabels, hjumps, hspelled, hfold⟩ := h
  exact ⟨jumps, labels, stop, hlabels, Nat.lt_of_lt_of_le hjumps hbound, hspelled.mono hab, hfold⟩

namespace Writer

open Name (Spelled)

variable {before after writer : Writer} {labels : List Label} {known : Known} {bound pos : Nat}

/-- Labels are derived up to case, with at most `bound` pointers and no more than there are labels. -/
structure Bounded (bound : Nat) (labels : List Label) (jumps : Nat) (found : List Label) : Prop
    extends Respelled labels jumps found where
  jumps_le_bound : jumps ≤ bound

theorem Bounded.label {jumps : Nat} {found : List Label} (h : Bounded bound labels jumps found)
    (label : Label) : Bounded bound (label :: labels) jumps (label :: found) :=
  ⟨h.toRespelled.label label, h.jumps_le_bound⟩

/-- **Labels on the wire.** Where labels are held as a writer spells them, they can be derived with
    one pointer more than the remembered names at most, and so can every suffix that starts at a
    label that is written out. -/
theorem spelling_chained (hlabels : ∀ label ∈ labels, label.Ordinary)
    (hnames : ∀ name ∈ writer.names, name.offset ≤ maxPointer ∧ name.offset < pos
      ∧ name.Chained known bound)
    (hheld : known.Holds pos (writer.spelling labels)) :
    (∃ jumps found, jumps ≤ labels.length ∧ jumps ≤ bound
      ∧ Spelled known jumps pos found (pos + (writer.spelling labels).length)
      ∧ found.map Text.fold = labels.map Text.fold)
      ∧ ∀ name ∈ writer.starts pos labels, name.Chained known (bound + 1) := by
  have hfound : ∀ suffix offset, suffix <:+ labels → writer.find? suffix = some offset →
      offset ≤ maxPointer ∧ offset < pos
        ∧ ∃ jumps found stop, Spelled known jumps offset found stop
          ∧ Bounded bound suffix (jumps + 1) found := by
    intro suffix offset _ hfind
    obtain ⟨name, hname, rfl, hsame⟩ := find?_eq_some hfind
    obtain ⟨hmax, hback, jumps, found, stop, hcount, hbound, hspelled, hfold⟩ := hnames name hname
    have hlength : name.labels.length = suffix.length := by
      simpa using congrArg List.length hsame
    exact ⟨hmax, hback, jumps, found, stop, hspelled, ⟨hlength ▸ hcount, hfold.trans hsame⟩, hbound⟩
  obtain ⟨⟨jumps, found, hspelled, ⟨hcount, hfold⟩, hbound⟩, hstarts⟩ :=
    spelling_spelled hlabels hheld ⟨Respelled.root, Nat.zero_le bound⟩
      (fun label _ _ _ _ _ hgood => hgood.label label) hfound
  refine ⟨⟨jumps, found, hcount, hbound, hspelled, hfold⟩, fun name hname => ?_⟩
  obtain ⟨label, rest, jumps, found, stop, hwhole, hspelled, hgood⟩ := hstarts name hname
  rw [WrittenName.Chained, hwhole]
  exact ⟨jumps, label :: found, stop, Nat.lt_succ_of_le hgood.jumps_le,
    Nat.lt_succ_of_le hgood.jumps_le_bound, hspelled, (hgood.label label).same⟩

/-! ### What a writer remembers -/

/-- Fewer than `bound` pointers lead from any remembered name to the end of it. -/
def Chained (bound : Nat) (writer : Writer) : Prop :=
  ∀ name ∈ writer.names, name.offset ≤ maxPointer ∧ name.Chained (Known.of writer.octets) bound

theorem chained_empty (compress : Bool) : Chained 0 (empty compress) :=
  fun name hname => absurd hname (Array.not_mem_empty name)

/-- Labels that are written can be derived with few pointers, and the bound of the remembered names
    grows by one. -/
theorem Chained.putLabels (h : Chained bound writer) (hlabels : ∀ label ∈ labels, label.Ordinary) :
    Chained (bound + 1) (writer.putLabels labels)
      ∧ ∃ jumps found, jumps ≤ labels.length ∧ jumps ≤ bound
        ∧ Spelled (Known.of (writer.putLabels labels).octets) jumps writer.size found
          (writer.putLabels labels).size
        ∧ found.map Text.fold = labels.map Text.fold := by
  have hwithin := (extends_putLabels writer labels).within
  have hnames : ∀ name ∈ writer.names, name.offset ≤ maxPointer ∧ name.offset < writer.size
      ∧ name.Chained (Known.of (writer.putLabels labels).octets) bound := by
    intro name hname
    obtain ⟨hmax, hchained⟩ := h name hname
    refine ⟨hmax, ?_, hchained.mono hwithin (Nat.le_refl _)⟩
    obtain ⟨_, _, _, _, _, hspelled, _⟩ := hchained
    obtain ⟨octet, hoctet⟩ := hspelled.known_pos
    exact (Array.getElem?_eq_some_iff.mp hoctet).1
  obtain ⟨hspelled, hstarts⟩ := spelling_chained hlabels hnames (holds_putLabels writer labels)
  refine ⟨fun name hname => ?_, ?_⟩
  · rw [putLabels_eq] at hname
    rcases Array.mem_append.mp hname with hold | hnew
    · obtain ⟨hmax, _, hchained⟩ := hnames name hold
      exact ⟨hmax, hchained.mono (fun _ _ => id) (Nat.le_succ _)⟩
    · have hnoted : name ∈ writer.noted labels := by simpa using hnew
      unfold noted at hnoted
      split at hnoted
      · obtain ⟨hstart, hmax⟩ := List.mem_filter.mp hnoted
        exact ⟨by simpa using hmax, hstarts name hstart⟩
      · exact absurd hnoted List.not_mem_nil
  · rw [size_putLabels]
    exact hspelled

end Writer

/-! ### Names in a row -/

namespace Name

variable {known known' : Known} {data : Octets} {rank pos stop : Nat} {name : Name} {names : List Name}

/-- Names that can be derived one behind the other, each of them up to case and a trailing dot.  There
    are `rank` names in front of the first. -/
inductive Row (known : Known) : Nat → Nat → List Name → Nat → Prop where
  | nil {rank pos : Nat} : Row known rank pos [] pos
  | cons {rank pos middle stop jumps : Nat} {labels : List Label} {name : Name} {names : List Name}
      (spelled : Spelled known jumps pos labels middle) (rank_le : jumps ≤ rank)
      (length_le : jumps ≤ name.wireLabels.length)
      (same : (ofLabels labels).fold = name.dropDot.fold)
      (rest : Row known (rank + 1) middle names stop) : Row known rank pos (name :: names) stop

theorem Row.mono (h : Row known rank pos names stop) (hwithin : Known.Within known known') :
    Row known' rank pos names stop := by
  induction h with
  | nil => exact .nil
  | cons spelled hrank hlength hsame _ ih => exact .cons (spelled.mono hwithin) hrank hlength hsame ih

/-- What is written behind other names is written from where these end. -/
theorem write_append (front back : List Name) (writer : Writer) :
    (front ++ back).forM Name.write writer
      = match front.forM Name.write writer with
        | .ok _ middle => back.forM Name.write middle
        | .error error left => .error error left := by
  have happend : (front ++ back).forM Name.write
      = (do front.forM Name.write; back.forM Name.write) := List.forM_append
  rw [happend]
  exact Writing.bind_apply (front.forM Name.write) (back.forM Name.write) writer

/-- **Writing names.** Names that are written one after the other can be derived in a row. -/
theorem row_of_written {before after : Writer} (h : before.Chained rank)
    (hwrite : names.forM Name.write before = .ok () after) :
    Extends before after ∧ Row (Known.of after.octets) rank before.size names after.size := by
  induction names generalizing rank before with
  | nil =>
    obtain rfl : before = after := by
      injection hwrite
    exact ⟨Extends.refl before, .nil⟩
  | cons name names ih =>
    obtain ⟨middle, hname, hnames⟩ : ∃ middle, name.write before = .ok () middle
        ∧ names.forM Name.write middle = .ok () after := Writing.bind_eq_ok hwrite
    obtain ⟨hlabels, rfl⟩ := write_eq_ok hname
    obtain ⟨hchained, jumps, found, hcount, hrank, hspelled, hfold⟩ := h.putLabels hlabels
    obtain ⟨hext, hrow⟩ := ih hchained hnames
    have hsame : (ofLabels found).fold = name.dropDot.fold := by
      rw [fold_ofLabels, hfold, ← fold_ofLabels, ofLabels_wireLabels]
    exact ⟨(Writer.extends_putLabels before _).trans hext,
      .cons (hspelled.mono hext.within) hrank hcount hsame hrow⟩

/-- A name that needs too many pointers is not read. -/
theorem readFrom_of_spelled_far {used jumps : Nat} {labels : List Label}
    (h : Spelled (Known.of data) used pos labels stop) (hfar : jumps < used) (seen : List Label)
    (resume : Option Nat) :
    ∃ offset, readFrom data jumps pos seen resume = .error (.compressionLoop offset) := by
  induction h generalizing jumps seen resume with
  | root => exact absurd hfar (Nat.not_lt_zero _)
  | label hne hlen hascii hheld _ ih =>
    rw [readFrom_label hne hlen hascii hheld]
    exact ih hfar _ _
  | @pointer used pos stop labels high low hhigh hmark hlow hback _ ih =>
    cases jumps with
    | zero =>
      refine ⟨pos, ?_⟩
      rw [readFrom]
      simp only [show data[pos]? = some high from hhigh, show data[pos + 1]? = some low from hlow]
      rw [if_pos hmark, if_neg (by omega)]
    | succ jumps =>
      rw [readFrom_pointer hhigh hmark hlow hback]
      exact ih (Nat.lt_of_succ_lt_succ hfar) _ _

/-- A name that stands in a row is read, or needs too many pointers. -/
theorem read_of_spelled {jumps : Nat} {labels : List Label}
    (h : Spelled (Known.of data) jumps pos labels stop) :
    if jumps ≤ maxJumps then Name.read data pos = .ok (ofLabels labels) stop
    else ∃ offset, Name.read data pos = .error (.compressionLoop offset) pos := by
  by_cases hjumps : jumps ≤ maxJumps
  · rw [if_pos hjumps, Name.read, readFrom_eq_ok_iff.mpr ⟨jumps, hjumps, h⟩]
  · obtain ⟨offset, hread⟩ := readFrom_of_spelled_far h (Nat.lt_of_not_le hjumps) [] none
    rw [if_neg hjumps]
    exact ⟨offset, by rw [Name.read, hread]⟩

/-- Names in a row are read, after those already seen, unless one of them goes beyond both bounds. -/
theorem Row.manyAfter (h : Row (Known.of data) rank pos names stop) (seen : List Name) :
    (∃ found, Reader.manyAfter Name.read names.length seen data pos = .ok (seen.reverse ++ found) stop
      ∧ found.map Name.fold = names.map fun name => name.dropDot.fold)
      ∨ (∃ i name, names[i]? = some name ∧ maxJumps < rank + i ∧ maxJumps < name.wireLabels.length)
        ∧ ∃ offset reached, Reader.manyAfter Name.read names.length seen data pos
          = .error (.compressionLoop offset) reached := by
  induction h generalizing seen with
  | nil => exact Or.inl ⟨[], by rw [List.append_nil]; rfl, rfl⟩
  | @cons rank pos middle stop jumps labels name names spelled hrank hlength hsame rest ih =>
    have hread := read_of_spelled spelled
    rw [List.length_cons, Reader.manyAfter]
    by_cases hjumps : jumps ≤ maxJumps
    · rw [if_pos hjumps] at hread
      rw [Reader.bind_apply, hread]
      rcases ih (ofLabels labels :: seen) with ⟨found, hmany, hfound⟩ | ⟨⟨i, other, hother, hfar⟩, hmany⟩
      · refine Or.inl ⟨ofLabels labels :: found, ?_, ?_⟩
        · simpa using hmany
        · rw [List.map_cons, List.map_cons, hfound, hsame]
      · refine Or.inr ⟨⟨i + 1, other, by simpa using hother, ?_⟩, hmany⟩
        rwa [show rank + (i + 1) = rank + 1 + i by omega]
    · rw [if_neg hjumps] at hread
      obtain ⟨offset, herror⟩ := hread
      rw [Reader.bind_apply, herror]
      exact Or.inr ⟨⟨0, name, rfl, by omega, by omega⟩, offset, pos, rfl⟩

/-- **Reading what was written.** Names that are written one after the other on a fresh writer are read
    one after the other, up to case and a trailing dot, and nothing is left.  The one way to fail is
    a name that is more than `maxJumps` pointers long, and such a name has more than `maxJumps` labels
    and more than `maxJumps` names in front of it. -/
theorem many_of_written {writer : Writer}
    (hwrite : names.forM Name.write (Writer.empty true) = .ok () writer) :
    (∃ found, Reader.many Name.read names.length writer.octets 0 = .ok found writer.size
      ∧ found.map Name.fold = names.map fun name => name.dropDot.fold)
      ∨ (∃ i name, names[i]? = some name ∧ maxJumps < i ∧ maxJumps < name.wireLabels.length)
        ∧ ∃ offset reached, Reader.many Name.read names.length writer.octets 0
          = .error (.compressionLoop offset) reached := by
  obtain ⟨-, hrow⟩ := row_of_written (Writer.chained_empty true) hwrite
  rcases hrow.manyAfter [] with hread | ⟨⟨i, name, hname, hfar, hlong⟩, herror⟩
  · exact Or.inl hread
  · rw [Nat.zero_add] at hfar
    exact Or.inr ⟨⟨i, name, hname, hfar, hlong⟩, herror⟩

/-- A name, one that ends in it, and that one again in capitals. -/
def nestedNames : List Name := [⟨['b']⟩, ⟨['a', '.', 'b', '.']⟩, ⟨['A', '.', 'B']⟩]

theorem many_of_written_nested :
    ∃ writer found, nestedNames.forM Name.write (Writer.empty true) = .ok () writer
      ∧ Reader.many Name.read 3 writer.octets 0 = .ok found writer.size
      ∧ found.map Name.fold = [⟨['b']⟩, ⟨['a', '.', 'b']⟩, ⟨['a', '.', 'b']⟩] := by
  obtain ⟨writer, hwrite⟩ : ∃ writer, nestedNames.forM Name.write (Writer.empty true) = .ok () writer :=
    ⟨_, rfl⟩
  rcases many_of_written hwrite with ⟨found, hread, hfound⟩ | ⟨⟨i, name, hname, hfar, -⟩, -⟩
  · exact ⟨writer, found, hwrite, hread, hfound.trans (by decide)⟩
  · have hlt : i < nestedNames.length := (List.getElem?_eq_some_iff.mp hname).1
    have hlength : nestedNames.length = 3 := rfl
    have hmax : maxJumps = 128 := rfl
    omega

/-! ### Chains as long as the bounds allow -/

/-- The name of a number of labels that are all the same. -/
def tower (n : Nat) : Name := ofLabels (List.replicate n ['a'])

/-- Towers from one label on, each of them a label higher than the one in front of it. -/
def towers (n : Nat) : List Name := (List.range n).map fun k => tower (k + 1)

theorem ordinary_tower (n : Nat) : ∀ label ∈ List.replicate n ['a'], Label.Ordinary label := by
  intro label hlabel
  rw [List.eq_of_mem_replicate hlabel]
  decide

theorem wireLabels_tower (n : Nat) : (tower n).wireLabels = List.replicate n ['a'] := by
  refine wireLabels_ofLabels (fun label hlabel => (ordinary_tower n label hlabel).1) ?_
  intro label hlabel
  rw [List.eq_of_mem_replicate hlabel]
  decide

theorem write_tower (n : Nat) (writer : Writer) :
    (tower n).write writer = .ok () (writer.putLabels (List.replicate n ['a'])) := by
  rw [write_apply, wireLabels_tower, Label.checkAll_eq_ok_iff.mpr (ordinary_tower n)]

/-- What is on the wire after towers: each of them is a label in front of a pointer to the one before
    it, and takes four octets. -/
structure Towered (n : Nat) (writer : Writer) : Prop where
  compress : writer.compress = true
  size : writer.size = 4 * n - 1
  keys : writer.names.toList.map WrittenName.key
    = (List.range n).map fun k => (4 * k - 1, List.replicate (k + 1) ['a'])
  spelled : ∀ k < n, ∃ stop, Spelled (Known.of writer.octets) k (4 * k - 1)
    (List.replicate (k + 1) ['a']) stop

namespace Towered

variable {n : Nat} {writer : Writer}

theorem empty : Towered 0 (Writer.empty true) :=
  ⟨rfl, rfl, rfl, fun _ hk => absurd hk (Nat.not_lt_zero _)⟩

/-- Every tower is found where it was written, and higher ones are not. -/
theorem find?_eq (h : Towered n writer) (k : Nat) :
    writer.find? (List.replicate (k + 1) ['a']) = if k < n then some (4 * k - 1) else none := by
  have hfold : (List.replicate (k + 1) ['a']).map Text.fold = List.replicate (k + 1) ['a'] :=
    List.map_replicate
  have hsame : ∀ j, decide (List.replicate (j + 1) ['a'] = List.replicate (k + 1) ['a']) = true
      ↔ j = k := by
    intro j
    rw [decide_eq_true_iff]
    refine ⟨fun hlabels => ?_, fun heq => by rw [heq]⟩
    simpa using congrArg List.length hlabels
  rw [Writer.find?_eq, if_pos h.compress, h.keys, hfold, List.find?_map]
  by_cases hk : k < n
  · have hfind : (List.range n).find? ((fun key : Nat × List Label =>
        decide (key.2 = List.replicate (k + 1) ['a'])) ∘ fun j =>
          (4 * j - 1, List.replicate (j + 1) ['a'])) = some k := by
      refine List.find?_range_eq_some.mpr ⟨(hsame k).mpr rfl, List.mem_range.mpr hk, fun j hj => ?_⟩
      rw [Bool.not_eq_true', Bool.eq_false_iff]
      exact fun hother => absurd ((hsame j).mp hother) (Nat.ne_of_lt hj)
    rw [if_pos hk, hfind]
    rfl
  · rw [if_neg hk, Option.map_eq_none_iff, Option.map_eq_none_iff, List.find?_eq_none]
    intro j hj hother
    obtain rfl := (hsame j).mp hother
    exact hk (List.mem_range.mp hj)

/-- The tower that was written last is written again as a pointer, and the root as its octet. -/
theorem spelling_eq (h : Towered n writer) :
    writer.spelling (List.replicate n ['a'])
      = if n = 0 then [0] else Writer.pointer (4 * (n - 1) - 1) := by
  cases n with
  | zero => rfl
  | succ k =>
    have hfind := h.find?_eq k
    rw [if_pos (Nat.lt_succ_self k)] at hfind
    rw [if_neg (Nat.succ_ne_zero k), Writer.spelling_of_find? (by simp) hfind, Nat.succ_sub_one]

/-- Where the last tower stands again, it needs as many pointers as it has labels. -/
theorem spelled_again (h : Towered n writer) (hmax : 4 * n ≤ Writer.maxPointer) {known : Known}
    {pos : Nat} (hwithin : Known.Within (Known.of writer.octets) known) (hpos : writer.size ≤ pos)
    (hheld : known.Holds pos (writer.spelling (List.replicate n ['a']))) :
    ∃ stop, Spelled known n pos (List.replicate n ['a']) stop := by
  rw [h.spelling_eq] at hheld
  cases n with
  | zero => exact ⟨pos + 1, .root (Known.holds_cons.mp hheld).1⟩
  | succ k =>
    obtain ⟨stop, hspelled⟩ := h.spelled k (Nat.lt_succ_self k)
    have hsize := h.size
    rw [if_neg (Nat.succ_ne_zero k), Nat.succ_sub_one] at hheld
    exact ⟨pos + 2, Writer.spelled_pointer (by omega) (by omega) (hspelled.mono hwithin) hheld⟩

/-- The next tower is a label in front of a pointer to the last one. -/
theorem next (h : Towered n writer) (hmax : 4 * n ≤ Writer.maxPointer) :
    Towered (n + 1) (writer.putLabels (List.replicate (n + 1) ['a'])) := by
  have hsize := h.size
  have hhere := h.find?_eq n
  rw [if_neg (Nat.lt_irrefl n), List.replicate_succ] at hhere
  have hspelling : writer.spelling (List.replicate (n + 1) ['a'])
      = Label.wire ['a'] ++ writer.spelling (List.replicate n ['a']) := by
    rw [List.replicate_succ, Writer.spelling, hhere]
  have hstarts : ∀ offset, writer.starts offset (List.replicate n ['a']) = [] := by
    intro offset
    cases n with
    | zero => rfl
    | succ k =>
      have hlast := h.find?_eq k
      rw [if_pos (Nat.lt_succ_self k), List.replicate_succ] at hlast
      rw [List.replicate_succ, Writer.starts, hlast]
  have hnoted : writer.noted (List.replicate (n + 1) ['a'])
      = [{ offset := writer.size, labels := List.replicate (n + 1) ['a'] }] := by
    have hnear : writer.size ≤ Writer.maxPointer := by omega
    unfold Writer.noted
    rw [if_pos h.compress, List.replicate_succ, Writer.starts, hhere]
    simp only [hstarts]
    rw [List.filter_cons_of_pos (by simpa using hnear), List.filter_nil]
  refine ⟨by rw [Writer.putLabels_eq]; exact h.compress, ?_, ?_, ?_⟩
  · rw [Writer.size_putLabels, hspelling, h.spelling_eq, List.length_append, Label.length_wire]
    split
    · simp
      omega
    · simp [Writer.pointer]
      omega
  · rw [Writer.putLabels_eq, hnoted]
    simp only [Array.toList_append, List.map_append, h.keys, List.range_succ]
    simp [WrittenName.key, hsize]
    rfl
  · have hext := Writer.extends_putLabels writer (List.replicate (n + 1) ['a'])
    have hheld := Writer.holds_putLabels writer (List.replicate (n + 1) ['a'])
    rw [hspelling] at hheld
    obtain ⟨hlabel, hrest⟩ := Known.holds_append hheld
    intro k hk
    by_cases hlast : k < n
    · obtain ⟨stop, hspelled⟩ := h.spelled k hlast
      exact ⟨stop, hspelled.mono hext.within⟩
    · obtain rfl : k = n := by omega
      obtain ⟨stop, hspelled⟩ := h.spelled_again hmax hext.within (Nat.le_add_right _ _) hrest
      rw [← hsize, List.replicate_succ]
      exact ⟨stop, spelled_wire (by decide) hlabel hspelled⟩

end Towered

/-- Towers can be written, as long as a pointer reaches them. -/
theorem write_towers {n : Nat} (hmax : 4 * n ≤ Writer.maxPointer) :
    ∃ writer, (towers n).forM Name.write (Writer.empty true) = .ok () writer ∧ Towered n writer := by
  induction n with
  | zero => exact ⟨_, rfl, .empty⟩
  | succ n ih =>
    obtain ⟨writer, hwrite, htowered⟩ := ih (by omega)
    refine ⟨_, ?_, htowered.next (by omega)⟩
    have htowers : towers (n + 1) = towers n ++ [tower (n + 1)] := by
      rw [towers, List.range_succ, List.map_append]
      rfl
    rw [htowers, write_append, hwrite]
    show (do (tower (n + 1)).write; pure ()) writer = _
    rw [Writing.bind_apply, write_tower]
    rfl

/-- A name that is not read ends the reading of names. -/
theorem manyAfter_error {count reached : Nat} {seen found : List Name} {error : FormatError}
    (h : Reader.manyAfter Name.read count seen data pos = .ok found reached)
    (herror : Name.read data reached = .error error reached) :
    Reader.manyAfter Name.read (count + 1) seen data pos = .error error reached := by
  induction count generalizing seen pos with
  | zero =>
    obtain ⟨-, rfl⟩ : seen.reverse = found ∧ pos = reached := by
      simpa [Reader.manyAfter] using h
    rw [Reader.manyAfter, Reader.bind_apply, herror]
  | succ count ih =>
    rw [Reader.manyAfter, Reader.bind_apply] at h ⊢
    cases hread : Name.read data pos with
    | error error' reached' =>
      rw [hread] at h
      exact absurd h (by simp)
    | ok value middle =>
      rw [hread] at h
      exact ih h

/-- **Sharpness.** Behind towers the last of them needs as many pointers as it has labels, and as there
    are names in front of it. -/
theorem tower_jumps {n : Nat} (hmax : 4 * n ≤ Writer.maxPointer) :
    ∃ writer after stop, (towers n).forM Name.write (Writer.empty true) = .ok () writer
      ∧ (tower n).write writer = .ok () after ∧ Extends writer after
      ∧ Spelled (Known.of after.octets) n writer.size (List.replicate n ['a']) stop := by
  obtain ⟨writer, hwrite, htowered⟩ := write_towers hmax
  have hext := Writer.extends_putLabels writer (List.replicate n ['a'])
  have hheld := Writer.holds_putLabels writer (List.replicate n ['a'])
  obtain ⟨stop, hspelled⟩ := htowered.spelled_again hmax hext.within (Nat.le_refl _) hheld
  exact ⟨writer, _, stop, hwrite, write_tower n writer, hext, hspelled⟩

/-- A tower of 129 labels behind 129 towers is written, and needs one pointer too many. -/
theorem towers_not_read :
    ∃ writer, (towers 129 ++ [tower 129]).forM Name.write (Writer.empty true) = .ok () writer
      ∧ ∃ offset reached, Reader.many Name.read 130 writer.octets 0
        = .error (.compressionLoop offset) reached := by
  obtain ⟨writer, after, stop, hwrite, hlast, hext, hspelled⟩ := tower_jumps (n := 129) (by decide)
  have hlength : (towers 129).length = 129 := by
    rw [towers, List.length_map, List.length_range]
  refine ⟨after, ?_, ?_⟩
  · rw [write_append, hwrite]
    show (do (tower 129).write; pure ()) writer = _
    rw [Writing.bind_apply, hlast]
    rfl
  · -- The towers in front of it have at most 128 names in front of them.
    obtain ⟨-, hrow⟩ := row_of_written (Writer.chained_empty true) hwrite
    obtain ⟨found, hread, -⟩ : ∃ found, Reader.manyAfter Name.read (towers 129).length []
        after.octets 0 = .ok ([] ++ found) writer.size ∧ _ := by
      refine ((hrow.mono hext.within).manyAfter []).resolve_right ?_
      rintro ⟨⟨i, name, hname, hfar, -⟩, -⟩
      have hlt : i < (towers 129).length := (List.getElem?_eq_some_iff.mp hname).1
      have hmax : maxJumps = 128 := rfl
      omega
    obtain ⟨offset, herror⟩ : ∃ offset, Name.read after.octets writer.size
        = .error (.compressionLoop offset) writer.size := by
      have hspell := read_of_spelled hspelled
      rwa [if_neg (by decide)] at hspell
    rw [hlength] at hread
    exact ⟨offset, writer.size, manyAfter_error hread herror⟩

end Name

end DnsResolver
