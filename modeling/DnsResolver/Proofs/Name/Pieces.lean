import DnsResolver.Proofs.Name.Spelling
import Mathlib

namespace DnsResolver

/-!
# The pieces of a name

A name that is read is the text of its labels, with a dot between two of them.  A label on the wire
may hold any ASCII character, and nothing marks a dot in it as its own: the pieces of the text are
the labels exactly if no label has a dot.

* `Name.pieces` — the pieces between the dots, none of them for the root.
* `Name.Spelled.ordinary`, `Name.spelled_of_wires` — labels that are read, and those that stand there
  one after the other.
* `Name.write_empty_iff` — which labels a text is written with on a fresh writer.
* `Name.read_pieces` — reading a name, its pieces and writing it again.
-/

namespace Name

variable {known : Known} {data : Octets} {jumps pos stop : Nat} {labels : List Label} {name : Name}

/-- The pieces of a text between its dots. The root has none. -/
def pieces (name : Name) : List Label := if name.isRoot then [] else name.labels

/-! ### Labels that were read -/

/-- Labels that can be derived can be written, apart from the dots in them. -/
theorem Spelled.ordinary (h : Spelled known jumps pos labels stop) :
    ∀ label ∈ labels, label.Ordinary := by
  induction h with
  | root => exact fun label hlabel => absurd hlabel List.not_mem_nil
  | label hne hlen hascii _ _ ih => exact List.forall_mem_cons.mpr ⟨⟨hne, hlen, hascii⟩, ih⟩
  | pointer _ _ _ _ _ ih => exact ih

/-- Labels that stand one after the other in front of a zero octet can be derived. -/
theorem spelled_of_wires (hlabels : ∀ label ∈ labels, label.Ordinary)
    (hheld : known.Holds pos (labels.flatMap Label.wire ++ [0])) :
    Spelled known 0 pos labels (pos + (labels.flatMap Label.wire ++ [0]).length) := by
  induction labels generalizing pos with
  | nil => exact .root (Known.holds_cons.mp hheld).1
  | cons label rest ih =>
    obtain ⟨hlabel, hrest⟩ := List.forall_mem_cons.mp hlabels
    rw [List.flatMap_cons, List.append_assoc] at hheld ⊢
    obtain ⟨hwire, hbehind⟩ := Known.holds_append hheld
    rw [List.length_append, ← Nat.add_assoc]
    exact spelled_wire hlabel hwire (ih hrest hbehind)

/-- No text stands for labels with a dot, and every text of labels without one for these labels. -/
theorem pieces_ofLabels_iff (hlabels : ∀ label ∈ labels, label ≠ []) :
    (ofLabels labels).pieces = labels ↔ ∀ label ∈ labels, '.' ∉ label := by
  constructor
  · intro hpieces label hlabel
    rw [← hpieces, pieces] at hlabel
    split at hlabel
    · exact absurd hlabel List.not_mem_nil
    · exact not_mem_labels hlabel
  · intro hdot
    by_cases hnil : labels = []
    · rw [hnil]
      rfl
    · have hpieces := labels_ofLabels hnil hdot
      have hroot : ¬ (ofLabels labels).isRoot = true := by
        intro hroot
        have hchars : (ofLabels labels).chars = [] := by simpa [isRoot] using hroot
        -- The root is one piece, which is empty.
        rw [Name.labels, hchars] at hpieces
        exact hlabels [] (hpieces ▸ List.mem_cons_self) rfl
      rw [pieces, if_neg hroot, hpieces]

/-! ### Writing a name alone -/

/-- On a fresh writer nothing was written before, so all labels are written out, and read again. -/
theorem readFrom_putLabels (compress : Bool) (hlabels : ∀ label ∈ labels, label.Ordinary) :
    readFrom ((Writer.empty compress).putLabels labels).octets maxJumps 0 [] none
      = .ok (labels, ((Writer.empty compress).putLabels labels).size) := by
  have hfresh : ∀ suffix, (Writer.empty compress).find? suffix = none := by
    intro suffix
    cases compress with
    | true => exact (Writer.find?_eq_none rfl).mpr fun name hname => absurd hname (Array.not_mem_empty name)
    | false => exact Writer.find?_plain rfl suffix
  have hspelling := Writer.spelling_of_none hfresh labels
  have hheld := Writer.holds_putLabels (Writer.empty compress) labels
  rw [hspelling] at hheld
  have hspelled := spelled_of_wires hlabels hheld
  rw [← hspelling, ← Writer.size_putLabels] at hspelled
  exact readFrom_eq_ok_iff.mpr ⟨0, Nat.zero_le _, hspelled⟩

/-- A text is written as the labels it was read from exactly if none of them has a dot. -/
theorem write_empty_iff (compress : Bool) (hlabels : ∀ label ∈ labels, label.Ordinary) :
    (∃ writer, (ofLabels labels).write (.empty compress) = .ok () writer
      ∧ readFrom writer.octets maxJumps 0 [] none = .ok (labels, writer.size))
      ↔ ∀ label ∈ labels, '.' ∉ label := by
  constructor
  · rintro ⟨writer, hwrite, hread⟩ label hlabel
    rw [write_apply] at hwrite
    cases hcheck : Label.checkAll (ofLabels labels).wireLabels with
    | error error =>
      rw [hcheck] at hwrite
      exact absurd hwrite (by simp)
    | ok _ =>
      rw [hcheck] at hwrite
      injection hwrite with _ hwriter
      -- What is written is read again, so these are the labels that were written.
      have hagain := readFrom_putLabels compress (Label.checkAll_eq_ok_iff.mp hcheck)
      rw [hwriter, hread] at hagain
      obtain ⟨hsame, -⟩ := Prod.mk.inj (Except.ok.inj hagain)
      rw [hsame] at hlabel
      exact not_mem_wireLabels hlabel
  · intro hdot
    have hwire : (ofLabels labels).wireLabels = labels :=
      wireLabels_ofLabels (fun label hlabel => (hlabels label hlabel).1) hdot
    refine ⟨_, ?_, readFrom_putLabels compress hlabels⟩
    rw [write_apply, hwire, Label.checkAll_eq_ok_iff.mpr hlabels]

/-! ### Reading names -/

/-- **Pieces of a name.** A name that is read is the text of the labels that stand in the message.  Its
    pieces are these labels exactly if none of them has a dot, and exactly then it is written as them
    again.  What is written then is read as the same text, and no other labels without a dot are
    read as that text anywhere. -/
theorem read_pieces (h : Name.read data pos = .ok name stop) :
    ∃ labels, readFrom data maxJumps pos [] none = .ok (labels, stop)
      ∧ (name.pieces = labels ↔ ∀ label ∈ labels, '.' ∉ label)
      ∧ (∀ compress, (∃ writer, name.write (.empty compress) = .ok () writer
          ∧ readFrom writer.octets maxJumps 0 [] none = .ok (labels, writer.size))
          ↔ ∀ label ∈ labels, '.' ∉ label)
      ∧ ((∀ label ∈ labels, '.' ∉ label) → ∀ compress, ∃ writer,
          name.write (.empty compress) = .ok () writer
            ∧ Name.read writer.octets 0 = .ok name writer.size)
      ∧ ((∀ label ∈ labels, '.' ∉ label) → ∀ data' pos' labels' stop',
          readFrom data' maxJumps pos' [] none = .ok (labels', stop') → ofLabels labels' = name →
          (∀ label ∈ labels', '.' ∉ label) → labels' = labels) := by
  obtain ⟨labels, hread, rfl⟩ := read_eq_ok_iff.mp h
  have hordinary : ∀ {data pos stop labels},
      readFrom data maxJumps pos [] none = .ok (labels, stop) → ∀ label ∈ labels, Label.Ordinary label := by
    intro data pos stop labels hread
    obtain ⟨jumps, -, hspelled⟩ := readFrom_eq_ok_iff.mp hread
    exact hspelled.ordinary
  have hpieces : ∀ {data pos stop labels}, readFrom data maxJumps pos [] none = .ok (labels, stop) →
      ((ofLabels labels).pieces = labels ↔ ∀ label ∈ labels, '.' ∉ label) :=
    fun hread => pieces_ofLabels_iff fun label hlabel => (hordinary hread label hlabel).1
  refine ⟨labels, hread, hpieces hread, fun compress => write_empty_iff compress (hordinary hread),
    ?_, ?_⟩
  · intro hdot compress
    obtain ⟨writer, hwrite, hagain⟩ := (write_empty_iff compress (hordinary hread)).mpr hdot
    exact ⟨writer, hwrite, read_eq_ok_iff.mpr ⟨labels, hagain, rfl⟩⟩
  · intro hdot data' pos' labels' stop' hread' hsame hdot'
    rw [← (hpieces hread').mpr hdot', hsame, (hpieces hread).mpr hdot]

/-- The octets of one label with a dot in it. -/
def dottedOctets : Octets := #[3, 97, 46, 98, 0]

/-- A label with a dot is read as the text of two labels without one. -/
theorem read_dotted :
    readFrom dottedOctets maxJumps 0 [] none = .ok ([['a', '.', 'b']], 5)
      ∧ Name.read dottedOctets 0 = .ok ⟨['a', '.', 'b']⟩ 5
      ∧ Name.pieces ⟨['a', '.', 'b']⟩ = [['a'], ['b']]
      ∧ readFrom #[1, 97, 1, 98, 0] maxJumps 0 [] none = .ok ([['a'], ['b']], 5)
      ∧ Name.read #[1, 97, 1, 98, 0] 0 = .ok ⟨['a', '.', 'b']⟩ 5 := by
  refine ⟨by cbv, by cbv, by decide, by cbv, by cbv⟩

/-- Two labels behind a pointer, which are written without it. -/
theorem read_pieces_pointed :
    Name.read #[1, 98, 0, 1, 97, 192, 0] 3 = .ok ⟨['a', '.', 'b']⟩ 7
      ∧ Name.pieces ⟨['a', '.', 'b']⟩ = [['a'], ['b']]
      ∧ ∃ writer, Name.write ⟨['a', '.', 'b']⟩ (.empty true) = .ok () writer
        ∧ Name.read writer.octets 0 = .ok ⟨['a', '.', 'b']⟩ writer.size := by
  have hread : Name.read #[1, 98, 0, 1, 97, 192, 0] 3 = .ok ⟨['a', '.', 'b']⟩ 7 := by cbv
  have hlabels : readFrom #[1, 98, 0, 1, 97, 192, 0] maxJumps 3 [] none = .ok ([['a'], ['b']], 7) := by
    cbv
  obtain ⟨labels, hfound, hpieces, -, hagain, -⟩ := read_pieces hread
  obtain ⟨rfl, -⟩ := Prod.mk.inj (Except.ok.inj (hlabels.symm.trans hfound))
  have hdot : ∀ label ∈ [['a'], ['b']], '.' ∉ label := by decide
  exact ⟨hread, hpieces.mpr hdot, hagain hdot true⟩

end Name

end DnsResolver
