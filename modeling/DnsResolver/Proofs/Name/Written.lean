import DnsResolver.Proofs.Name.Spelling

namespace DnsResolver

/-!
# Names that were written can be read

A writer remembers names for later pointers.  It is *sound* when each of them can be derived
from its octets, up to ASCII case, with fewer pointers than it has labels: then a name of at most
`maxJumps` labels never needs more than `maxJumps` pointers.

* `WrittenName.Readable`, `Writer.Sound` — the remembered names, and all of them.
* `Writer.putsName` — labels that are written can be derived where they start.
* `Name.write_spec` — writing a name that may be written does not fail, and keeps soundness.
-/

/-! ### Soundness of what is remembered -/

/-- A remembered name can be derived where it starts, up to case, and a pointer can refer to
    it. Its first label is no pointer, so it needs fewer of them than it has labels. -/
def WrittenName.Readable (known : Known) (name : WrittenName) : Prop :=
  name.offset ≤ Writer.maxPointer ∧ ∃ jumps labels stop, jumps < name.labels.length
    ∧ Name.Spelled known jumps name.offset labels stop
    ∧ labels.map Text.fold = name.labels.map Text.fold

theorem WrittenName.Readable.mono {a b : Known} {name : WrittenName} (h : name.Readable a)
    (hab : Known.Within a b) : name.Readable b := by
  obtain ⟨hoffset, jumps, labels, stop, hjumps, hspelled, hfold⟩ := h
  exact ⟨hoffset, jumps, labels, stop, hjumps, hspelled.mono hab, hfold⟩

namespace Writer

open Name (Spelled)

variable {pending : List Nat} {before middle after writer : Writer} {labels rest : List Label}

/-- All remembered names are readable without the octets that are pending. -/
structure Sound (pending : List Nat) (writer : Writer) : Prop where
  pending_lt : ∀ i ∈ pending, i < writer.size
  names : ∀ name ∈ writer.names, name.Readable (writer.known pending)

/-- What is written without any name keeps a writer sound. -/
theorem Sound.of_extends (h : Sound pending before) (hext : Extends before after)
    (hnames : after.names = before.names) : Sound pending after where
  pending_lt i hi := Nat.lt_of_lt_of_le (h.pending_lt i hi) hext.size_le
  names name hname := by
    rw [hnames] at hname
    exact (h.names name hname).mono (hext.known pending)

theorem sound_empty (compress : Bool) : Sound [] (Writer.empty compress) where
  pending_lt _ hi := absurd hi List.not_mem_nil
  names name hname := absurd hname (Array.not_mem_empty name)

/-! ### Writing labels -/

/-- What writing labels does: they can be derived where they start, and every name that is
    remembered on the way is readable. -/
structure PutsName (pending : List Nat) (labels : List Label) (before after : Writer) : Prop where
  extends_before : Extends before after
  size_le : after.size ≤ before.size + (64 * labels.length + 1)
  spelled : ∃ jumps found, jumps ≤ labels.length
    ∧ Spelled (after.known pending) jumps before.size found after.size
    ∧ found.map Text.fold = labels.map Text.fold
  names : ∀ name ∈ after.names, name ∈ before.names ∨ name.Readable (after.known pending)

/-- **Writing labels.** Ordinary labels are written so that they can be derived, and so can every
    suffix of them that is noted. -/
theorem putsName (hlabels : ∀ label ∈ labels, label.Ordinary) (hsound : before.Sound pending) :
    PutsName pending labels before (before.putLabels labels) := by
  have hext := extends_putLabels before labels
  have hfound : ∀ suffix offset, suffix <:+ labels → before.find? suffix = some offset →
      offset ≤ maxPointer ∧ offset < before.size
        ∧ ∃ jumps found stop,
          Spelled ((before.putLabels labels).known pending) jumps offset found stop
            ∧ Respelled suffix (jumps + 1) found := by
    intro suffix offset _ hfind
    obtain ⟨name, hname, rfl, hsame⟩ := find?_eq_some hfind
    obtain ⟨hmax, jumps, found, stop, hcount, hspelled, hfold⟩ := hsound.names name hname
    obtain ⟨octet, hoctet⟩ := hspelled.known_pos
    have hlength : name.labels.length = suffix.length := by
      simpa using congrArg List.length hsame
    exact ⟨hmax, lt_size_of_known hoctet, jumps, found, stop, hspelled.mono (hext.known pending),
      hlength ▸ hcount, hfold.trans hsame⟩
  obtain ⟨⟨jumps, found, hspelled, hgood⟩, hstarts⟩ := spelling_spelled hlabels
    (known_putLabels hsound.pending_lt labels) Respelled.root
    (fun label _ _ _ _ _ hgood => hgood.label label) hfound
  rw [← size_putLabels] at hspelled
  refine ⟨hext, ?_, ⟨jumps, found, hgood.jumps_le, hspelled, hgood.same⟩, fun name hname => ?_⟩
  · rw [size_putLabels]
    exact Nat.add_le_add_left (length_spelling_le_room hlabels) _
  · have hnames : (before.putLabels labels).names = before.names ++ (before.noted labels).toArray := by
      rw [putLabels_eq]
    rw [hnames, Array.mem_append] at hname
    refine hname.imp id fun hnew => ?_
    -- A label stands in front of the pointers of what is behind it.
    have hnoted := List.mem_toArray.mp hnew
    obtain ⟨label, rest, jumps, found, stop, hwhole, hspelled, hgood⟩ :=
      hstarts name (mem_noted hnoted)
    have hhere := hgood.label label
    rw [WrittenName.Readable, hwhole]
    exact ⟨offset_le_of_mem_noted hnoted, jumps, label :: found, stop,
      Nat.lt_succ_of_le hgood.jumps_le, hspelled, hhere.same⟩

/-- The names that are noted while labels are written are readable. -/
theorem PutsName.sound (h : PutsName pending labels before after) (hsound : before.Sound pending) :
    after.Sound pending where
  pending_lt i hi := Nat.lt_of_lt_of_le (hsound.pending_lt i hi) h.extends_before.size_le
  names name hname := by
    rcases h.names name hname with hold | hreadable
    · exact (hsound.names name hold).mono (h.extends_before.known pending)
    · exact hreadable

end Writer

/-! ### Writing names -/

/-- **Writing a name.** A name that may be written is written, the writer stays sound, and what
    stands there is read as the name, up to case. -/
theorem Name.write_spec {pending : List Nat} {before : Writer} {name : Name} (hname : name.Ordinary)
    (hsound : before.Sound pending) :
    ∃ after, name.write before = .ok () after ∧ Writer.Extends before after
      ∧ after.Sound pending ∧ after.size ≤ before.size + 8193
      ∧ Writer.Legible pending before after Name.read fun found => found.fold = name.fold := by
  have hlabels := ordinary_wireLabels hname
  have hcount := length_wireLabels_le hname
  have hputs := Writer.putsName hlabels hsound
  refine ⟨before.putLabels name.wireLabels, ?_, hputs.extends_before, hputs.sound hsound, ?_, ?_⟩
  · rw [write_apply, Label.checkAll_of_ordinary hlabels]
  · have hle := hputs.size_le
    have hmax : maxJumps = 128 := rfl
    omega
  · intro data hdata
    obtain ⟨jumps, found, hused, hspelled, hfold⟩ := hputs.spelled
    have hread : readFrom data maxJumps before.size [] none
        = .ok (found, (before.putLabels name.wireLabels).size) :=
      readFrom_eq_ok_iff.mpr ⟨jumps, Nat.le_trans hused hcount, hspelled.mono hdata.known⟩
    refine ⟨ofLabels found, ?_, ?_⟩
    · unfold Name.read
      rw [hread]
    · show (ofLabels found).fold = name.fold
      rw [fold_ofLabels, hfold, ← fold_ofLabels, ofLabels_wireLabels, dropDot_of_ordinary hname]

end DnsResolver
