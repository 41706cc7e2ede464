import DnsResolver.Proofs.Name.Grammar
import Mathlib

namespace DnsResolver

/-!
# What reading a name accepts

Reading goes forwards over labels and backwards over pointers, may come over the same octets again,
and goes on behind the first pointer when it is done.  It finds a name exactly where the grammar
derives one with few enough pointers.

* `Name.read_eq_ok_iff_spelled` — the names that are read.
* `Name.Fault`, `Name.fault_of_readFrom` — what is wrong where no name is read.
* `Name.read_grammar` — reading a name and the grammar of names.
-/

namespace Name

variable {data : Octets} {jumps pos stop : Nat} {seen : List Label} {resume : Option Nat}
  {error : FormatError}

/-- Reading gives the text of the labels that are derived, and goes on where their derivation stops. -/
theorem read_eq_ok_iff_spelled {name : Name} :
    Name.read data pos = .ok name stop
      ↔ ∃ jumps ≤ maxJumps, ∃ labels, Spelled (Known.of data) jumps pos labels stop
        ∧ name = ofLabels labels := by
  rw [read_eq_ok_iff]
  constructor
  · rintro ⟨labels, hread, hname⟩
    obtain ⟨used, hused, hspelled⟩ := readFrom_eq_ok_iff.mp hread
    exact ⟨used, hused, labels, hspelled, hname⟩
  · rintro ⟨used, hused, labels, hspelled, hname⟩
    exact ⟨labels, readFrom_eq_ok_iff.mpr ⟨used, hused, hspelled⟩, hname⟩

/-! ### Where no name is read -/

/-- What can be wrong with a name, as an error tells it: something in a message that a derivation
    cannot go on from. -/
inductive Fault (data : Octets) : FormatError → Prop where
  /-- There is nothing any more in front of the offset, or at it. -/
  | ended {offset : Nat} (hsize : data.size ≤ offset) : Fault data (.endOfStream offset)
  /-- The two top bits of a length are neither those of a label nor those of a pointer. -/
  | reserved {pos : Nat} {length : UInt8} (hlength : data[pos]? = some length)
      (hlong : Label.maxLength < length.toNat) (hmark : length.toNat < 192) :
      Fault data (.labelTooLong length.toNat)
  /-- A label has an octet above 127. -/
  | foreign {pos : Nat} {length : UInt8} (hlength : data[pos]? = some length)
      (hshort : length.toNat ≤ Label.maxLength)
      (hascii : ∃ i octet, i < length.toNat ∧ data[pos + 1 + i]? = some octet ∧ 128 ≤ octet.toNat) :
      Fault data (.invalidLabel (.octetsAt pos))
  /-- A pointer does not lead backwards, or all pointers that one name may follow were followed. -/
  | loop {pos : Nat} {high low : UInt8} (hhigh : data[pos]? = some high) (hmark : 192 ≤ high.toNat)
      (hlow : data[pos + 1]? = some low) : Fault data (.compressionLoop pos)

/-- A label that is not ASCII has an octet above 127. -/
theorem exists_foreign {length : Nat} (hsize : pos + length ≤ data.size)
    (h : ¬ (Label.ofOctets (data.extract pos (pos + length))).all Text.isAscii = true) :
    ∃ i octet, i < length ∧ data[pos + i]? = some octet ∧ 128 ≤ octet.toNat := by
  obtain ⟨c, hc, hforeign⟩ : ∃ c ∈ Label.ofOctets (data.extract pos (pos + length)),
      ¬ Text.isAscii c = true := by
    simpa using h
  obtain ⟨octet, hoctet, rfl⟩ := List.mem_map.mp hc
  obtain ⟨i, hi, hget⟩ := Array.mem_iff_getElem.mp (Array.mem_toList_iff.mp hoctet)
  rw [Array.size_extract] at hi
  rw [Array.getElem_extract] at hget
  refine ⟨i, octet, by omega, by rw [← hget, Array.getElem?_eq_getElem], ?_⟩
  -- Octets below 128 are the characters of that number.
  refine Nat.le_of_not_lt fun hsmall => hforeign ?_
  have hvalid : octet.toNat.isValidChar := Or.inl (by omega)
  have htoNat : (Char.ofNat octet.toNat).toNat = octet.toNat := by
    rw [Char.ofNat, dif_pos hvalid]
    rfl
  rw [Text.isAscii, htoNat, decide_eq_true hsmall]

/-- Reading fails with an error that is true of the message. -/
theorem fault_of_readFrom (h : readFrom data jumps pos seen resume = .error error) :
    Fault data error := by
  fun_induction readFrom data jumps pos seen resume with
  -- Two steps go on, one ends with the name, and each of the others comes to a fault.
  | case5 _ _ _ _ _ _ _ _ _ _ _ ih => exact ih h
  | case9 _ _ _ _ _ _ _ _ _ _ _ _ _ ih => exact ih h
  | case6 => exact absurd h (by simp)
  | case1 jumps pos seen resume hnone =>
    obtain rfl := Except.error.inj h
    exact .ended (Array.getElem?_eq_none_iff.mp hnone)
  | case2 jumps pos seen resume high hhigh hmark hnone =>
    obtain rfl := Except.error.inj h
    exact .ended (Array.getElem?_eq_none_iff.mp hnone)
  | case3 jumps pos seen resume high hhigh hmark low hlow =>
    obtain rfl := Except.error.inj h
    exact .loop hhigh hmark hlow
  | case4 pos seen resume high hhigh hmark low hlow =>
    obtain rfl := Except.error.inj h
    exact .loop hhigh hmark hlow
  | case7 jumps pos seen resume length hlength hmark hzero hshort next hsize =>
    obtain rfl := Except.error.inj h
    exact .ended (Nat.le_of_lt hsize)
  | case8 jumps pos seen resume length hlength hmark hzero hshort next hsize label hascii =>
    obtain rfl := Except.error.inj h
    exact .foreign hlength hshort (exists_foreign (Nat.le_of_not_lt hsize) (by simpa using hascii))
  | case10 jumps pos seen resume length hlength hmark hzero hlong =>
    obtain rfl := Except.error.inj h
    exact .reserved hlength (Nat.lt_of_not_le hlong) (Nat.lt_of_not_le hmark)

/-- **Reading and the grammar.** Reading a name comes to an end on every message and from every position.
    It succeeds exactly with the text and the end of a derivation that follows at most `maxJumps` pointers,
    and then the position moves on inside of the message.  Otherwise it fails with a fault of the message,
    and the position stays where it was. -/
theorem read_grammar (data : Octets) (pos : Nat) :
    (∀ name stop, Name.read data pos = .ok name stop
        ↔ ∃ jumps ≤ maxJumps, ∃ labels, Spelled (Known.of data) jumps pos labels stop
          ∧ name = ofLabels labels)
      ∧ (∀ name stop, Name.read data pos = .ok name stop → pos < stop ∧ stop ≤ data.size)
      ∧ ((¬∃ jumps ≤ maxJumps, ∃ labels stop, Spelled (Known.of data) jumps pos labels stop) →
          ∃ error, Name.read data pos = .error error pos ∧ Fault data error) := by
  refine ⟨fun name stop => read_eq_ok_iff_spelled, fun name stop hread => ?_, fun hnone => ?_⟩
  · obtain ⟨jumps, -, labels, hspelled, -⟩ := read_eq_ok_iff_spelled.mp hread
    exact ⟨hspelled.pos_lt_stop, hspelled.stop_le_size⟩
  · cases hread : readFrom data maxJumps pos [] none with
    | ok found =>
      obtain ⟨labels, stop⟩ := found
      obtain ⟨jumps, hjumps, hspelled⟩ := readFrom_eq_ok_iff.mp hread
      exact absurd ⟨jumps, hjumps, labels, stop, hspelled⟩ hnone
    | error error =>
      refine ⟨error, ?_, fault_of_readFrom hread⟩
      rw [Name.read, hread]

/-- Labels in front of a pointer, one behind it that is reached again from a second pointer, and a
    pointer to itself. -/
def crossedOctets : Octets := #[1, 98, 0, 1, 97, 192, 0, 1, 99, 192, 3, 192, 11]

/-- Two pointers are followed and the reading goes on behind the first of them; no name starts at the
    pointer to itself. -/
theorem read_grammar_crossed :
    Name.read crossedOctets 7 = .ok ⟨['c', '.', 'a', '.', 'b']⟩ 11
      ∧ (∃ jumps ≤ maxJumps, ∃ labels, Spelled (Known.of crossedOctets) jumps 7 labels 11
        ∧ (⟨['c', '.', 'a', '.', 'b']⟩ : Name) = ofLabels labels)
      ∧ ∃ error, Name.read crossedOctets 11 = .error error 11 ∧ Fault crossedOctets error := by
  have hread : Name.read crossedOctets 7 = .ok ⟨['c', '.', 'a', '.', 'b']⟩ 11 := by cbv
  have hloop : Name.read crossedOctets 11 = .error (.compressionLoop 11) 11 := by cbv
  refine ⟨hread, ((read_grammar crossedOctets 7).1 _ _).mp hread, ?_⟩
  refine (read_grammar crossedOctets 11).2.2 ?_
  rintro ⟨jumps, hjumps, labels, stop, hspelled⟩
  have hok := ((read_grammar crossedOctets 11).1 _ _).mpr ⟨jumps, hjumps, labels, hspelled, rfl⟩
  rw [hloop] at hok
  exact absurd hok (by simp)

end Name

end DnsResolver
