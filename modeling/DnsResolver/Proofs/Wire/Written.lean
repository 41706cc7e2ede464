import DnsResolver.Proofs.Wire.Confined
import DnsResolver.Wire.Writer

namespace DnsResolver

/-!
# What a writer has written

The octets of a writer, while some of them are still pending: the length of a payload is
filled in after the payload was written.  What is written next leaves the octets in front of it
as they are, and a message that goes on from them holds whatever is not pending.

* `Writer.known` — the octets of a writer that will not change any more.
* `Writer.Extends` — a later writer has the octets of an earlier one.
* `Writer.Continued` — a message begins with the octets of a writer.
* `Writer.Legible` — a reading step gets through what was written between two writers.
-/

namespace Writer

variable {pending : List Nat} {before middle after : Writer} {data : Octets}

/-- The octets of a writer, without those at the pending offsets. -/
def known (writer : Writer) (pending : List Nat) : Known :=
  fun i => if i ∈ pending then none else writer.octets[i]?

/-- Without pending octets everything that was written is known. -/
theorem known_nil (writer : Writer) : writer.known [] = Known.of writer.octets := by
  funext i
  simp [known, Known.of]

/-- Everything that one writer has written stands in another one at the same place. -/
structure Extends (before after : Writer) : Prop where
  size_le : before.size ≤ after.size
  octets : ∀ i < before.size, after.octets[i]? = before.octets[i]?

theorem Extends.refl (writer : Writer) : Extends writer writer := ⟨Nat.le_refl _, fun _ _ => rfl⟩

theorem Extends.trans (h : Extends before middle) (h' : Extends middle after) :
    Extends before after where
  size_le := Nat.le_trans h.size_le h'.size_le
  octets i hi := by
    have hmiddle : i < middle.size := Nat.lt_of_lt_of_le hi h.size_le
    rw [h'.octets i hmiddle, h.octets i hi]

theorem lt_size_of_known {i : Nat} {octet : UInt8} (h : before.known pending i = some octet) :
    i < before.size := by
  unfold known at h
  split at h
  · exact absurd h (by simp)
  · exact (Array.getElem?_eq_some_iff.mp h).1

theorem Extends.known (h : Extends before after) (pending : List Nat) :
    Known.Within (before.known pending) (after.known pending) := by
  intro i octet hi
  have hlt : i < before.size := lt_size_of_known hi
  unfold Writer.known at hi ⊢
  by_cases hpending : i ∈ pending
  · rw [if_pos hpending] at hi
    exact absurd hi (by simp)
  · rw [if_neg hpending] at hi ⊢
    rw [h.octets i hlt, hi]

theorem Extends.within (h : Extends before after) :
    Known.Within (Known.of before.octets) (Known.of after.octets) := by
  rw [← known_nil, ← known_nil]
  exact h.known []

/-! ### Appending -/

@[simp] theorem size_putOctets (writer : Writer) (octets : Octets) :
    (writer.putOctets octets).size = writer.size + octets.size := by
  simp [putOctets, size]

theorem putOctets_putOctets (writer : Writer) (front back : Octets) :
    (writer.putOctets front).putOctets back = writer.putOctets (front ++ back) := by
  simp [putOctets]

theorem putOctet_eq (writer : Writer) (octet : UInt8) :
    writer.putOctet octet = writer.putOctets #[octet] := by
  simp [putOctet, putOctets]

theorem putWord_eq (writer : Writer) (n : UInt16) :
    writer.putWord n = writer.putOctets #[(Wire.wordOctets n).1, (Wire.wordOctets n).2] := by
  simp [putWord, putOctet_eq, putOctets_putOctets]

theorem putLong_eq (writer : Writer) (n : UInt32) :
    writer.putLong n = writer.putOctets (Wire.longOctets n).toArray := by
  simp [putLong, Wire.longOctets, putOctet_eq, putOctets_putOctets]

theorem extends_putOctets (writer : Writer) (octets : Octets) :
    Extends writer (writer.putOctets octets) where
  size_le := by
    rw [size_putOctets]
    exact Nat.le_add_right _ _
  octets i hi := by
    show (writer.octets ++ octets)[i]? = _
    rw [Array.getElem?_append_left hi]

@[simp] theorem size_putWord (writer : Writer) (n : UInt16) :
    (writer.putWord n).size = writer.size + 2 := by
  rw [putWord_eq, size_putOctets]
  rfl

theorem extends_putWord (writer : Writer) (n : UInt16) : Extends writer (writer.putWord n) := by
  rw [putWord_eq]
  exact extends_putOctets _ _

/-- What is appended stands behind everything else, and nothing of it is pending. -/
theorem holds_putOctets {writer : Writer} (hpending : ∀ i ∈ pending, i < writer.size)
    (octets : Octets) :
    ((writer.putOctets octets).known pending).Holds writer.size octets.toList := by
  intro i octet hi
  have hnot : writer.size + i ∉ pending := fun hmem => by
    have := hpending _ hmem
    omega
  -- Behind the octets from before, an index into the message is one into what was appended.
  have hbehind : writer.octets.size ≤ writer.size + i := Nat.le_add_right _ _
  show (if _ then none else (writer.octets ++ octets)[writer.size + i]?) = _
  rw [if_neg hnot, Array.getElem?_append_right hbehind, ← hi, Array.getElem?_toList]
  congr 1
  show writer.size + i - writer.size = i
  omega

/-! ### Reading what was written -/

/-- A message of less than `offsetLimit` octets that begins with what a writer has written. What
    is pending there may be anything in the message. -/
structure Continued (pending : List Nat) (writer : Writer) (data : Octets) : Prop where
  known : Known.Within (writer.known pending) (Known.of data)
  size_le : writer.size ≤ data.size
  bounded : data.size < Reader.offsetLimit

theorem Continued.of_extends (h : Continued pending after data) (hext : Extends before after) :
    Continued pending before data where
  known := (hext.known pending).trans h.known
  size_le := Nat.le_trans hext.size_le h.size_le
  bounded := h.bounded

/-- Whatever message goes on from `after`, a reading step that starts behind `before` ends where
    `after` ends, with a value as it should be. -/
def Legible {β : Type} (pending : List Nat) (before after : Writer) (read : Reader β)
    (good : β → Prop) : Prop :=
  ∀ data, Continued pending after data →
    ∃ value, read data before.size = .ok value after.size ∧ good value

section Legible

variable {β γ : Type} {read : Reader β} {good : β → Prop}

/-- Reading one part after the other. -/
theorem Legible.bind {next : β → Reader γ} {good' : γ → Prop}
    (h : Legible pending before middle read good) (hext : Extends middle after)
    (hnext : ∀ value, good value → Legible pending middle after (next value) good') :
    Legible pending before after (read >>= next) good' := by
  intro data hdata
  obtain ⟨value, hread, hgood⟩ := h data (hdata.of_extends hext)
  obtain ⟨value', hread', hgood'⟩ := hnext value hgood data hdata
  refine ⟨value', ?_, hgood'⟩
  rw [Reader.bind_apply, hread]
  exact hread'

/-- Making something else of what is read. -/
theorem Legible.map {good' : γ → Prop} (h : Legible pending before after read good) (f : β → γ)
    (hgood : ∀ value, good value → good' (f value)) :
    Legible pending before after (read >>= fun value => pure (f value)) good' :=
  h.bind (Extends.refl _) fun value hvalue _ _ => ⟨f value, rfl, hgood value hvalue⟩

end Legible

end Writer

/-- Octets that a message holds are read as they are. -/
theorem Reader.octets_of_holds {data octets : Octets} {pos : Nat}
    (hheld : (Known.of data).Holds pos octets.toList) (hsize : pos + octets.size ≤ data.size)
    (hbounded : data.size < Reader.offsetLimit) :
    Reader.octets octets.size data pos = .ok octets (pos + octets.size) := by
  have hextract : data.extract pos (pos + octets.size) = octets := by
    -- No octets at all are held everywhere, so this says nothing about the message.
    by_cases hempty : octets.toList = []
    · have hzero : octets = #[] := Array.toList_eq_nil_iff.mp hempty
      rw [hzero]
      exact Array.extract_empty_of_stop_le_start (Nat.le_refl pos)
    · have hcut := (hheld.extract hempty).2
      simpa using hcut
  exact Reader.octets_eq_ok_iff.mpr ⟨Nat.lt_of_le_of_lt hsize hbounded, hsize, hextract, rfl⟩

end DnsResolver
