import DnsResolver.Proofs.Message.Remembered

namespace DnsResolver

/-!
# Names that are not written

A name is written as a whole or not at all.  Which of both happens is decided by its labels alone:
neither the octets in front of it nor the remembered names play a part.

* `Label.Refused` — what is wrong with a label that cannot be written.
* `Label.checkAll_eq_error_iff` — of several such labels the first one is reported.
* `Name.write_whole` — which names are written, which error the others give, and that these leave
  no trace in what is written later.
-/

/-! ### Labels that cannot be written -/

namespace Label

variable {label : Label} {labels : List Label} {error : FormatError}

/-- What is wrong with a label: too long comes before empty, and empty before characters outside
    ASCII. -/
inductive Refused : Label → FormatError → Prop where
  | tooLong {label : Label} (long : maxLength < Text.utf8Length label) :
      Refused label (.labelTooLong (Text.utf8Length label))
  | empty : Refused [] (.invalidLabel .empty)
  | nonAscii {label : Label} (short : Text.utf8Length label ≤ maxLength)
      (outside : ∃ c ∈ label, Text.isAscii c = false) :
      Refused label (.invalidLabel (.nonAscii label))

theorem check_eq_error_iff : check label = .error error ↔ label.Refused error := by
  constructor
  · intro h
    unfold check at h
    split at h
    · next hlong =>
      obtain rfl := Except.error.inj h
      exact .tooLong hlong
    · next hshort =>
      split at h
      · next hempty =>
        obtain rfl := Except.error.inj h
        obtain rfl : label = [] := by simpa using hempty
        exact .empty
      · split at h
        · next hascii =>
          obtain rfl := Except.error.inj h
          exact .nonAscii (Nat.not_lt.mp hshort) (by simpa using hascii)
        · exact absurd h (by simp)
  · rintro (hlong | _ | ⟨hshort, c, hc, houtside⟩)
    · rw [check, if_pos hlong]
    · rfl
    · have hascii : label.all Text.isAscii = false :=
        List.all_eq_false.mpr ⟨c, hc, by simp [houtside]⟩
      rw [check, if_neg (Nat.not_lt.mpr hshort), if_neg (by simp [List.ne_nil_of_mem hc]), hascii]
      rfl

/-- The first label that cannot be written is the one that is reported. -/
theorem checkAll_eq_error_iff :
    checkAll labels = .error error
      ↔ ∃ front label back, labels = front ++ label :: back
        ∧ (∀ other ∈ front, other.Ordinary) ∧ label.Refused error := by
  induction labels with
  | nil =>
    refine ⟨fun h => absurd h (by simp [checkAll]), ?_⟩
    rintro ⟨front, label, back, hlabels, -⟩
    exact absurd hlabels (by simp)
  | cons head labels ih =>
    rw [checkAll]
    cases hcheck : check head with
    | error fault =>
      have hhead : head.Refused fault := check_eq_error_iff.mp hcheck
      constructor
      · intro h
        obtain rfl : fault = error := Except.error.inj h
        exact ⟨[], head, labels, rfl, fun _ hmem => absurd hmem List.not_mem_nil, hhead⟩
      · rintro ⟨front, label, back, hlabels, hfront, hrefused⟩
        cases front with
        | nil =>
          obtain ⟨rfl, -⟩ := List.cons.inj hlabels
          exact hcheck.symm.trans (check_eq_error_iff.mpr hrefused)
        | cons first front =>
          -- The head would have to be ordinary, but it is refused.
          obtain ⟨rfl, -⟩ := List.cons.inj hlabels
          have hok := check_eq_ok_iff.mpr (hfront head List.mem_cons_self)
          exact absurd (hok.symm.trans hcheck) (by simp)
    | ok _ =>
      have hhead : head.Ordinary := check_eq_ok_iff.mp hcheck
      rw [ih]
      constructor
      · rintro ⟨front, label, back, rfl, hfront, hrefused⟩
        exact ⟨head :: front, label, back, rfl, List.forall_mem_cons.mpr ⟨hhead, hfront⟩, hrefused⟩
      · rintro ⟨front, label, back, hlabels, hfront, hrefused⟩
        cases front with
        | nil =>
          obtain ⟨rfl, -⟩ := List.cons.inj hlabels
          exact absurd (hcheck.symm.trans (check_eq_error_iff.mpr hrefused)) (by simp)
        | cons first front =>
          obtain ⟨rfl, hrest⟩ := List.cons.inj hlabels
          exact ⟨front, label, back, hrest, (List.forall_mem_cons.mp hfront).2, hrefused⟩

end Label

/-! ### Names that cannot be written -/

namespace Name

variable {name : Name} {error : FormatError}

/-- What one trailing dot less leaves is the root, or has labels of 1 to 63 ASCII characters
    between its dots. -/
def Writable (name : Name) : Prop :=
  name.dropDot = root ∨ ∀ label ∈ name.dropDot.labels, label.Ordinary

/-- What is wrong with a name: what is wrong with the first of its labels that cannot be written. -/
def Refused (name : Name) (error : FormatError) : Prop :=
  name.dropDot ≠ root ∧ ∃ front label back, name.dropDot.labels = front ++ label :: back
    ∧ (∀ other ∈ front, other.Ordinary) ∧ label.Refused error

theorem isRoot_iff : name.isRoot = true ↔ name = root := by
  obtain ⟨chars⟩ := name
  simp [isRoot, root]

theorem checkAll_wireLabels_eq_ok_iff :
    Label.checkAll name.wireLabels = .ok () ↔ name.Writable := by
  rw [Label.checkAll_eq_ok_iff, wireLabels, Writable]
  by_cases hroot : name.dropDot = root
  · rw [if_pos (isRoot_iff.mpr hroot)]
    simp [hroot]
  · rw [if_neg (mt isRoot_iff.mp hroot)]
    simp [hroot]

theorem checkAll_wireLabels_eq_error_iff :
    Label.checkAll name.wireLabels = .error error ↔ name.Refused error := by
  rw [Label.checkAll_eq_error_iff, wireLabels, Refused]
  by_cases hroot : name.dropDot = root
  · rw [if_pos (isRoot_iff.mpr hroot)]
    simp [hroot]
  · rw [if_neg (mt isRoot_iff.mp hroot)]
    simp [hroot]

end Name

namespace Writer

/-- The writer after operations goes through the one after the first of them. -/
theorem run_append (front back : List Operation) (writer : Writer) :
    run (front ++ back) writer = run back (run front writer) := by
  induction front generalizing writer with
  | nil => rfl
  | cons operation front ih => exact ih _

end Writer

/-- **All or nothing.** Whatever was written and is remembered, a name is written exactly if one
    trailing dot less leaves the root or labels of 1 to 63 ASCII characters.  Any other name gives
    the error of its first label that cannot be written, and leaves the writer as it was: in a
    sequence of operations, where more of them may fail, it can be left out. -/
theorem Name.write_whole (name : Name) (writer : Writer) :
    ((∃ after, name.write writer = .ok () after) ↔ name.Writable)
      ∧ (∀ error after, name.write writer = .error error after
          ↔ after = writer ∧ name.Refused error)
      ∧ (name.Writable ∨ ∀ front back, Writer.run (front ++ .name name :: back) writer
          = Writer.run (front ++ back) writer) := by
  have hwritable : Label.checkAll name.wireLabels = .ok () ↔ name.Writable :=
    checkAll_wireLabels_eq_ok_iff
  have hrefused : ∀ error, Label.checkAll name.wireLabels = .error error ↔ name.Refused error :=
    fun _ => checkAll_wireLabels_eq_error_iff
  cases hcheck : Label.checkAll name.wireLabels with
  | ok _ =>
    simp only [write_apply, hcheck]
    refine ⟨?_, fun error after => ?_, Or.inl (hwritable.mp hcheck)⟩
    · exact iff_of_true ⟨_, rfl⟩ (hwritable.mp hcheck)
    · refine iff_of_false (by simp) fun h => ?_
      exact absurd (hcheck.symm.trans ((hrefused error).mpr h.2)) (by simp)
  | error fault =>
    have hleft : ∀ before, Writing.left (Writer.Operation.name name).run before = before := by
      intro before
      show Writing.left name.write before = before
      simp only [Writing.left, write_apply, hcheck]
    refine ⟨?_, fun error after => ?_, Or.inr fun front back => ?_⟩
    · simp only [write_apply, hcheck]
      refine iff_of_false (by simp) fun h => ?_
      exact absurd (hcheck.symm.trans (hwritable.mpr h)) (by simp)
    · rw [← hrefused error, hcheck]
      simp only [write_apply, hcheck, EStateM.Result.error.injEq, Except.error.injEq]
      rw [and_comm, eq_comm (a := writer)]
    · rw [Writer.run_append, Writer.run_append, Writer.run, hleft]

end DnsResolver
