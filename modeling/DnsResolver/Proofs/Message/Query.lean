import DnsResolver.Client.Query
import DnsResolver.Proofs.Name.Spelling

namespace DnsResolver

open Writer (Extends)

/-!
# Queries

A query is written from a question, and can be written or not whatever stands in front of the name.
It can be told by its first two octets from queries with other identifiers.

* `Question.write_apply`, `Client.encodeQuery_eq` — when a question can be written, and what is written.
* `Client.idOf_encodeQuery`, `Client.asksRecursion_encodeQuery` — the identifier and the flag of a
  query.
-/

/-- A writer after a question whose name has the given labels. -/
def Writer.putQuestion (writer : Writer) (labels : List Label) (question : Question) : Writer :=
  ((writer.putLabels labels).putWord question.type.code).putWord question.recordClass.code

namespace Question

theorem write_apply (question : Question) (writer : Writer) :
    question.write writer
      = match Label.checkAll question.name.wireLabels with
        | .ok _ => .ok () (writer.putQuestion question.name.wireLabels question)
        | .error error => .error error writer := by
  show EStateM.bind question.name.write _ writer = _
  unfold EStateM.bind
  rw [Name.write_apply]
  cases Label.checkAll question.name.wireLabels <;> rfl

end Question

/-- The header of a query, with the number of its questions. -/
def Header.oneQuestion (id : UInt16) (recursionDesired : Bool) : Header :=
  { Header.query id recursionDesired with questions := 1 }

/-- A query can be written if its name can. -/
theorem Client.encodeQuery_eq (id : UInt16) (question : Question) (recursionDesired : Bool) :
    encodeQuery id question recursionDesired
      = (Label.checkAll question.name.wireLabels).map fun _ =>
          (((Header.oneQuestion id recursionDesired).write .empty).putQuestion
            question.name.wireLabels question).octets := by
  show Writer.build (do
      modify (Header.oneQuestion id recursionDesired).write
      [question].forM Question.write
      ([] : List Record).forM (Record.write 0)) = _
  have hquestion : (do
      [question].forM Question.write
      ([] : List Record).forM (Record.write 0)) = question.write := by
    simp only [List.forM_eq_forM, List.forM_cons, List.forM_nil, bind_pure_unit]
  rw [hquestion]
  -- What the header writes is only what stands in front of the question.
  show Writer.build (fun _ =>
    question.write ((Header.oneQuestion id recursionDesired).write .empty)) = _
  simp only [Writer.build, Question.write_apply]
  cases Label.checkAll question.name.wireLabels <;> rfl

/-! ### The header of a query -/

namespace Client

variable {id : UInt16} {question : Question} {recursionDesired : Bool} {message : Octets}

/-- Whether a query can be written does not depend on its identifier. -/
theorem encodeQuery_error {error : FormatError}
    (h : encodeQuery id question recursionDesired = .error error) (id' : UInt16) :
    encodeQuery id' question recursionDesired = .error error := by
  rw [encodeQuery_eq] at h ⊢
  cases hcheck : Label.checkAll question.name.wireLabels with
  | ok _ =>
    rw [hcheck] at h
    simp [Except.map] at h
  | error error' =>
    rw [hcheck] at h
    exact h

/-- A query starts with its header. -/
theorem header_encodeQuery (h : encodeQuery id question recursionDesired = .ok message) {i : Nat}
    (hi : i < 12) :
    message[i]? = ((Header.oneQuestion id recursionDesired).write .empty).octets[i]? := by
  rw [encodeQuery_eq] at h
  cases hcheck : Label.checkAll question.name.wireLabels with
  | error error =>
    rw [hcheck] at h
    simp [Except.map] at h
  | ok _ =>
    rw [hcheck] at h
    obtain rfl := Except.ok.inj h
    let header := (Header.oneQuestion id recursionDesired).write .empty
    -- What follows the header leaves its octets as they are.
    have hext : Extends header (header.putQuestion question.name.wireLabels question) :=
      ((Writer.extends_putLabels _ _).trans (Writer.extends_putWord _ _)).trans
        (Writer.extends_putWord _ _)
    exact hext.octets i hi

/-- The identifier that a message starts with. -/
def idOf (message : Octets) : UInt16 := Wire.word (message.getD 0 0) (message.getD 1 0)

/-- A query starts with its identifier. -/
theorem idOf_encodeQuery (h : encodeQuery id question recursionDesired = .ok message) :
    idOf message = id := by
  unfold idOf
  rw [Array.getD_eq_getD_getElem?, Array.getD_eq_getD_getElem?, header_encodeQuery h (by omega),
    header_encodeQuery h (by omega)]
  exact Wire.word_wordOctets id

/-- Whether a message asks for recursion: the lowest bit of its third octet. -/
def asksRecursion (message : Octets) : Bool := (message.getD 2 0).toNat.testBit 0

/-- A query asks for recursion if that is desired. -/
theorem asksRecursion_encodeQuery (h : encodeQuery id question recursionDesired = .ok message) :
    asksRecursion message = recursionDesired := by
  unfold asksRecursion
  rw [Array.getD_eq_getD_getElem?, header_encodeQuery h (by omega)]
  have hflags : (Header.oneQuestion id recursionDesired).flags
      = if recursionDesired then 256 else 0 := by
    cases recursionDesired <;>
      simp [Header.oneQuestion, Header.query, Header.flags, Opcode.code, ResponseCode.code]
  show (Wire.wordOctets (Header.oneQuestion id recursionDesired).flags).1.toNat.testBit 0 = _
  rw [hflags]
  cases recursionDesired <;> decide

end Client

end DnsResolver
