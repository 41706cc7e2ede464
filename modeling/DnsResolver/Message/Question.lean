import DnsResolver.Name.Reverse
import DnsResolver.Name.Wire
import DnsResolver.RecordClass

namespace DnsResolver

/-!
# Questions

What a message asks for: a name, a type and a class. Questions are equal when type and
class are and the names are up to ASCII case; equal questions have equal cache keys.
-/

/-- An entry of the question section. -/
structure Question where
  name : Name
  type : RecordType
  recordClass : RecordClass
  deriving DecidableEq

namespace Question

/-- The question for a name, whose trailing dot is dropped. -/
def about (name : Name) (type : RecordType) (recordClass : RecordClass := .internet) : Question :=
  ⟨name.dropDot, type, recordClass⟩

/-- The question for the name of an address. -/
def pointer (ip : Ip) : Question := about (Name.reverse ip) .ptr

/-- Equality of questions. -/
def sameAs (a b : Question) : Bool :=
  a.name.sameAs b.name && a.type == b.type && a.recordClass == b.recordClass

/-- The text of a question: name, class and type. -/
def toString (question : Question) : String :=
  s!"{question.name} {question.recordClass} {question.type}"

instance : ToString Question := ⟨Question.toString⟩

/-- Reads a question. -/
def read : Reader Question := do
  let name ← Name.read
  let type ← Reader.word
  let recordClass ← Reader.word
  return ⟨name, .ofCode type, .ofCode recordClass⟩

/-- Writes a question. -/
def write (question : Question) : Writing Unit := do
  question.name.write
  modify fun writer => writer.putWord question.type.code
  modify fun writer => writer.putWord question.recordClass.code

/-- The wire form in lower case and without compression. -/
def cacheKey (question : Question) : Except FormatError Octets :=
  Writer.build (write { question with name := question.name.fold }) false

end Question

end DnsResolver
