import DnsResolver.Message.Header
import DnsResolver.Message.Question
import DnsResolver.Message.Record
import DnsResolver.NameServer

namespace DnsResolver

/-!
# Messages

A message is a header and four sections. A message that is written takes the section sizes
in its header from the sections; a message that is read has sections of the sizes in its
header.
-/

/-- How a reply was obtained: from whom, over what, and how many octets it had. -/
structure Origin where
  server : NameServer
  protocol : Protocol
  size : Nat
  deriving DecidableEq

/-- A message. -/
structure Message where
  header : Header
  questions : List Question := []
  answers : List Record := []
  authorities : List Record := []
  additionals : List Record := []
  /-- Known for replies only. -/
  origin : Option Origin := none
  deriving DecidableEq

namespace Message

/-- The message with the given sections; the sizes in the header are the sizes of the
    sections modulo 65536. -/
def of (header : Header) (questions : List Question)
    (answers authorities additionals : List Record) : Message where
  header := { header with
    questions := UInt16.ofNat questions.length
    answers := UInt16.ofNat answers.length
    authorities := UInt16.ofNat authorities.length
    additionals := UInt16.ofNat additionals.length }
  questions := questions
  answers := answers
  authorities := authorities
  additionals := additionals

/-- The message that asks one question. -/
def query (id : UInt16) (question : Question) (recursionDesired : Bool) : Message :=
  of (Header.query id recursionDesired) [question] [] [] []

/-- All records of a message, in the order they are written. -/
def records (message : Message) : List Record :=
  message.answers ++ message.authorities ++ message.additionals

/-- The message with every record changed. -/
def mapRecords (change : Record → Record) (message : Message) : Message :=
  { message with
    answers := message.answers.map change
    authorities := message.authorities.map change
    additionals := message.additionals.map change }

/-- The message with the lifetime of every record starting at an instant. -/
def pin (now : Instant) (message : Message) : Message := message.mapRecords (Record.pin now)

/-- Equality of messages, entry by entry. -/
def sameAs (a b : Message) : Bool :=
  a.header == b.header && a.questions.isEqv b.questions Question.sameAs
    && a.answers.isEqv b.answers Record.sameAs && a.authorities.isEqv b.authorities Record.sameAs
    && a.additionals.isEqv b.additionals Record.sameAs && a.origin == b.origin

/-- Reads a message. -/
def read : Reader Message := do
  let header ← Header.read
  let questions ← Reader.many Question.read header.questions.toNat
  let answers ← Reader.many Record.read header.answers.toNat
  let authorities ← Reader.many Record.read header.authorities.toNat
  let additionals ← Reader.many Record.read header.additionals.toNat
  return ⟨header, questions, answers, authorities, additionals, none⟩

/-- The message that octets start with. -/
def decode (octets : Octets) : Except FormatError Message := Reader.run read octets

/-- The size of a section, which has to fit 16 bits. -/
def sectionSize (entries : List α) : Except FormatError UInt16 :=
  if 65535 < entries.length then .error (.messageTooLarge entries.length 65535)
  else .ok (UInt16.ofNat entries.length)

/-- The header with the sizes of the sections. -/
def sizedHeader (message : Message) : Except FormatError Header := do
  let questions ← sectionSize message.questions
  let answers ← sectionSize message.answers
  let authorities ← sectionSize message.authorities
  let additionals ← sectionSize message.additionals
  return { message.header with
    questions := questions, answers := answers, authorities := authorities
    additionals := additionals }

/-- Writes a header and what follows it. -/
def writeSections (now : Instant) (header : Header) (message : Message) : Writing Unit := do
  modify header.write
  message.questions.forM Question.write
  message.records.forM (Record.write now)

/-- The octets of a message, with the lifetimes that its records have at an instant. -/
def encode (now : Instant) (message : Message) : Except FormatError Octets := do
  let header ← message.sizedHeader
  Writer.build (message.writeSections now header)

end Message

end DnsResolver
