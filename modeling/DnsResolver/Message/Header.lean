import DnsResolver.Opcode
import DnsResolver.Wire.Reader
import DnsResolver.Wire.Writer

namespace DnsResolver

/-!
# Message headers

Twelve octets: the identifier, a word of flags and codes, and the sizes of the four
sections.
-/

/-- The header of a message. -/
structure Header where
  id : UInt16 := 0
  isResponse : Bool := false
  opcode : Opcode := .query
  authoritative : Bool := false
  truncated : Bool := false
  recursionDesired : Bool := false
  recursionAvailable : Bool := false
  /-- The reserved bit. -/
  reserved : Bool := false
  authenticData : Bool := false
  checkingDisabled : Bool := false
  rcode : ResponseCode := .noError
  questions : UInt16 := 0
  answers : UInt16 := 0
  authorities : UInt16 := 0
  additionals : UInt16 := 0
  deriving DecidableEq

namespace Header

/-- The header of a query. -/
def query (id : UInt16) (recursionDesired : Bool) : Header :=
  { id := id, recursionDesired := recursionDesired }

/-- The word of flags and codes, the response flag in the top bit and the response code in
    the low four bits. -/
def flags (header : Header) : UInt16 :=
  UInt16.ofNat
    (header.isResponse.toNat * 32768 + header.opcode.code * 2048
      + header.authoritative.toNat * 1024 + header.truncated.toNat * 512
      + header.recursionDesired.toNat * 256 + header.recursionAvailable.toNat * 128
      + header.reserved.toNat * 64 + header.authenticData.toNat * 32
      + header.checkingDisabled.toNat * 16 + header.rcode.code)

/-- The header with the flags and codes of a word. -/
def withFlags (header : Header) (flags : UInt16) : Header :=
  let bit (n : Nat) : Bool := flags.toNat.testBit n
  { header with
    isResponse := bit 15
    opcode := Opcode.ofCode (flags.toNat / 2048)
    authoritative := bit 10
    truncated := bit 9
    recursionDesired := bit 8
    recursionAvailable := bit 7
    reserved := bit 6
    authenticData := bit 5
    checkingDisabled := bit 4
    rcode := ResponseCode.ofCode flags.toNat }

/-- Reads a header. -/
def read : Reader Header := do
  let id ← Reader.word
  let flags ← Reader.word
  let questions ← Reader.word
  let answers ← Reader.word
  let authorities ← Reader.word
  let additionals ← Reader.word
  return { Header.withFlags { id := id } flags with
    questions := questions, answers := answers, authorities := authorities
    additionals := additionals }

/-- Writes a header. -/
def write (header : Header) (writer : Writer) : Writer :=
  [header.id, header.flags, header.questions, header.answers, header.authorities,
    header.additionals].foldl Writer.putWord writer

end Header

end DnsResolver
