import DnsResolver.Name.Basic
import DnsResolver.Opcode
import DnsResolver.RecordType

namespace DnsResolver

/-!
# Errors

Errors are causes; their wording is in `message`. There are three classes: data that does
not follow the message format, failures of one exchange with one server, and everything
else. Only failures of an exchange are worth another attempt.
-/

/-- What is wrong with a label or a character-string. -/
inductive LabelFault where
  /-- A label of a message holds an octet above 127; `offset` is where the label starts. -/
  | octetsAt (offset : Nat)
  /-- Two dots in a row, or a dot in front. -/
  | empty
  | nonAscii (label : Label)
  | textNonAscii (text : String)
  | textLength (octets : Nat)
  deriving DecidableEq

/-- The wording of a label fault. -/
def LabelFault.message : LabelFault → String
  | octetsAt offset => s!"non-ASCII label at offset {offset}"
  | empty => "empty label"
  | nonAscii label =>
    let shown := String.ofList label
    s!"non-ASCII label '{shown}'"
  | textNonAscii text => s!"TXT string contains non-ASCII characters: {text}"
  | textLength octets => s!"TXT string of {octets} bytes exceeds 255"

/-- What has no address family. -/
inductive FamilyFault where
  /-- An address record whose payload does not have the size of an address. -/
  | payload (type : RecordType) (octets : Nat)
  /-- A name outside the two reverse zones. -/
  | zone (domain : Name)
  deriving DecidableEq

/-- The wording of a family fault. -/
def FamilyFault.message : FamilyFault → String
  | payload type octets => s!"{type} record with {octets} bytes of address data"
  | zone domain => domain.toString

/-- Data that does not follow the message format, or does not fit it. -/
inductive FormatError where
  /-- Something was to be read up to `offset`, which is past the end. -/
  | endOfStream (offset : Nat)
  | labelTooLong (length : Nat)
  | invalidLabel (fault : LabelFault)
  /-- A pointer at `offset` does not point backwards, or is one too many. -/
  | compressionLoop (offset : Nat)
  | unsupportedFamily (fault : FamilyFault)
  | messageTooLarge (size max : Nat)
  deriving DecidableEq

/-- The wording of a format error. -/
def FormatError.message : FormatError → String
  | endOfStream offset => s!"Unexpected end of stream at offset {offset}"
  | labelTooLong length => s!"Label too long: {length} bytes exceeds maximum of 63"
  | invalidLabel fault => s!"Invalid label: {fault.message}"
  | compressionLoop offset => s!"Corrupt or cyclic compression pointer at offset {offset}"
  | unsupportedFamily fault => s!"Address family not supported: {fault.message}"
  | messageTooLarge size max => s!"Message too large: {size} bytes (max {max})"

/-- What the host reports when it does not send. -/
inductive HostFault where
  | invalidArgument
  | messageTooLong
  | networkUnreachable
  | other (text : String)
  deriving DecidableEq

/-- The wording of a host fault. -/
def HostFault.message : HostFault → String
  | invalidArgument => "Invalid argument (os error 22)"
  | messageTooLong => "Message too long (os error 90)"
  | networkUnreachable => "Network is unreachable (os error 101)"
  | other text => text

/-- Failures of one exchange with one server, which is given by its text. -/
inductive TransportError where
  | host (server : String) (fault : HostFault)
  | timeout (server : String)
  | refused (server : String)
  | reset (server : String)
  | idMismatch (expected received : UInt16)
  deriving DecidableEq

/-- Four digits of base sixteen after `0x`. -/
def idText (id : UInt16) : String :=
  let digits := Text.hexDigits id.toNat
  String.ofList ('0' :: 'x' :: (List.replicate (4 - digits.length) '0' ++ digits))

/-- The wording of a transport error. -/
def TransportError.message : TransportError → String
  | host server fault => s!"I/O error: {server}: {fault.message}"
  | timeout server => s!"Transport timeout connecting to {server}"
  | refused server => s!"Transport connection refused by {server}"
  | reset server => s!"Transport connection reset by {server}"
  | idMismatch expected received =>
    let got := idText received
    let wanted := idText expected
    s!"Response ID {got} does not match request ID {wanted}"

/-- Everything that can go wrong. -/
inductive Error where
  | format (error : FormatError)
  | transport (error : TransportError)
  | invalidAddress (text : String)
  | noNameServers
  | resolutionFailed (attempts : Nat)
  | nameError (domain : Name)
  | serverFailure (rcode : ResponseCode)
  | hopCountExceeded (hops : Nat)
  | keyAlreadyExists
  | keyNotFound
  deriving DecidableEq

namespace Error

/-- The wording of an error. -/
def message : Error → String
  | format error => error.message
  | transport error => error.message
  | invalidAddress text => s!"Invalid IP address: {text}"
  | noNameServers => "No name servers available"
  | resolutionFailed attempts => s!"DNS resolution failed after {attempts} attempts"
  | nameError domain => s!"Domain name does not exist (NXDOMAIN): {domain}"
  | serverFailure rcode => s!"DNS server returned {rcode}"
  | hopCountExceeded hops => s!"Exceeded hop count of {hops} while resolving"
  | keyAlreadyExists => "Key already exists"
  | keyNotFound => "Key not found"

/-- Whether another attempt with the next server may help. -/
def isTransport : Error → Bool
  | transport _ => true
  | _ => false

/-- Whether the data breaks the message format. -/
def isFormat : Error → Bool
  | format _ => true
  | _ => false

instance : Coe FormatError Error := ⟨Error.format⟩

instance : Coe TransportError Error := ⟨Error.transport⟩

end Error

end DnsResolver
