import DnsResolver.Address.Ip
import DnsResolver.Name.Wire

namespace DnsResolver

/-!
# Record payloads

The payload of a record by its type. Types that are not interpreted keep their octets.
A text is one character-string when it is written; all character-strings of a payload that
is read are joined.
-/

/-- The payload of an SOA record. -/
structure Authority where
  primary : Name
  responsible : Name
  serial : UInt32
  refresh : UInt32
  retry : UInt32
  expire : UInt32
  minimum : UInt32
  deriving DecidableEq

/-- The payload of an MX record. -/
structure MailExchange where
  preference : UInt16
  exchange : Name
  deriving DecidableEq

/-- The exchanges with the lowest preference first; equal ones keep their order. -/
def MailExchange.sort (exchanges : List MailExchange) : List MailExchange :=
  exchanges.mergeSort fun a b => a.preference ≤ b.preference

/-- The payload of a record. -/
inductive RecordData where
  | a (ip : IPv4)
  | aaaa (ip : IPv6)
  | ns (host : Name)
  | cname (target : Name)
  | ptr (target : Name)
  | soa (authority : Authority)
  | mx (exchange : MailExchange)
  | txt (text : String)
  /-- Octets that are not interpreted. -/
  | raw (octets : Octets)
  deriving DecidableEq

namespace RecordData

/-- The type that a payload belongs to; octets that are not interpreted can belong to any. -/
def type? : RecordData → Option RecordType
  | a _ => some .a
  | aaaa _ => some .aaaa
  | ns _ => some .ns
  | cname _ => some .cname
  | ptr _ => some .ptr
  | soa _ => some .soa
  | mx _ => some .mx
  | txt _ => some .txt
  | raw _ => none

/-- The address in a payload. -/
def address? : RecordData → Option Ip
  | a ip => some (.v4 ip)
  | aaaa ip => some (.v6 ip)
  | _ => none

/-! ### Reading -/

/-- Reads character-strings up to the position `stop`. Every string takes at least one
    octet, so `bound` strings reach it when it is no more than `bound` octets away. -/
def readStrings (stop : Nat) : Nat → List String → Reader (List String)
  | 0, seen => return seen.reverse
  | bound + 1, seen => do
    if (← Reader.position) < stop then
      let length ← Reader.octet
      let chunk ← Reader.octets length.toNat
      readStrings stop bound (String.ofList (Label.ofOctets chunk) :: seen)
    else
      return seen.reverse

/-- Reads an address payload of `length` octets. -/
def readAddress (type : RecordType) (length : Nat) (address? : List UInt8 → Option RecordData) :
    Reader RecordData := do
  let octets ← Reader.octets length
  match address? octets.toList with
  | some data => return data
  | none => Reader.fail (.unsupportedFamily (.payload type length))

/-- Reads an SOA payload. -/
def readAuthority : Reader Authority := do
  let primary ← Name.read
  let responsible ← Name.read
  let serial ← Reader.long
  let refresh ← Reader.long
  let retry ← Reader.long
  let expire ← Reader.long
  let minimum ← Reader.long
  return ⟨primary, responsible, serial, refresh, retry, expire, minimum⟩

/-- Reads an MX payload. -/
def readExchange : Reader MailExchange := do
  let preference ← Reader.word
  let exchange ← Name.read
  return ⟨preference, exchange⟩

/-- Reads the payload of a type. It may use fewer octets than `length`, and names in it may
    use more. -/
def readBody (type : RecordType) (length stop : Nat) : Reader RecordData :=
  match type with
  | .a => readAddress type length fun octets => (IPv4.ofOctets? octets).map .a
  | .aaaa => readAddress type length fun octets => (IPv6.ofOctets? octets).map .aaaa
  | .ns => .ns <$> Name.read
  | .cname => .cname <$> Name.read
  | .ptr => .ptr <$> Name.read
  | .soa => .soa <$> readAuthority
  | .mx => .mx <$> readExchange
  | .txt => do return .txt (String.join (← readStrings stop length []))
  | .any | .unknown _ => .raw <$> Reader.octets length

/-- Reads a payload of `length` octets. The position ends right behind it; a payload that
    goes on behind its end is refused. -/
def read (type : RecordType) (length : Nat) : Reader RecordData := do
  let stop := (← Reader.position) + length
  if (← Reader.remaining) < length then
    Reader.fail (.endOfStream stop)
  else
    let data ← readBody type length stop
    let reached ← Reader.position
    if stop < reached then
      Reader.fail (.endOfStream reached)
    else
      Reader.seek stop
      return data

/-! ### Writing -/

/-- Writes a text as one character-string. -/
def writeText (text : String) : Writing Unit :=
  if !text.toList.all Text.isAscii then throw (.invalidLabel (.textNonAscii text))
  else if 255 < text.length then throw (.invalidLabel (.textLength text.length))
  else modify fun writer => writer.putLabel text.toList

/-- Writes a payload. -/
def write : RecordData → Writing Unit
  | a ip => modify fun writer => writer.putOctets ip.octets.toArray
  | aaaa ip => modify fun writer => writer.putOctets ip.octets.toArray
  | ns name | cname name | ptr name => name.write
  | soa authority => do
    authority.primary.write
    authority.responsible.write
    modify fun writer =>
      [authority.serial, authority.refresh, authority.retry, authority.expire,
        authority.minimum].foldl Writer.putLong writer
  | mx exchange => do
    modify fun writer => writer.putWord exchange.preference
    exchange.exchange.write
  | txt text => writeText text
  | raw octets => modify fun writer => writer.putOctets octets

end RecordData

end DnsResolver
