import DnsResolver.Text.Numeral
import DnsResolver.Text.UpperCase

namespace DnsResolver

/-!
# Record types

The type of a resource record or of a question: the types whose payload this library
reads, the wildcard of questions, and every other 16-bit code.

* `RecordType.code_ofCode` — the type of a code has that code.
-/

/-- The type of a resource record. -/
inductive RecordType where
  | a
  | ns
  | cname
  | soa
  | ptr
  | mx
  | txt
  | aaaa
  | any
  /-- A type by its number only. -/
  | unknown (code : UInt16)
  deriving DecidableEq

namespace RecordType

/-- The number of a type on the wire. -/
def code : RecordType → UInt16
  | a => 1
  | ns => 2
  | cname => 5
  | soa => 6
  | ptr => 12
  | mx => 15
  | txt => 16
  | aaaa => 28
  | any => 255
  | unknown code => code

/-- The type with a given number. -/
def ofCode (code : UInt16) : RecordType :=
  if code = 1 then a
  else if code = 2 then ns
  else if code = 5 then cname
  else if code = 6 then soa
  else if code = 12 then ptr
  else if code = 15 then mx
  else if code = 16 then txt
  else if code = 28 then aaaa
  else if code = 255 then any
  else unknown code

/-- The keyword of a type; all types without one share `UNKNOWN`. -/
def mnemonic : RecordType → String
  | a => "A"
  | ns => "NS"
  | cname => "CNAME"
  | soa => "SOA"
  | ptr => "PTR"
  | mx => "MX"
  | txt => "TXT"
  | aaaa => "AAAA"
  | any => "ANY"
  | unknown _ => "UNKNOWN"

/-- The text of a type: its keyword, or `TYPE` and its number. -/
def toString : RecordType → String
  | unknown code => s!"TYPE{code.toNat}"
  | known => known.mnemonic

instance : ToString RecordType := ⟨RecordType.toString⟩

/-- Whether records of the type hold one address. -/
def isAddress : RecordType → Bool
  | a | aaaa => true
  | _ => false

/-- The types that have a keyword of their own. -/
def named : List RecordType := [a, ns, cname, soa, ptr, mx, txt, aaaa, any]

/-- Reads a keyword or `TYPE` and a number, in any case. A number names the type with that
    code, also where the type has a keyword. -/
def parse? (text : String) : Option RecordType :=
  let word := Text.upper text.toList
  match named.find? (fun type => type.mnemonic.toList == word) with
  | some type => some type
  | none =>
    match word with
    | 'T' :: 'Y' :: 'P' :: 'E' :: number =>
      (Text.numeral? 65535 number).map fun n => ofCode (UInt16.ofNat n)
    | _ => none

/-- A text that names no type. -/
structure Unreadable where
  text : String

/-- The wording of the error. -/
def Unreadable.message (error : Unreadable) : String := s!"Unknown record type: {error.text}"

/-- Reads a type, or reports the text. -/
def parse (text : String) : Except Unreadable RecordType :=
  match parse? text with
  | some type => .ok type
  | none => .error ⟨text⟩

@[simp] theorem code_ofCode (code : UInt16) : (ofCode code).code = code := by
  unfold ofCode
  repeat' split
  all_goals simp_all [RecordType.code]

end RecordType

end DnsResolver
