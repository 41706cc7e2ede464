import DnsResolver.Error
import DnsResolver.Wire.BigEndian

namespace DnsResolver

/-!
# Writing a message

A writer holds the octets written so far and, for compression, the names that start in
them: every suffix of a written name with its offset, in the order of writing. Only
offsets that fit the 14 bits of a pointer are remembered.
-/

/-- A name that starts somewhere in the octets written so far. The number of its labels is
    at hand, for most names differ in it. -/
structure WrittenName where
  offset : Nat
  labels : List Label
  count : Nat := labels.length
  count_eq : count = labels.length := by rfl

/-- Whether a written name has the given labels, in whatever case. `count` is their number. -/
def WrittenName.spells (name : WrittenName) (labels : List Label) (count : Nat) : Bool :=
  name.count == count && Label.sameAll name.labels labels

/-- What has been written so far. -/
structure Writer where
  octets : Octets
  /-- The names that a pointer can refer to. -/
  names : Array WrittenName
  /-- Whether names are compressed at all. -/
  compress : Bool

/-- A writing step that can fail. What it wrote before the failure stays written. -/
abbrev Writing := EStateM FormatError Writer

namespace Writer

/-- The largest offset a pointer can hold. -/
def maxPointer : Nat := 0x3FFF

/-- A writer without any octets. -/
def empty (compress : Bool := true) : Writer := ⟨#[], #[], compress⟩

/-- The number of octets written so far. -/
def size (writer : Writer) : Nat := writer.octets.size

/-- Appends one octet. -/
def putOctet (writer : Writer) (octet : UInt8) : Writer :=
  { writer with octets := writer.octets.push octet }

/-- Appends octets. -/
def putOctets (writer : Writer) (octets : Octets) : Writer :=
  { writer with octets := writer.octets ++ octets }

/-- Appends a number of two octets. -/
def putWord (writer : Writer) (n : UInt16) : Writer :=
  (writer.putOctet (Wire.wordOctets n).1).putOctet (Wire.wordOctets n).2

/-- Appends a number of four octets. -/
def putLong (writer : Writer) (n : UInt32) : Writer :=
  (Wire.longOctets n).foldl putOctet writer

/-- Replaces the two octets at an offset. -/
def patch (writer : Writer) (offset : Nat) (n : UInt16) : Writer :=
  let (high, low) := Wire.wordOctets n
  { writer with
    octets := (writer.octets.setIfInBounds offset high).setIfInBounds (offset + 1) low }

/-- The offset at which a name was written before, in whatever case. -/
def find? (writer : Writer) (labels : List Label) : Option Nat :=
  if writer.compress then
    let count := labels.length
    (writer.names.find? fun known => known.spells labels count).map (·.offset)
  else
    none

/-- Notes that a name is about to be written here, if a pointer can refer to it. -/
def remember (writer : Writer) (labels : List Label) : Writer :=
  if writer.compress && writer.size ≤ maxPointer then
    { writer with names := writer.names.push { offset := writer.size, labels } }
  else
    writer

/-- Runs a writing step on a fresh writer and returns the octets. -/
def build (step : Writing Unit) (compress : Bool := true) : Except FormatError Octets :=
  match step (empty compress) with
  | .ok _ writer => .ok writer.octets
  | .error error _ => .error error

end Writer

end DnsResolver
