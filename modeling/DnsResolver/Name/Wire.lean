import DnsResolver.Wire.Reader
import DnsResolver.Wire.Writer

namespace DnsResolver

/-!
# Names on the wire

A name is written as its labels, each after its length, and a zero octet. A suffix that was
written before is replaced by a pointer: two octets with the top bits set and the offset of
that suffix in the rest. A pointer that is read has to point strictly backwards, and one
name may follow at most `maxJumps` of them.
-/

namespace Label

/-- The longest label in octets. -/
def maxLength : Nat := 63

/-- Refuses a label that cannot be written: too long comes before empty, empty before
    characters outside ASCII. -/
def check (label : Label) : Except FormatError Unit :=
  if maxLength < Text.utf8Length label then .error (.labelTooLong (Text.utf8Length label))
  else if label.isEmpty then .error (.invalidLabel .empty)
  else if !label.all Text.isAscii then .error (.invalidLabel (.nonAscii label))
  else .ok ()

/-- Refuses the first label that cannot be written. -/
def checkAll : List Label → Except FormatError Unit
  | [] => .ok ()
  | label :: rest =>
    match check label with
    | .ok _ => checkAll rest
    | .error error => .error error

/-- The octets of the characters of an ASCII label. -/
def octets (label : Label) : Octets := (label.map fun c => UInt8.ofNat c.toNat).toArray

/-- The characters of octets, one each. -/
def ofOctets (octets : Octets) : Label := octets.toList.map fun octet => Char.ofNat octet.toNat

end Label

namespace Writer

/-- Appends a label after its length. -/
def putLabel (writer : Writer) (label : Label) : Writer :=
  (writer.putOctet (UInt8.ofNat label.length)).putOctets (Label.octets label)

/-- Appends labels that have been checked. The longest suffix that was written before
    becomes a pointer; every suffix in front of it is remembered. -/
def putLabels (writer : Writer) : List Label → Writer
  | [] => writer.putOctet 0
  | label :: rest =>
    match writer.find? (label :: rest) with
    | some offset => writer.putWord (UInt16.ofNat (0xC000 + offset))
    | none => ((writer.remember (label :: rest)).putLabel label).putLabels rest

end Writer

namespace Name

/-- Writes a name. One trailing dot does not count, and no octet is written when some label
    cannot be. -/
def write (name : Name) : Writing Unit := fun writer =>
  let name := name.dropDot
  if name.isRoot then .ok () (writer.putOctet 0)
  else
    match Label.checkAll name.labels with
    | .ok _ => .ok () (writer.putLabels name.labels)
    | .error error => .error error writer

/-! ### Reading -/

/-- The most pointers that one name may follow. -/
def maxJumps : Nat := 128

/-- The offset in a pointer whose two octets are given. -/
def pointerTarget (high low : UInt8) : Nat := high.toNat % 64 * 256 + low.toNat

/-- Reads labels from `pos` on. `jumps` pointers may still be followed, `seen` are the
    labels read before in reverse order, and `resume` is where the reading of the message
    goes on once a pointer was followed. -/
def readFrom (data : Octets) (jumps pos : Nat) (seen : List Label) (resume : Option Nat) :
    Except FormatError (List Label × Nat) :=
  match data[pos]? with
  | none => .error (.endOfStream pos)
  | some length =>
    if 192 ≤ length.toNat then
      match data[pos + 1]? with
      | none => .error (.endOfStream (pos + 1))
      | some low =>
        let target := pointerTarget length low
        if pos ≤ target then .error (.compressionLoop pos)
        else
          match jumps with
          | 0 => .error (.compressionLoop pos)
          | jumps + 1 => readFrom data jumps target seen (resume.or (some (pos + 2)))
    else if length.toNat = 0 then
      .ok (seen.reverse, resume.getD (pos + 1))
    else if length.toNat ≤ Label.maxLength then
      let next := pos + 1 + length.toNat
      if data.size < next then .error (.endOfStream next)
      else
        let label := Label.ofOctets (data.extract (pos + 1) next)
        if !label.all Text.isAscii then .error (.invalidLabel (.octetsAt pos))
        else readFrom data jumps next (label :: seen) resume
    else
      .error (.labelTooLong length.toNat)
termination_by (jumps, data.size - pos)

/-- Reads a name. The position moves past the zero octet, or past the first pointer. -/
def read : Reader Name := fun data pos =>
  match readFrom data maxJumps pos [] none with
  | .ok (labels, next) => .ok (ofLabels labels) next
  | .error error => .error error pos

end Name

end DnsResolver
