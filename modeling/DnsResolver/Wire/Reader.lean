import DnsResolver.Error
import DnsResolver.Wire.BigEndian

namespace DnsResolver

/-!
# Reading a message

A reading step works on one message and a position in it. It never reads past the end:
what is not there is an `endOfStream` error with the offset up to which it was looked for.
A step that fails leaves the position after the parts that it had already read.
-/

/-- A step that reads from one message and moves the position. -/
abbrev Reader := ReaderT Octets (EStateM FormatError Nat)

namespace Reader

/-- Offsets are numbers of 64 bits. -/
def offsetLimit : Nat := 18446744073709551616

/-- The octet at an offset. -/
def octetAt (data : Octets) (offset : Nat) : Except FormatError UInt8 :=
  match data[offset]? with
  | some octet => .ok octet
  | none => .error (.endOfStream offset)

/-- The `length` octets from an offset on. -/
def sliceAt (data : Octets) (offset length : Nat) : Except FormatError Octets :=
  if offsetLimit ≤ offset + length then .error (.endOfStream offset)
  else if offset + length ≤ data.size then .ok (data.extract offset (offset + length))
  else .error (.endOfStream (offset + length))

/-- Runs a step on a whole message, from its start. -/
def run (step : Reader α) (data : Octets) : Except FormatError α :=
  match step data 0 with
  | .ok value _ => .ok value
  | .error error _ => .error error

/-- The step that fails with an error and stays where it is. -/
def fail (error : FormatError) : Reader α := fun _ pos => .error error pos

/-- The position of the next octet. -/
def position : Reader Nat := fun _ pos => .ok pos pos

/-- Moves the position to an offset, which may lie past the end. -/
def seek (offset : Nat) : Reader Unit := fun _ _ => .ok () offset

/-- The number of octets from the position to the end. -/
def remaining : Reader Nat := fun data pos => .ok (data.size - pos) pos

/-- Reads one octet. -/
def octet : Reader UInt8 := fun data pos =>
  match octetAt data pos with
  | .ok value => .ok value (pos + 1)
  | .error error => .error error pos

/-- Reads `length` octets. -/
def octets (length : Nat) : Reader Octets := fun data pos =>
  match sliceAt data pos length with
  | .ok value => .ok value (pos + length)
  | .error error => .error error pos

/-- Reads a number of two octets. -/
def word : Reader UInt16 := do
  let part ← octets 2
  return Wire.word (part.getD 0 0) (part.getD 1 0)

/-- Reads a number of four octets. -/
def long : Reader UInt32 := do
  let part ← octets 4
  return Wire.long (part.getD 0 0) (part.getD 1 0) (part.getD 2 0) (part.getD 3 0)

/-- Reads `count` things of one kind, after those already `seen`, which stand in reverse
    order. -/
def manyAfter (step : Reader α) : Nat → List α → Reader (List α)
  | 0, seen => return seen.reverse
  | count + 1, seen => do
    let value ← step
    manyAfter step count (value :: seen)

/-- Reads `count` things of one kind. -/
def many (step : Reader α) (count : Nat) : Reader (List α) := manyAfter step count []

end Reader

end DnsResolver
