import DnsResolver.Message.RecordData
import DnsResolver.RecordClass

namespace DnsResolver

/-!
# Resource records

A record carries a lifetime in seconds. Pinned to a moment it expires at an instant, and
its remaining lifetime counts down in whole seconds; otherwise the lifetime stays as it is.
Records are equal when everything but the expiry is, owners up to ASCII case.
-/

/-- A moment on a monotone clock, in nanoseconds. -/
abbrev Instant := Int

/-- The nanoseconds of a second. -/
def Instant.second : Int := 1000000000

/-- A resource record. -/
structure Record where
  name : Name
  type : RecordType
  recordClass : RecordClass
  ttl : UInt32
  /-- When the record expires, once that was pinned. -/
  expires : Option Instant := none
  data : RecordData
  deriving DecidableEq

namespace Record

/-- The record of a payload. The owner's trailing dot is dropped; `type` counts only for a
    payload that is not interpreted. -/
def of (name : Name) (type : RecordType) (recordClass : RecordClass) (ttl : UInt32)
    (data : RecordData) : Record :=
  ⟨name.dropDot, data.type?.getD type, recordClass, ttl, none, data⟩

/-- Equality of records. -/
def sameAs (a b : Record) : Bool :=
  a.name.sameAs b.name && a.type == b.type && a.recordClass == b.recordClass && a.ttl == b.ttl
    && a.data == b.data

/-- The lifetime left at an instant, in whole seconds. It is never negative and at most
    what 32 bits hold. -/
def ttlAt (record : Record) (now : Instant) : UInt32 :=
  match record.expires with
  | some expiry => UInt32.ofNat (min ((expiry - now) / Instant.second).toNat 4294967295)
  | none => record.ttl

/-- Pins the expiry: the lifetime starts at an instant. -/
def pin (now : Instant) (record : Record) : Record :=
  { record with expires := some (now + record.ttl.toNat * Instant.second) }

/-- Gives a record another lifetime, which is not pinned. -/
def withTtl (record : Record) (ttl : UInt32) : Record :=
  { record with ttl := ttl, expires := none }

/-- Reads a record. -/
def read : Reader Record := do
  let name ← Name.read
  let type ← Reader.word
  let recordClass ← Reader.word
  let ttl ← Reader.long
  let length ← Reader.word
  let data ← RecordData.read (.ofCode type) length.toNat
  return ⟨name, .ofCode type, .ofCode recordClass, ttl, none, data⟩

/-- Fills in the payload length that was left open at an offset. -/
def closePayload (offset : Nat) : Writing Unit := do
  let size := (← get).size - offset - 2
  if 65535 < size then throw (.messageTooLarge size 65535)
  else modify fun writer => writer.patch offset (UInt16.ofNat size)

/-- Writes a record with the lifetime that it has at an instant. -/
def write (now : Instant) (record : Record) : Writing Unit := do
  record.name.write
  modify fun writer => writer.putWord record.type.code
  modify fun writer => writer.putWord record.recordClass.code
  modify fun writer => writer.putLong (record.ttlAt now)
  let offset := (← get).size
  modify fun writer => writer.putWord 0
  record.data.write
  closePayload offset

end Record

end DnsResolver
