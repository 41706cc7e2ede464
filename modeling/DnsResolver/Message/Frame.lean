import DnsResolver.Message.Basic

namespace DnsResolver

/-!
# Messages on a stream

On a stream every message follows its length in two octets.
-/

namespace Frame

/-- The largest message that a frame holds. -/
def maxSize : Nat := 65535

/-- A message after its length. -/
def wrap (octets : Octets) : Except FormatError Octets :=
  if maxSize < octets.size then .error (.messageTooLarge octets.size maxSize)
  else
    let (high, low) := Wire.wordOctets (UInt16.ofNat octets.size)
    .ok (#[high, low] ++ octets)

/-- Reads the octets of one framed message. -/
def readOctets : Reader Octets := do
  let length ← Reader.word
  Reader.octets length.toNat

end Frame

namespace Message

/-- The frame of a message, with the lifetimes that its records have at an instant. -/
def encodeFrame (now : Instant) (message : Message) : Except FormatError Octets := do
  let octets ← message.encode now
  Frame.wrap octets

/-- The first framed message of a buffer and the number of octets its frame takes. -/
def decodeFrame (buffer : Octets) : Except FormatError (Message × Nat) := do
  let octets ← Reader.run Frame.readOctets buffer
  let message ← decode octets
  return (message, octets.size + 2)

end Message

end DnsResolver
