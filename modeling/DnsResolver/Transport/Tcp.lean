import DnsResolver.Address.Ip
import DnsResolver.Message.Frame

namespace DnsResolver

/-!
# Exchanges over TCP

One connection carries one message each way, each after its length in two octets. A
connection that ends within the reply counts as reset.
-/

/-- What a peer sends on a connection, and whether it closes the connection afterwards. -/
structure Stream where
  octets : Octets
  closed : Bool

/-- What a peer does about a connection. -/
inductive Connection where
  | refused
  | accepted (stream : Stream)

namespace Stream

/-- Takes octets off the front, if so many arrive. -/
def take? (size : Nat) (stream : Stream) : Option (Octets × Stream) :=
  if size ≤ stream.octets.size then
    some (stream.octets.extract 0 size,
      { stream with octets := stream.octets.extract size stream.octets.size })
  else none

/-- Takes one message after its length off the front, and the rest of the stream. -/
def takeMessage? (stream : Stream) : Option (Octets × Stream) := do
  let (length, stream) ← stream.take? 2
  stream.take? (Wire.word (length.getD 0 0) (length.getD 1 0)).toNat

/-- What it means that a message does not arrive. -/
def missing (server : Endpoint) (stream : Stream) : TransportError :=
  if stream.closed then .reset (toString server) else .timeout (toString server)

/-- Reads one message after its length, and the rest of the stream. -/
def receive (server : Endpoint) (stream : Stream) :
    Except TransportError (Octets × Stream) :=
  match stream.takeMessage? with
  | some received => .ok received
  | none => .error (stream.missing server)

end Stream

namespace Tcp

/-- What a host puts on a connection for a message. -/
def send (message : Octets) : Except FormatError Octets := Frame.wrap message

/-- Connects to a server. `routed` tells whether the host has a route to it. Nobody listens
    on port 0. -/
def connect (routed : Bool) (server : Endpoint) (connection : Connection) :
    Except TransportError Stream :=
  if !routed then .error (.host (toString server) .networkUnreachable)
  else if server.port = 0 then .error (.refused (toString server))
  else
    match connection with
    | .refused => .error (.refused (toString server))
    | .accepted stream => .ok stream

/-- Connects to a server, sends a message and waits for the reply. -/
def exchange (routed : Bool) (server : Endpoint) (message : Octets) (connection : Connection) :
    Except Error Octets := do
  let stream ← (connect routed server connection).mapError .transport
  let _ ← (send message).mapError .format
  let (reply, _) ← (stream.receive server).mapError .transport
  return reply

end Tcp

end DnsResolver
