import DnsResolver.Error
import DnsResolver.Address.Ip
import DnsResolver.Wire.BigEndian

namespace DnsResolver

/-!
# Exchanges over UDP

A message goes out as one datagram. Of the datagrams that arrive, the reply is the first
that comes from the server and carries the identifier of the message; every other one is
dropped, and the waiting goes on. Which messages a host refuses to send is not known here:
the socket says so.
-/

/-- What arrived at a socket, and where from. -/
structure Datagram where
  source : Endpoint
  octets : Octets

/-- How a socket fails. `timedOut` is also a call that would block, and `reset` also a
    connection that was aborted or that ends too early. -/
inductive SocketFault where
  | timedOut
  | refused
  | reset
  /-- Any other failure, in the words of the host. -/
  | host (fault : HostFault)

/-- What the failure of a socket means for an exchange with a server. -/
def SocketFault.toError (server : Endpoint) : SocketFault → TransportError
  | timedOut => .timeout (toString server)
  | refused => .refused (toString server)
  | reset => .reset (toString server)
  | host fault => .host (toString server) fault

namespace Udp

/-- What an exchange meets on its socket, until the time is over or the socket fails. -/
structure Socket where
  /-- The failure to open the socket or to send the message. -/
  refusal : Option SocketFault := none
  /-- The datagrams that arrive after the sending. -/
  arrivals : List Datagram := []
  /-- The failure to receive any more than these. -/
  failure : Option SocketFault := none

/-- The most octets of an arriving datagram that are kept. -/
def keptSize : Nat := 4096

/-- The identifier of a message, if it is long enough to have one. -/
def idOf? (octets : Octets) : Option UInt16 :=
  match octets[0]?, octets[1]? with
  | some high, some low => some (Wire.word high low)
  | _, _ => none

/-- What is kept of an arriving datagram. -/
def kept (datagram : Datagram) : Octets := datagram.octets.extract 0 keptSize

/-- Whether a datagram is the reply of a server to a message. -/
def isReply (server : Endpoint) (message : Octets) (datagram : Datagram) : Bool :=
  datagram.source == server && idOf? (kept datagram) == idOf? message

/-- Waits for the reply. When there is none, the waiting ends with the failure of the socket or
    with the time. -/
def await (socket : Socket) (server : Endpoint) (message : Octets) :
    Except TransportError Octets :=
  match socket.arrivals.find? (isReply server message) with
  | some datagram => .ok (kept datagram)
  | none => .error ((socket.failure.getD .timedOut).toError server)

/-- Sends a message and waits for the reply. -/
def exchange (socket : Socket) (server : Endpoint) (message : Octets) :
    Except TransportError Octets :=
  match socket.refusal with
  | some fault => .error (fault.toError server)
  | none => await socket server message

end Udp

end DnsResolver
