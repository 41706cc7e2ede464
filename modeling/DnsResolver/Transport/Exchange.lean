import DnsResolver.NameServer
import DnsResolver.Transport.Tcp
import DnsResolver.Transport.Udp

namespace DnsResolver

/-!
# Exchanges

A message goes to a server over the server's transport, on a socket of its own.
-/

/-- What comes back from the network: datagrams over UDP, a connection over TCP. -/
structure Network where
  /-- Whether the host has a route to the server. -/
  routed : Bool
  arrivals : List Datagram := []
  connection : Connection := .refused

namespace Network

/-- Why a host does not send a message over UDP, when all it lacks is a route. -/
def unrouted? (network : Network) : Option HostFault :=
  if network.routed then none else some .networkUnreachable

/-- Sends a message to a server and waits for the reply. Over UDP the host may have a reason not
    to send the message. -/
def exchange (network : Network) (server : NameServer) (message : Octets)
    (refusal : Option HostFault := network.unrouted?) : Except Error Octets :=
  match server.protocol with
  | .udp =>
    let socket : Udp.Socket := { refusal := refusal.map .host, arrivals := network.arrivals }
    (Udp.exchange socket server.endpoint message).mapError .transport
  | .tcp => Tcp.exchange network.routed server.endpoint message network.connection

/-- What the server receives of a message. -/
def delivered (network : Network) (server : NameServer) (message : Octets)
    (refusal : Option HostFault := network.unrouted?) : Option Octets :=
  match server.protocol with
  | .udp =>
    match refusal with
    | some _ => none
    | none => some message
  | .tcp =>
    match Tcp.connect network.routed server.endpoint network.connection with
    | .error _ => none
    | .ok _ => (Tcp.send message).toOption

end Network

end DnsResolver
