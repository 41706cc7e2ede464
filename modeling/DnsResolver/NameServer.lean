import DnsResolver.Address.Ip
import DnsResolver.Name.Basic
import DnsResolver.Text.Blank

namespace DnsResolver

/-!
# Name servers

A name server is an endpoint, the transport it is reached over and, when a delegation
named it, its host name. Its text is `udp://ip:port` or `tcp://ip:port`, and the host in
parentheses after it. A text that is read may leave out the scheme and the port.
-/

/-- The transport a server is reached over. -/
inductive Protocol where
  | udp
  | tcp
  deriving DecidableEq

namespace Protocol

/-- The name of a transport. -/
def toString : Protocol → String
  | udp => "UDP"
  | tcp => "TCP"

instance : ToString Protocol := ⟨Protocol.toString⟩

/-- The word for a transport in front of `://`. -/
def scheme : Protocol → String
  | udp => "udp"
  | tcp => "tcp"

end Protocol

/-- A server and how it is reached. -/
structure NameServer where
  endpoint : Endpoint
  protocol : Protocol
  /-- The host name, when it is known. -/
  host : Option Name := none
  deriving DecidableEq

/-- Why a text names no server. -/
inductive NameServerFault where
  /-- The text has a scheme other than `udp` and `tcp`. -/
  | scheme (text : String)
  /-- What follows the scheme is neither an endpoint nor an address. -/
  | address (text : String)

/-- The wording of a fault. -/
def NameServerFault.message : NameServerFault → String
  | scheme text =>
    s!"Invalid name server '{text}'. Expected udp://IP:PORT, tcp://IP:PORT or IP[:PORT]"
  | address text => s!"Invalid name server address '{text}'"

namespace NameServer

/-- The port of a server whose text has none. -/
def defaultPort : UInt16 := 53

/-- The server at an address, on the default port over UDP. -/
def udp (ip : Ip) : NameServer := ⟨Endpoint.ofIp ip defaultPort, .udp, none⟩

/-- The same server under a host name. -/
def withHost (server : NameServer) (host : Name) : NameServer := { server with host := some host }

/-- The same server over another transport. -/
def withProtocol (server : NameServer) (protocol : Protocol) : NameServer :=
  { server with protocol := protocol }

/-- The text of a server. -/
def toString (server : NameServer) : String :=
  let address := s!"{server.protocol.scheme}://{server.endpoint}"
  match server.host with
  | some host => s!"{address} ({host})"
  | none => address

instance : ToString NameServer := ⟨NameServer.toString⟩

/-- Reads an endpoint, or an address with or without brackets. -/
def endpoint? (cs : List Char) : Option Endpoint :=
  match Endpoint.parse? cs with
  | some endpoint => some endpoint
  | none =>
    let bare := ((Text.stripFront? ['['] cs).bind (Text.stripBack? [']'])).getD cs
    (Ip.parse? bare).map fun ip => Endpoint.ofIp ip defaultPort

/-- Splits a text into its transport and what follows the scheme. -/
def scheme? (protocol : Protocol) (cs : List Char) :
    Except NameServerFault (Protocol × List Char) :=
  match Text.stripFront? "udp://".toList cs with
  | some rest => .ok (.udp, rest)
  | none =>
    match Text.stripFront? "tcp://".toList cs with
    | some rest => .ok (.tcp, rest)
    | none =>
      if Text.hasInfix "://".toList cs then .error (.scheme (String.ofList cs))
      else .ok (protocol, cs)

/-- Reads a server, over `protocol` when the text has no scheme. Blanks around it are
    ignored. -/
def parse (text : String) (protocol : Protocol := .udp) : Except NameServerFault NameServer := do
  let (protocol, rest) ← scheme? protocol (Text.trim text.toList)
  match endpoint? rest with
  | some endpoint => return ⟨endpoint, protocol, none⟩
  | none => throw (.address (String.ofList rest))

end NameServer

end DnsResolver
