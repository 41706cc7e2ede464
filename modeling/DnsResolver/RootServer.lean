import DnsResolver.NameServer

namespace DnsResolver

/-!
# Root hints

The thirteen root servers, from which an iterative resolution starts.
-/

/-- A root server: the letter it is known by and its two addresses. -/
structure RootServer where
  letter : Char
  ipv4 : IPv4
  ipv6 : IPv6

namespace RootServer

/-- The host name of a root server. -/
def host (root : RootServer) : Name := ⟨root.letter :: ".root-servers.net".toList⟩

/-- A root server as a name server at its address of one family. -/
def nameServer (root : RootServer) (preferIpv6 : Bool) : NameServer :=
  let ip : Ip := if preferIpv6 then .v6 root.ipv6 else .v4 root.ipv4
  (NameServer.udp ip).withHost root.host

/-- The root servers in the order of their letters. -/
def all : List RootServer :=
  [⟨'a', ⟨198, 41, 0, 4⟩, ⟨[0x2001, 0x503, 0xBA3E, 0, 0, 0, 0x2, 0x30], rfl⟩⟩,
   ⟨'b', ⟨170, 247, 170, 2⟩, ⟨[0x2801, 0x1B8, 0x10, 0, 0, 0, 0, 0xB], rfl⟩⟩,
   ⟨'c', ⟨192, 33, 4, 12⟩, ⟨[0x2001, 0x500, 0x2, 0, 0, 0, 0, 0xC], rfl⟩⟩,
   ⟨'d', ⟨199, 7, 91, 13⟩, ⟨[0x2001, 0x500, 0x2D, 0, 0, 0, 0, 0xD], rfl⟩⟩,
   ⟨'e', ⟨192, 203, 230, 10⟩, ⟨[0x2001, 0x500, 0xA8, 0, 0, 0, 0, 0xE], rfl⟩⟩,
   ⟨'f', ⟨192, 5, 5, 241⟩, ⟨[0x2001, 0x500, 0x2F, 0, 0, 0, 0, 0xF], rfl⟩⟩,
   ⟨'g', ⟨192, 112, 36, 4⟩, ⟨[0x2001, 0x500, 0x12, 0, 0, 0, 0, 0xD0D], rfl⟩⟩,
   ⟨'h', ⟨198, 97, 190, 53⟩, ⟨[0x2001, 0x500, 0x1, 0, 0, 0, 0, 0x53], rfl⟩⟩,
   ⟨'i', ⟨192, 36, 148, 17⟩, ⟨[0x2001, 0x7FE, 0, 0, 0, 0, 0, 0x53], rfl⟩⟩,
   ⟨'j', ⟨192, 58, 128, 30⟩, ⟨[0x2001, 0x503, 0xC27, 0, 0, 0, 0x2, 0x30], rfl⟩⟩,
   ⟨'k', ⟨193, 0, 14, 129⟩, ⟨[0x2001, 0x7FD, 0, 0, 0, 0, 0, 0x1], rfl⟩⟩,
   ⟨'l', ⟨199, 7, 83, 42⟩, ⟨[0x2001, 0x500, 0x9F, 0, 0, 0, 0, 0x42], rfl⟩⟩,
   ⟨'m', ⟨202, 12, 27, 33⟩, ⟨[0x2001, 0xDC3, 0, 0, 0, 0, 0, 0x35], rfl⟩⟩]

/-- The root servers at their addresses of one family. -/
def nameServers (preferIpv6 : Bool) : List NameServer :=
  all.map fun root => root.nameServer preferIpv6

end RootServer

end DnsResolver
