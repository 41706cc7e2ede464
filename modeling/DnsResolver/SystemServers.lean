import DnsResolver.NameServer

namespace DnsResolver

/-!
# The name servers of the host

The file `resolv.conf` lists the servers of a host. A line counts when its first word,
outside comments, is `nameserver` and its second is an address; a zone after a percent sign
is ignored. A host without any such line uses two public servers.
-/

namespace SystemServers

/-- The lines of a text. A carriage return in front of a line feed stays in its line, where
    it is a blank like any other. -/
def lines (cs : List Char) : List (List Char) := cs.splitOn '\n'

/-- The part of a line in front of a comment. -/
def withoutComment (line : List Char) : List Char :=
  line.takeWhile fun c => c != '#' && c != ';'

/-- The address that a line gives. -/
def address? (line : List Char) : Option Ip :=
  match Text.words (withoutComment line) with
  | keyword :: address :: _ =>
    if keyword = "nameserver".toList then Ip.parse? (address.takeWhile (· != '%')) else none
  | _ => none

/-- The servers that the file lists, in order. -/
def parse (contents : String) : List NameServer :=
  ((lines contents.toList).filterMap address?).map NameServer.udp

/-- The servers of a host whose file lists none. -/
def fallback : List NameServer :=
  [NameServer.udp (.v4 ⟨1, 1, 1, 1⟩), NameServer.udp (.v4 ⟨8, 8, 8, 8⟩)]

/-- The servers of a host; `contents` is absent when the file cannot be read. -/
def discover (contents : Option String) : List NameServer :=
  match contents.map parse with
  | none | some [] => fallback
  | some servers => servers

end SystemServers

end DnsResolver
