import DnsResolver.Address.IPv6

namespace DnsResolver

/-!
# Addresses of either family, and endpoints

An endpoint is an address with a port, and for IPv6 a scope. Its text is `ip:port`, or
`[ip]:port` with `%scope` in the brackets when the scope is not zero.
-/

/-- An address of either family. -/
inductive Ip where
  | v4 (ip : IPv4)
  | v6 (ip : IPv6)
  deriving DecidableEq

namespace Ip

/-- The text of an address. -/
def chars : Ip → List Char
  | v4 ip => ip.chars
  | v6 ip => ip.chars

instance : ToString Ip := ⟨fun ip => String.ofList ip.chars⟩

/-- Reads an address at the front of a text. -/
def scan (cs : List Char) : Option (Ip × List Char) :=
  match IPv4.scan cs with
  | some (ip, rest) => some (v4 ip, rest)
  | none => (IPv6.scan cs).map fun (ip, rest) => (v6 ip, rest)

/-- Reads a text that is one address and nothing else. -/
def parse? (cs : List Char) : Option Ip :=
  match scan cs with
  | some (ip, []) => some ip
  | _ => none

end Ip

/-- Where a server listens. -/
inductive Endpoint where
  | v4 (ip : IPv4) (port : UInt16)
  | v6 (ip : IPv6) (port : UInt16) (scope : UInt32)
  deriving DecidableEq

namespace Endpoint

/-- The endpoint at an address and a port, outside any scope. -/
def ofIp : Ip → UInt16 → Endpoint
  | .v4 ip, port => v4 ip port
  | .v6 ip, port => v6 ip port 0

/-- The address of an endpoint. -/
def ip : Endpoint → Ip
  | v4 ip _ => .v4 ip
  | v6 ip _ _ => .v6 ip

/-- The port of an endpoint. -/
def port : Endpoint → UInt16
  | v4 _ port => port
  | v6 _ port _ => port

/-- The text of an endpoint. -/
def chars : Endpoint → List Char
  | v4 ip port => ip.chars ++ ':' :: Text.digits port.toNat
  | v6 ip port scope =>
    let zone := if scope = 0 then [] else '%' :: Text.digits scope.toNat
    '[' :: ip.chars ++ zone ++ ']' :: ':' :: Text.digits port.toNat

instance : ToString Endpoint := ⟨fun endpoint => String.ofList endpoint.chars⟩

/-- Reads a decimal number of at most `limit` at the front of a text. Leading zeros are
    allowed. -/
def scanNumber (limit : Nat) (cs : List Char) : Option (Nat × List Char) :=
  let (run, rest) := cs.span Char.isDigit
  (Text.decimal? run).bind fun n => if n ≤ limit then some (n, rest) else none

/-- Reads a colon and a port that end the text. -/
def port? (cs : List Char) : Option UInt16 :=
  match cs with
  | ':' :: cs =>
    match scanNumber 65535 cs with
    | some (n, []) => some (UInt16.ofNat n)
    | _ => none
  | _ => none

/-- Reads a percent sign and a scope. A text without a scope that can be read is left where
    it is, with scope zero. -/
def scanScope (cs : List Char) : UInt32 × List Char :=
  match cs with
  | '%' :: inner =>
    match scanNumber 4294967295 inner with
    | some (n, rest) => (UInt32.ofNat n, rest)
    | none => (0, cs)
  | _ => (0, cs)

/-- Reads a text that is `ip:port` for an IPv4 address. -/
def parseV4? (cs : List Char) : Option Endpoint :=
  match IPv4.scan cs with
  | some (ip, rest) => (port? rest).map (v4 ip ·)
  | none => none

/-- Reads a text that is `[ip]:port` for an IPv6 address, with an optional scope. -/
def parseV6? (cs : List Char) : Option Endpoint :=
  match cs with
  | '[' :: cs =>
    match IPv6.scan cs with
    | some (ip, rest) =>
      match scanScope rest with
      | (scope, ']' :: rest) => (port? rest).map (v6 ip · scope)
      | _ => none
    | none => none
  | _ => none

/-- Reads a text that is one endpoint and nothing else. -/
def parse? (cs : List Char) : Option Endpoint :=
  match parseV4? cs with
  | some endpoint => some endpoint
  | none => parseV6? cs

end Endpoint

end DnsResolver
