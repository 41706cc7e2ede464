import DnsResolver.Address.Ip
import DnsResolver.Error

namespace DnsResolver

/-!
# Reverse names

Every address has a name under `in-addr.arpa` or `ip6.arpa`: its octets in decimal, or its
half-octets as digits of base sixteen, the last one first.
-/

namespace Name

/-- The zone of the reverse names of IPv4 addresses. -/
def reverseV4Zone : List Char := ".in-addr.arpa".toList

/-- The zone of the reverse names of IPv6 addresses. -/
def reverseV6Zone : List Char := ".ip6.arpa".toList

/-- The two digits of an octet, the low one first. -/
def nibbles (octet : UInt8) : List Label :=
  [Text.hexDigits (octet.toNat % 16), Text.hexDigits (octet.toNat / 16)]

/-- The reverse name of an address. -/
def reverse : Ip → Name
  | .v4 ip =>
    ⟨['.'].intercalate (ip.octets.reverse.map fun octet => Text.digits octet.toNat)
      ++ reverseV4Zone⟩
  | .v6 ip => ⟨['.'].intercalate (ip.octets.reverse.flatMap nibbles) ++ reverseV6Zone⟩

/-- A label of one digit of base sixteen. -/
def nibble? : Label → Option Nat
  | [c] => Text.hexValue? c
  | _ => none

/-- The octets that half-octets form, two by two. -/
def pairNibbles : List Nat → List UInt8
  | high :: low :: rest => UInt8.ofNat (high * 16 + low) :: pairNibbles rest
  | _ => []

/-- The address under `in-addr.arpa` with the given labels in front. -/
def addressV4? (labels : List Label) : Option Ip := do
  let octets ← labels.reverse.mapM (Text.numeral? 255)
  let ip ← IPv4.ofOctets? (octets.map UInt8.ofNat)
  return .v4 ip

/-- The address under `ip6.arpa` with the given labels in front. -/
def addressV6? (labels : List Label) : Option Ip := do
  let nibbles ← labels.reverse.mapM nibble?
  if nibbles.length = 32 then
    let ip ← IPv6.ofOctets? (pairNibbles nibbles)
    return .v6 ip
  else
    none

/-- The address that a reverse name stands for. Case and trailing dots do not matter; a
    name under a reverse zone that fails is an invalid address, any other name has no
    address family. -/
def address (name : Name) : Except Error Ip :=
  let lower := Text.fold name.dropDots.chars
  match Text.stripBack? reverseV4Zone lower with
  | some front =>
    match addressV4? (front.splitOn '.') with
    | some ip => .ok ip
    | none => .error (.invalidAddress name.toString)
  | none =>
    match Text.stripBack? reverseV6Zone lower with
    | some front =>
      match addressV6? (front.splitOn '.') with
      | some ip => .ok ip
      | none => .error (.invalidAddress name.toString)
    | none => .error (FormatError.unsupportedFamily (.zone name))

end Name

end DnsResolver
