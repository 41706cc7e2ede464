import DnsResolver.Text.Numeral

namespace DnsResolver

/-!
# IPv4 addresses

Four octets and their dotted text. In a text every part has one to three digits, no
leading zero and a value below 256.
-/

/-- An IPv4 address. -/
structure IPv4 where
  a : UInt8
  b : UInt8
  c : UInt8
  d : UInt8
  deriving DecidableEq

namespace IPv4

/-- The octets of an address, in order. -/
def octets (ip : IPv4) : List UInt8 := [ip.a, ip.b, ip.c, ip.d]

/-- The address with the given octets, when there are four. -/
def ofOctets? : List UInt8 → Option IPv4
  | [a, b, c, d] => some ⟨a, b, c, d⟩
  | _ => none

/-- The dotted text of an address. -/
def chars (ip : IPv4) : List Char :=
  ['.'].intercalate (ip.octets.map fun octet => Text.digits octet.toNat)

instance : ToString IPv4 := ⟨fun ip => String.ofList ip.chars⟩

/-- Reads one part of a dotted address at the front of a text. -/
def scanPart (cs : List Char) : Option (UInt8 × List Char) :=
  let (run, rest) := cs.span Char.isDigit
  let n := Nat.ofDigitChars 10 run 0
  if run.isEmpty || 3 < run.length || (1 < run.length && run.head? == some '0') || 255 < n then
    none
  else
    some (UInt8.ofNat n, rest)

/-- Reads a dot at the front of a text, and one part after it. -/
def scanDotPart (cs : List Char) : Option (UInt8 × List Char) :=
  match cs with
  | '.' :: rest => scanPart rest
  | _ => none

/-- Reads a dotted address at the front of a text. -/
def scan (cs : List Char) : Option (IPv4 × List Char) := do
  let (a, cs) ← scanPart cs
  let (b, cs) ← scanDotPart cs
  let (c, cs) ← scanDotPart cs
  let (d, cs) ← scanDotPart cs
  return (⟨a, b, c, d⟩, cs)

@[simp] theorem ofOctets?_octets (ip : IPv4) : ofOctets? ip.octets = some ip := rfl

end IPv4

end DnsResolver
